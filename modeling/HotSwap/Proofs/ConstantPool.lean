import HotSwap.Proofs.SlotArray
import HotSwap.Symbols
import Mathlib.Data.List.Induction

/-! # What a constant pool keeps beside its entries

A pool keeps the texts of entries that were resolved, and the indices of constants that
were asked for. Both are copies: a kept text is the one to which the entry leads, and a
kept index is that of an entry for the constant. Entries are only ever added, so what was
true when the copy was made stays true, whatever is done with the pool. -/

namespace HotSwap

namespace ConstantPool

/-- The array that holds the given constants, one after the other. -/
def slots (constants : List Constant) : SlotArray Constant :=
  constants.foldl (fun slots constant => slots.push constant.width constant) (.empty 1)

theorem slots_append (constants : List Constant) (constant : Constant) :
    slots (constants ++ [constant]) = (slots constants).push constant.width constant := by
  rw [slots, List.foldl_append]
  rfl

theorem spaced_slots (constants : List Constant) : (slots constants).Spaced := by
  induction constants using List.reverseRecOn with
  | nil => exact SlotArray.spaced_empty 1
  | append_singleton constants constant ih =>
      rw [slots_append]
      exact ih.push constant.width_pos constant

/-- The text to which the class or string at an index leads. -/
def linkedText? (pool : ConstantPool) (index : UInt16) : Option String :=
  match pool.get? index with
  | some (.classRef link) | some (.string link) => pool.text? link
  | _ => none

/-- Whether all that a pool keeps agrees with its entries. -/
structure Sound (pool : ConstantPool) : Prop where
  entries : ∃ constants, pool.entries = slots constants
  next_le : pool.next ≤ 65535
  resolved : ∀ (index : UInt16) (text : String), pool.resolved.lookup index = some text →
    pool.linkedText? index = some text
  interned : ∀ (constant : Constant) (index : UInt16),
    pool.interned.lookup constant = some index → pool.get? index = some constant

/-- Whether a pool has all the entries of another one, at the same indices. -/
def Extends (later pool : ConstantPool) : Prop :=
  ∀ (index : UInt16) (constant : Constant), pool.get? index = some constant →
    later.get? index = some constant

variable {pool later : ConstantPool} {constant : Constant} {index : UInt16} {text : String}

theorem Extends.refl (pool : ConstantPool) : pool.Extends pool := fun _ _ found => found

theorem Extends.trans {last : ConstantPool} (second : last.Extends later)
    (first : later.Extends pool) : last.Extends pool :=
  fun index constant found => second index constant (first index constant found)

theorem text?_eq_some_iff : pool.text? index = some text ↔ pool.get? index = some (.utf8 text) := by
  unfold text?
  split
  · next found => simp [found]
  · next other =>
    simp only [reduceCtorEq, false_iff]
    exact other text

theorem Extends.text? (extends_ : later.Extends pool) (found : pool.text? index = some text) :
    later.text? index = some text := by
  rw [text?_eq_some_iff] at found ⊢
  exact extends_ index _ found

theorem linkedText?_eq_some_iff :
    pool.linkedText? index = some text ↔
      ∃ link, (pool.get? index = some (.classRef link) ∨ pool.get? index = some (.string link)) ∧
        pool.text? link = some text := by
  unfold linkedText?
  split
  · next found => simp [found]
  · next found => simp [found]
  · next notClass notString =>
    simp only [reduceCtorEq, false_iff, not_exists, not_and]
    rintro link (found | found)
    · exact absurd found (notClass link)
    · exact absurd found (notString link)

theorem Extends.linkedText? (extends_ : later.Extends pool)
    (found : pool.linkedText? index = some text) : later.linkedText? index = some text := by
  rw [linkedText?_eq_some_iff] at found ⊢
  obtain ⟨link, entry, linked⟩ := found
  exact ⟨link, entry.imp (extends_ index _) (extends_ index _), extends_.text? linked⟩

namespace Sound

theorem spaced (sound : pool.Sound) : pool.entries.Spaced := by
  obtain ⟨constants, eq⟩ := sound.entries
  rw [eq]
  exact spaced_slots constants

/-- The index of a new entry is not cut down. -/
theorem toNat_next (sound : pool.Sound) : (UInt16.ofNat pool.next).toNat = pool.next :=
  UInt16.toNat_ofNat_of_lt' (Nat.lt_succ_of_le sound.next_le)

theorem get?_push (sound : pool.Sound) (constant : Constant) (index : UInt16) :
    (pool.push constant).get? index =
      if index.toNat = pool.next then some constant else pool.get? index :=
  sound.spaced.get?_push constant.width_pos constant index.toNat

theorem get?_push_next (sound : pool.Sound) (constant : Constant) :
    (pool.push constant).get? (UInt16.ofNat pool.next) = some constant := by
  rw [sound.get?_push, sound.toNat_next, if_pos rfl]

theorem extends_push (sound : pool.Sound) (constant : Constant) :
    (pool.push constant).Extends pool := by
  intro index other found
  have mem := (SlotArray.get?_eq_some_iff sound.spaced).mp found
  have below : index.toNat < pool.next := sound.spaced.below _ mem
  rw [sound.get?_push, if_neg (Nat.ne_of_lt below), found]

/-- What agrees with the entries of a pool agrees with those of a pool that has more. -/
theorem push (sound : pool.Sound) (room : pool.HasRoom constant) : (pool.push constant).Sound := by
  obtain ⟨constants, eq⟩ := sound.entries
  have extends_ := sound.extends_push constant
  refine ⟨⟨constants ++ [constant], ?_⟩, room, ?_, ?_⟩
  · rw [slots_append, ← eq]
    rfl
  · intro index text kept
    exact extends_.linkedText? (sound.resolved index text kept)
  · intro other index kept
    exact extends_ index other (sound.interned other index kept)

theorem empty : ConstantPool.empty.Sound := by
  refine ⟨⟨[], rfl⟩, by decide, ?_, ?_⟩
  · intro index text kept
    cases kept
  · intro constant index kept
    cases kept

/-- Reading a pool only adds entries. -/
theorem of_readUpTo {count : Nat} {input rest : Bytes} (sound : pool.Sound)
    (read : readUpTo count pool input = .ok (later, rest)) : later.Sound := by
  fun_induction readUpTo count pool input with
  | case1 => cases read
  | case2 pool input more constant after found room ih => exact ih (sound.push room) read
  | case3 => cases read
  | case4 =>
      cases read
      exact sound

theorem of_read {input rest : Bytes} (read : ConstantPool.read input = .ok (pool, rest)) :
    pool.Sound := by
  unfold ConstantPool.read at read
  cases count : Reader.u16 input with
  | error cause => simp [bind, StateT.bind, Except.bind, count] at read
  | ok found =>
      simp only [bind, StateT.bind, Except.bind, count] at read
      exact of_readUpTo .empty read

end Sound

end ConstantPool

/-- One computation after another: the second one goes on with the state that the first one
left. -/
theorem run_bind {σ α β : Type} (first : ExceptT FormatError (StateM σ) α)
    (second : α → ExceptT FormatError (StateM σ) β) (state : σ) :
    (first >>= second).run state =
      match first.run state with
      | (.ok value, later) => (second value).run later
      | (.error cause, later) => (.error cause, later) := by
  simp only [bind, ExceptT.run, ExceptT.mk, ExceptT.bind, StateT.bind]
  generalize first state = left
  obtain ⟨result, later⟩ := left
  cases result <;> rfl

namespace PoolM

open ConstantPool

variable {α β : Type} {pool : ConstantPool} {constant : Constant} {index : UInt16}

theorem append_run (constant : Constant) (pool : ConstantPool) :
    (append constant).run pool =
      if pool.HasRoom constant then (.ok (UInt16.ofNat pool.next), pool.push constant)
      else (.error (.poolFull pool.next), pool) :=
  rfl

/-- What asking for a constant does. -/
theorem intern_run (constant : Constant) (pool : ConstantPool) :
    (intern constant).run pool =
      match pool.interned.lookup constant with
      | some index => (.ok index, pool)
      | none =>
          if pool.HasRoom constant then
            (.ok (UInt16.ofNat pool.next),
              { pool.push constant with
                interned := (constant, UInt16.ofNat pool.next) :: pool.interned })
          else (.error (.poolFull pool.next), pool) := by
  have state : (get : PoolM ConstantPool).run pool = (.ok pool, pool) := rfl
  rw [intern, run_bind, state]
  dsimp only
  cases pool.interned.lookup constant with
  | some index => rfl
  | none =>
      dsimp only
      rw [run_bind, append_run]
      by_cases room : pool.HasRoom constant
      · rw [if_pos room, if_pos room]
        rfl
      · rw [if_neg room, if_neg room]

/-- What resolving does: it keeps the text to which the entry leads, or it fails. -/
theorem resolve_run (index : UInt16) (pool : ConstantPool) :
    (∃ text, pool.linkedText? index = some text ∧
        (resolve index).run pool =
          (.ok (), { pool with resolved := (index, text) :: pool.resolved })) ∨
      (pool.linkedText? index = none ∧
        ∃ cause, (resolve index).run pool = (.error cause, pool)) := by
  have state : (get : PoolM ConstantPool).run pool = (.ok pool, pool) := rfl
  rw [resolve, run_bind, state, linkedText?]
  dsimp only
  cases pool.get? index with
  | none => exact .inr ⟨rfl, _, rfl⟩
  | some constant =>
      cases constant with
      | classRef link | string link =>
          dsimp only
          cases pool.text? link with
          | some text => exact .inl ⟨text, rfl, rfl⟩
          | none => exact .inr ⟨rfl, _, rfl⟩
      | _ => exact .inr ⟨rfl, _, rfl⟩

/-- Whether a computation keeps a pool sound, and all entries where they are, also if it fails. -/
def Keeps (action : PoolM α) : Prop :=
  ∀ pool : ConstantPool, pool.Sound →
    (action.run pool).2.Sound ∧ (action.run pool).2.Extends pool

theorem keeps_pure (value : α) : Keeps (pure value : PoolM α) :=
  fun pool sound => ⟨sound, .refl pool⟩

theorem Keeps.bind {first : PoolM α} {second : α → PoolM β} (firstKeeps : Keeps first)
    (secondKeeps : ∀ value, Keeps (second value)) : Keeps (first >>= second) := by
  intro pool sound
  have step := firstKeeps pool sound
  rw [run_bind]
  split
  · next value later run =>
    rw [run] at step
    obtain ⟨soundLater, extendsLater⟩ := step
    obtain ⟨soundLast, extendsLast⟩ := secondKeeps value later soundLater
    exact ⟨soundLast, extendsLast.trans extendsLater⟩
  · next cause later run =>
    rw [run] at step
    exact step

theorem keeps_append (constant : Constant) : Keeps (append constant) := by
  intro pool sound
  rw [append_run]
  split
  · next room => exact ⟨sound.push room, sound.extends_push constant⟩
  · exact ⟨sound, .refl pool⟩

/-- A constant that was asked for is at the index that was given out. -/
theorem get?_of_intern (sound : pool.Sound)
    (given : ((intern constant).run pool).1 = .ok index) :
    ((intern constant).run pool).2.get? index = some constant := by
  rw [intern_run] at given ⊢
  split at given
  · next kept =>
    cases given
    exact sound.interned constant index kept
  · split at given
    · next room =>
      cases given
      rw [if_pos room]
      exact sound.get?_push_next constant
    · cases given

theorem keeps_intern (constant : Constant) : Keeps (intern constant) := by
  intro pool sound
  rw [intern_run]
  split
  · exact ⟨sound, .refl pool⟩
  · split
    · next room =>
      obtain ⟨entries, next_le, resolved, interned⟩ := sound.push room
      refine ⟨⟨entries, next_le, resolved, ?_⟩, sound.extends_push constant⟩
      intro other index kept
      rw [List.lookup_cons] at kept
      split at kept
      · next same =>
        cases kept
        rw [eq_of_beq same]
        exact sound.get?_push_next constant
      · exact interned other index kept
    · exact ⟨sound, .refl pool⟩

/-- Resolving keeps the text to which the entry leads, and adds no entry. -/
theorem keeps_resolve (index : UInt16) : Keeps (resolve index) := by
  intro pool sound
  rcases resolve_run index pool with ⟨text, linked, run⟩ | ⟨-, cause, run⟩
  · rw [run]
    refine ⟨⟨sound.entries, sound.next_le, ?_, sound.interned⟩, .refl pool⟩
    intro other otherText kept
    rw [List.lookup_cons] at kept
    split at kept
    · next same =>
      cases kept
      rw [eq_of_beq same]
      exact linked
    · exact sound.resolved other otherText kept
  · rw [run]
    exact ⟨sound, .refl pool⟩

end PoolM

namespace ConstantPool

/-- What can be asked for by value. -/
inductive Request
  | text (text : String)
  | classRef (name : String)
  | string (text : String)
  | nameAndType (name descriptor : String)
  | member (kind : MemberKind) (owner name descriptor : String)
  | integer (value : Int32)
  | float (bits : UInt32)
  | long (value : Int64)
  | double (bits : UInt64)
  deriving DecidableEq, Repr

/-- Ask for a constant, and for those to which it refers. -/
def Request.intern : Request → PoolM UInt16
  | .text content => PoolM.internText content
  | .classRef name => PoolM.internClass name
  | .string content => PoolM.internString content
  | .nameAndType name descriptor => PoolM.internNameAndType name descriptor
  | .member kind owner name descriptor => PoolM.internMember kind owner name descriptor
  | .integer value => PoolM.intern (.integer value)
  | .float bits => PoolM.intern (.float bits)
  | .long value => PoolM.intern (.long value)
  | .double bits => PoolM.intern (.double bits)

/-- What can be done with a pool. -/
inductive Call
  | append (constant : Constant)
  | request (request : Request)
  | resolve (index : UInt16)
  deriving DecidableEq, Repr

/-- Do something with a pool, whatever comes of it. -/
def Call.perform : Call → PoolM Unit
  | .append constant => do
      let _ ← PoolM.append constant
  | .request wanted => do
      let _ ← wanted.intern
  | .resolve index => PoolM.resolve index

/-- The pool after a call, also if the call fails. -/
def Call.after (call : Call) (pool : ConstantPool) : ConstantPool :=
  (call.perform.run pool).2

/-- The pools to which calls lead from the empty pool or from one that was read. -/
inductive Reachable : ConstantPool → Prop
  | empty : Reachable .empty
  | read {input rest : Bytes} {pool : ConstantPool}
      (found : ConstantPool.read input = .ok (pool, rest)) : Reachable pool
  | call {pool : ConstantPool} (before : Reachable pool) (call : Call) :
      Reachable (call.after pool)

theorem Request.keeps_intern (request : Request) : PoolM.Keeps request.intern := by
  have internText (text : String) : PoolM.Keeps (PoolM.internText text) :=
    PoolM.keeps_intern (.utf8 text)
  have internClass (name : String) : PoolM.Keeps (PoolM.internClass name) :=
    (internText name).bind fun link => PoolM.keeps_intern (.classRef link)
  have internNameAndType (name descriptor : String) :
      PoolM.Keeps (PoolM.internNameAndType name descriptor) :=
    (internText name).bind fun nameLink => (internText descriptor).bind fun descriptorLink =>
      PoolM.keeps_intern (.nameAndType nameLink descriptorLink)
  cases request with
  | text text => exact internText text
  | classRef name => exact internClass name
  | string text => exact (internText text).bind fun link => PoolM.keeps_intern (.string link)
  | nameAndType name descriptor => exact internNameAndType name descriptor
  | member kind owner name descriptor =>
      exact (internClass owner).bind fun ownerLink =>
        (internNameAndType name descriptor).bind fun signature =>
          PoolM.keeps_intern (.member kind ownerLink signature)
  | integer | float | long | double => exact PoolM.keeps_intern _

theorem Call.keeps_perform (call : Call) : PoolM.Keeps call.perform := by
  cases call with
  | append constant => exact (PoolM.keeps_append constant).bind fun _ => PoolM.keeps_pure ()
  | request request => exact request.keeps_intern.bind fun _ => PoolM.keeps_pure ()
  | resolve index => exact PoolM.keeps_resolve index

/-- Whatever was done with a pool, what it keeps agrees with its entries. -/
theorem Reachable.sound {pool : ConstantPool} (reachable : pool.Reachable) : pool.Sound := by
  induction reachable with
  | empty => exact .empty
  | read found => exact .of_read found
  | call before call ih => exact (call.keeps_perform _ ih).1

end ConstantPool

end HotSwap
