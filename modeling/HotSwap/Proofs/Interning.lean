import HotSwap.Proofs.Resolution

/-! # What is asked for once

A constant that was asked for by value has an index from then on. Asking again gives this index and
changes nothing, whatever was done with the pool in between, and asking for anything else gives
another index. All that is needed for this is that a pool never forgets an entry or an index. In a
pool whose entries were all asked for, no two entries are equal. -/

namespace HotSwap

theorem run_bind_eq_ok {σ α β : Type} {first : ExceptT FormatError (StateM σ) α}
    {second : α → ExceptT FormatError (StateM σ) β} {state last : σ} {value : β}
    (run : (first >>= second).run state = (.ok value, last)) :
    ∃ middle later, first.run state = (.ok middle, later) ∧
      (second middle).run later = (.ok value, last) := by
  rw [run_bind] at run
  split at run
  · next middle later found => exact ⟨middle, later, found, run⟩
  · cases run

namespace ConstantPool

variable {pool later last : ConstantPool} {index : UInt16}

/-- Whether a pool gives out all the indices that another one gives out again. -/
def Remembers (later pool : ConstantPool) : Prop :=
  ∀ (constant : Constant) (index : UInt16), pool.interned.lookup constant = some index →
    later.interned.lookup constant = some index

theorem Remembers.refl (pool : ConstantPool) : pool.Remembers pool := fun _ _ kept => kept

theorem Remembers.trans (second : last.Remembers later) (first : later.Remembers pool) :
    last.Remembers pool :=
  fun constant index kept => second constant index (first constant index kept)

/-- Whether no two entries are equal, and all of them were asked for. -/
structure Distinct (pool : ConstantPool) : Prop where
  nodup : (pool.entries.toList.map (·.2)).Nodup
  known : ∀ constant ∈ pool.entries.toList.map (·.2), (pool.interned.lookup constant).isSome

theorem Distinct.empty : ConstantPool.empty.Distinct :=
  ⟨.nil, List.forall_mem_nil _⟩

end ConstantPool

namespace PoolM

open ConstantPool

theorem remembers_intern (constant : Constant) (pool : ConstantPool) :
    ((intern constant).run pool).2.Remembers pool := by
  rw [intern_run]
  cases new : pool.interned.lookup constant with
  | some index => exact .refl pool
  | none =>
      dsimp only
      split
      · intro other index kept
        have different : (other == constant) = false := by
          rw [beq_eq_false_iff_ne]
          rintro rfl
          cases new.symm.trans kept
        rw [List.lookup_cons, different]
        exact kept
      · exact .refl pool

/-- Only a constant that was not asked for before gets a new entry. -/
theorem distinct_intern (constant : Constant) {pool : ConstantPool} (distinct : pool.Distinct) :
    ((intern constant).run pool).2.Distinct := by
  rw [intern_run]
  cases new : pool.interned.lookup constant with
  | some index => exact distinct
  | none =>
      dsimp only
      split
      · have absent : constant ∉ pool.entries.toList.map (·.2) := by
          intro mem
          have known := distinct.known constant mem
          rw [new] at known
          cases known
        constructor
        · rw [ConstantPool.push, SlotArray.toList_push, List.map_append, List.nodup_append]
          refine ⟨distinct.nodup, List.pairwise_singleton _ _, ?_⟩
          rintro other mem _ last rfl
          rw [List.mem_singleton.mp last] at mem
          exact absent mem
        · intro other mem
          rw [ConstantPool.push, SlotArray.toList_push, List.map_append, List.mem_append] at mem
          rw [List.lookup_cons]
          split
          · rfl
          · next different =>
            rcases mem with mem | mem
            · exact distinct.known other mem
            · rw [List.mem_singleton.mp mem, beq_self_eq_true] at different
              cases different
      · exact distinct

theorem entries_prefix_push (pool : ConstantPool) (constant : Constant) :
    pool.entries.toList <+: (pool.push constant).entries.toList :=
  ⟨_, (SlotArray.toList_push ..).symm⟩

theorem entries_prefix_intern (constant : Constant) (pool : ConstantPool) :
    pool.entries.toList <+: ((intern constant).run pool).2.entries.toList := by
  rw [intern_run]
  split
  · exact List.prefix_rfl
  · split
    · exact entries_prefix_push pool constant
    · exact List.prefix_rfl

/-- Computations that do nothing but ask for constants, one after the other. -/
inductive Interns : {α : Type} → PoolM α → Prop
  | intern (constant : Constant) : Interns (intern constant)
  | bind {α β : Type} {first : PoolM α} {second : α → PoolM β} (before : Interns first)
      (after : ∀ value, Interns (second value)) : Interns (first >>= second)

namespace Interns

variable {α : Type} {action : PoolM α} {pool later last : ConstantPool} {value : α}

/-- What holds from one pool to the next when a constant is asked for, and can be chained, holds for
the whole computation. -/
theorem related (interns : Interns action) (relation : ConstantPool → ConstantPool → Prop)
    (step : ∀ constant pool, relation pool ((PoolM.intern constant).run pool).2)
    (chain : ∀ {first second third}, relation first second → relation second third →
      relation first third) (pool : ConstantPool) : relation pool (action.run pool).2 := by
  induction interns generalizing pool with
  | intern constant => exact step constant pool
  | bind before after ihFirst ihSecond =>
      have first := ihFirst pool
      rw [run_bind]
      split
      · next middle later run =>
        rw [run] at first
        exact chain first (ihSecond middle later)
      · next cause later run =>
        rw [run] at first
        exact first

theorem remembers (interns : Interns action) (pool : ConstantPool) :
    (action.run pool).2.Remembers pool :=
  interns.related (fun pool later => later.Remembers pool) remembers_intern
    (fun first second => second.trans first) pool

theorem distinct (interns : Interns action) (distinct : pool.Distinct) :
    (action.run pool).2.Distinct :=
  interns.related (fun pool later => pool.Distinct → later.Distinct)
    (fun constant _ => distinct_intern constant) (fun first second => second ∘ first) pool distinct

theorem entries_prefix (interns : Interns action) (pool : ConstantPool) :
    pool.entries.toList <+: (action.run pool).2.entries.toList :=
  interns.related (fun pool later => pool.entries.toList <+: later.entries.toList)
    entries_prefix_intern List.IsPrefix.trans pool

/-- What was given once is given again by every pool that has not forgotten it, which stays as it
is. -/
theorem again (interns : Interns action) (given : action.run pool = (.ok value, last))
    (remembers : later.Remembers last) : action.run later = (.ok value, later) := by
  induction interns generalizing pool last with
  | intern constant =>
      have kept : last.interned.lookup constant = some value := by
        rw [intern_run] at given
        split at given
        · next found =>
          cases given
          exact found
        · split at given
          · cases given
            exact List.lookup_cons_self
          · cases given
      rw [intern_run, remembers constant value kept]
  | bind before after firstAgain secondAgain =>
      obtain ⟨middle, between, first, second⟩ := run_bind_eq_ok given
      -- the second part forgets nothing that the first one gave out, so both can be repeated
      have step := (after middle).remembers between
      rw [second] at step
      rw [run_bind, firstAgain first (remembers.trans step)]
      exact secondAgain middle second remembers

end Interns

/-- What is known of a computation that keeps pools sound, when its run is given. -/
theorem Keeps.of_run {α : Type} {action : PoolM α} {result : Except FormatError α}
    {pool last : ConstantPool} (keeps : Keeps action) (sound : pool.Sound)
    (run : action.run pool = (result, last)) : last.Sound ∧ last.Extends pool := by
  have kept := keeps pool sound
  rwa [run] at kept

theorem get?_of_run {pool last : ConstantPool} {constant : Constant} {index : UInt16}
    (sound : pool.Sound) (run : (intern constant).run pool = (.ok index, last)) :
    last.get? index = some constant := by
  have given : ((intern constant).run pool).1 = .ok index := by rw [run]
  have found := get?_of_intern sound given
  rwa [run] at found

end PoolM

namespace ConstantPool

variable {pool later last : ConstantPool} {index : UInt16}

/-- Whether the entry at an index is made by `make` and leads to a text. -/
def LinkAt (pool : ConstantPool) (make : UInt16 → Constant) (index : UInt16) (text : String) :
    Prop :=
  ∃ link, pool.get? index = some (make link) ∧ pool.get? link = some (.utf8 text)

/-- Whether the entry at an index leads to a name and a descriptor. -/
def SignatureAt (pool : ConstantPool) (index : UInt16) (name descriptor : String) : Prop :=
  ∃ nameLink descriptorLink, pool.get? index = some (.nameAndType nameLink descriptorLink) ∧
    pool.get? nameLink = some (.utf8 name) ∧ pool.get? descriptorLink = some (.utf8 descriptor)

namespace Request

/-- Whether the entry at an index, with the entries to which it leads, is what is asked for. -/
def StoredAt (pool : ConstantPool) (index : UInt16) : Request → Prop
  | text content => pool.get? index = some (.utf8 content)
  | classRef name => pool.LinkAt .classRef index name
  | string content => pool.LinkAt .string index content
  | nameAndType name descriptor => pool.SignatureAt index name descriptor
  | member kind owner name descriptor =>
      ∃ ownerLink signature, pool.get? index = some (.member kind ownerLink signature) ∧
        pool.LinkAt .classRef ownerLink owner ∧ pool.SignatureAt signature name descriptor
  | integer value => pool.get? index = some (.integer value)
  | float bits => pool.get? index = some (.float bits)
  | long value => pool.get? index = some (.long value)
  | double bits => pool.get? index = some (.double bits)

/-- Whether the look-ups at an index give what is asked for. -/
def FoundAt (pool : ConstantPool) (index : UInt16) : Request → Prop
  | text content => pool.text? index = some content
  | classRef name =>
      pool.className? index = some name ∧ pool.loadable? index = some (.classRef name)
  | string content =>
      pool.string? index = some content ∧ pool.loadable? index = some (.string content)
  | nameAndType name descriptor => pool.nameAndType? index = some (name, descriptor)
  | member _ owner name descriptor => pool.member? index = some ⟨owner, name, descriptor⟩
  | integer value => pool.loadable? index = some (.integer value)
  | float bits => pool.loadable? index = some (.float bits)
  | long value => pool.loadable? index = some (.long value)
  | double bits => pool.loadable? index = some (.double bits)

end Request

theorem Extends.linkAt (extends_ : later.Extends pool) {make : UInt16 → Constant} {text : String}
    (found : pool.LinkAt make index text) : later.LinkAt make index text := by
  obtain ⟨link, entry, linked⟩ := found
  exact ⟨link, extends_ _ _ entry, extends_ _ _ linked⟩

theorem Extends.signatureAt (extends_ : later.Extends pool) {name descriptor : String}
    (found : pool.SignatureAt index name descriptor) :
    later.SignatureAt index name descriptor := by
  obtain ⟨nameLink, descriptorLink, entry, first, second⟩ := found
  exact ⟨nameLink, descriptorLink, extends_ _ _ entry, extends_ _ _ first, extends_ _ _ second⟩

theorem Extends.storedAt (extends_ : later.Extends pool) {request : Request}
    (stored : request.StoredAt pool index) : request.StoredAt later index := by
  cases request with
  | classRef | string => exact extends_.linkAt stored
  | nameAndType => exact extends_.signatureAt stored
  | member kind owner name descriptor =>
      obtain ⟨ownerLink, signature, entry, first, second⟩ := stored
      exact ⟨ownerLink, signature, extends_ _ _ entry, extends_.linkAt first,
        extends_.signatureAt second⟩
  | text | integer | float | long | double => exact extends_ _ _ stored

namespace Sound

theorem className?_of_linkAt (sound : pool.Sound) {name : String}
    (found : pool.LinkAt .classRef index name) : pool.className? index = some name := by
  obtain ⟨link, entry, linked⟩ := found
  rw [sound.className?_eq, entry]
  exact text?_eq_some_iff.mpr linked

theorem string?_of_linkAt (sound : pool.Sound) {content : String}
    (found : pool.LinkAt .string index content) : pool.string? index = some content := by
  obtain ⟨link, entry, linked⟩ := found
  rw [sound.string?_eq, entry]
  exact text?_eq_some_iff.mpr linked

end Sound

theorem SignatureAt.nameAndType?_eq {name descriptor : String}
    (found : pool.SignatureAt index name descriptor) :
    pool.nameAndType? index = some (name, descriptor) := by
  obtain ⟨nameLink, descriptorLink, entry, first, second⟩ := found
  rw [← text?_eq_some_iff] at first second
  simp only [nameAndType?, entry, first, second]

/-- The look-ups give what is stored. -/
theorem Request.StoredAt.foundAt {request : Request} (stored : request.StoredAt pool index)
    (sound : pool.Sound) : request.FoundAt pool index := by
  cases request with
  | text content => exact text?_eq_some_iff.mpr stored
  | classRef name =>
      have found := sound.className?_of_linkAt stored
      obtain ⟨link, entry, -⟩ := stored
      exact ⟨found, by simp only [loadable?, entry, found, Option.map_some]⟩
  | string content =>
      have found := sound.string?_of_linkAt stored
      obtain ⟨link, entry, -⟩ := stored
      exact ⟨found, by simp only [loadable?, entry, found, Option.map_some]⟩
  | nameAndType name descriptor => exact SignatureAt.nameAndType?_eq stored
  | member kind owner name descriptor =>
      obtain ⟨ownerLink, signature, entry, first, second⟩ := stored
      simp only [FoundAt, member?, entry, sound.className?_of_linkAt first, second.nameAndType?_eq]
  | integer | float | long | double =>
      simp only [StoredAt] at stored
      simp only [FoundAt, loadable?, stored]

/-- The request that the entry at an index answers. -/
def request? (pool : ConstantPool) (index : UInt16) : Option Request :=
  match pool.get? index with
  | some (.utf8 content) => some (.text content)
  | some (.classRef _) => (pool.className? index).map .classRef
  | some (.string _) => (pool.string? index).map .string
  | some (.nameAndType _ _) => (pool.nameAndType? index).map fun (name, descriptor) =>
      .nameAndType name descriptor
  | some (.member kind _ _) => (pool.member? index).map fun symbol =>
      .member kind symbol.owner symbol.name symbol.descriptor
  | some (.integer value) => some (.integer value)
  | some (.float bits) => some (.float bits)
  | some (.long value) => some (.long value)
  | some (.double bits) => some (.double bits)
  | _ => none

namespace Request

variable {request other : Request}

theorem StoredAt.request?_eq (stored : request.StoredAt pool index) (sound : pool.Sound) :
    pool.request? index = some request := by
  have found := stored.foundAt sound
  cases request with
  | classRef | string =>
      obtain ⟨link, entry, -⟩ := stored
      simp only [request?, entry, found.1, Option.map_some]
  | nameAndType | member =>
      obtain ⟨first, second, entry, -⟩ := stored
      simp only [FoundAt] at found
      simp only [request?, entry, found, Option.map_some]
  | text | integer | float | long | double =>
      simp only [StoredAt] at stored
      simp only [request?, stored]

/-- An entry is what is asked for by one request only. -/
theorem StoredAt.unique (first : request.StoredAt pool index) (second : other.StoredAt pool index)
    (sound : pool.Sound) : other = request :=
  Option.some.inj ((second.request?_eq sound).symm.trans (first.request?_eq sound))

theorem interns (request : Request) : PoolM.Interns request.intern := by
  have internText (text : String) : PoolM.Interns (PoolM.internText text) := .intern _
  have internClass (name : String) : PoolM.Interns (PoolM.internClass name) :=
    (internText name).bind fun link => .intern _
  have internNameAndType (name descriptor : String) :
      PoolM.Interns (PoolM.internNameAndType name descriptor) :=
    (internText name).bind fun nameLink => (internText descriptor).bind fun descriptorLink =>
      .intern _
  cases request with
  | text text => exact internText text
  | classRef name => exact internClass name
  | string text => exact (internText text).bind fun link => .intern _
  | nameAndType name descriptor => exact internNameAndType name descriptor
  | member kind owner name descriptor =>
      exact (internClass owner).bind fun ownerLink =>
        (internNameAndType name descriptor).bind fun signature => .intern _
  | integer | float | long | double => exact .intern _

end Request

section Runs

open PoolM

theorem linkAt_of_run (sound : pool.Sound) {make : UInt16 → Constant} {text : String}
    (run : (internText text >>= fun link => intern (make link)).run pool = (.ok index, last)) :
    last.LinkAt make index text := by
  obtain ⟨link, middle, first, second⟩ := run_bind_eq_ok run
  obtain ⟨soundMiddle, -⟩ := (keeps_intern _).of_run sound first
  obtain ⟨-, extends_⟩ := (keeps_intern _).of_run soundMiddle second
  exact ⟨link, get?_of_run soundMiddle second, extends_ _ _ (get?_of_run sound first)⟩

theorem signatureAt_of_run (sound : pool.Sound) {name descriptor : String}
    (run : (internNameAndType name descriptor).run pool = (.ok index, last)) :
    last.SignatureAt index name descriptor := by
  obtain ⟨nameLink, first, firstRun, rest⟩ := run_bind_eq_ok run
  obtain ⟨descriptorLink, second, secondRun, lastRun⟩ := run_bind_eq_ok rest
  obtain ⟨soundFirst, -⟩ := (keeps_intern _).of_run sound firstRun
  obtain ⟨soundSecond, extendsFirst⟩ := (keeps_intern _).of_run soundFirst secondRun
  obtain ⟨-, extendsSecond⟩ := (keeps_intern _).of_run soundSecond lastRun
  exact ⟨nameLink, descriptorLink, get?_of_run soundSecond lastRun,
    extendsSecond _ _ (extendsFirst _ _ (get?_of_run sound firstRun)),
    extendsSecond _ _ (get?_of_run soundFirst secondRun)⟩

/-- What was asked for is stored at the index that was given out. -/
theorem Request.storedAt_of_run {request : Request} (sound : pool.Sound)
    (run : request.intern.run pool = (.ok index, last)) : request.StoredAt last index := by
  cases request with
  | text => exact get?_of_run sound run
  | classRef | string => exact linkAt_of_run sound run
  | nameAndType => exact signatureAt_of_run sound run
  | member kind owner name descriptor =>
      obtain ⟨ownerLink, first, firstRun, rest⟩ := run_bind_eq_ok run
      obtain ⟨signature, second, secondRun, lastRun⟩ := run_bind_eq_ok rest
      obtain ⟨soundFirst, -⟩ := (classRef owner).keeps_intern.of_run sound firstRun
      obtain ⟨soundSecond, extendsFirst⟩ :=
        (nameAndType name descriptor).keeps_intern.of_run soundFirst secondRun
      obtain ⟨-, extendsSecond⟩ := (PoolM.keeps_intern _).of_run soundSecond lastRun
      exact ⟨ownerLink, signature, get?_of_run soundSecond lastRun,
        (extendsSecond.trans extendsFirst).linkAt (linkAt_of_run sound firstRun),
        extendsSecond.signatureAt (signatureAt_of_run soundFirst secondRun)⟩
  | integer | float | long | double => exact get?_of_run sound run

end Runs

/-- Whether a pool can have come of a sound one by calls. -/
structure Continues (later pool : ConstantPool) : Prop where
  sound : later.Sound
  extends_ : later.Extends pool
  remembers : later.Remembers pool
  entries : pool.entries.toList <+: later.entries.toList

theorem Continues.refl (sound : pool.Sound) : pool.Continues pool :=
  ⟨sound, .refl pool, .refl pool, List.prefix_rfl⟩

theorem Continues.trans (second : last.Continues later) (first : later.Continues pool) :
    last.Continues pool :=
  ⟨second.sound, second.extends_.trans first.extends_, second.remembers.trans first.remembers,
    first.entries.trans second.entries⟩

theorem Continues.toList (continues_ : later.Continues pool) : pool.toList <+: later.toList :=
  continues_.entries.map _

namespace Call

/-- The pool after some calls, of which each may fail. -/
def afterAll (calls : List Call) (pool : ConstantPool) : ConstantPool :=
  calls.foldl (fun pool call => call.after pool) pool

theorem run_ignore {α : Type} (action : PoolM α) (pool : ConstantPool) :
    ((do let _ ← action : PoolM Unit).run pool).2 = (action.run pool).2 := by
  rw [run_bind]
  cases action.run pool with
  | mk result later => cases result <;> rfl

theorem after_append (constant : Constant) (pool : ConstantPool) :
    (append constant).after pool = ((PoolM.append constant).run pool).2 :=
  run_ignore _ pool

theorem after_request (wanted : Request) (pool : ConstantPool) :
    (request wanted).after pool = (wanted.intern.run pool).2 :=
  run_ignore _ pool

theorem continues_after (call : Call) (sound : pool.Sound) : (call.after pool).Continues pool := by
  obtain ⟨soundLater, extends_⟩ := call.keeps_perform pool sound
  refine ⟨soundLater, extends_, ?_, ?_⟩
  · cases call with
    | append constant =>
        rw [after_append, PoolM.append_run]
        split <;> exact .refl pool
    | request wanted =>
        rw [after_request]
        exact wanted.interns.remembers pool
    | resolve index =>
        rcases PoolM.resolve_run index pool with ⟨text, -, run⟩ | ⟨-, cause, run⟩ <;>
          rw [after, perform, run] <;> exact .refl pool
  · cases call with
    | append constant =>
        rw [after_append, PoolM.append_run]
        split
        · exact PoolM.entries_prefix_push pool constant
        · exact List.prefix_rfl
    | request wanted =>
        rw [after_request]
        exact wanted.interns.entries_prefix pool
    | resolve index =>
        have same : ((resolve index).after pool).entries = pool.entries :=
          entries_resolve pool index
        exact ⟨[], by rw [same, List.append_nil]⟩

theorem continues_afterAll (calls : List Call) (sound : pool.Sound) :
    (afterAll calls pool).Continues pool := by
  induction calls generalizing pool with
  | nil => exact .refl sound
  | cons call rest ih =>
      have step := call.continues_after sound
      exact (ih step.sound).trans step

/-- Only a constant that is added without asking can be there already. -/
theorem distinct_after {call : Call} (asks : ∀ constant, call ≠ .append constant)
    (distinct : pool.Distinct) : (call.after pool).Distinct := by
  cases call with
  | append constant => exact absurd rfl (asks constant)
  | request wanted =>
      rw [after_request]
      exact wanted.interns.distinct distinct
  | resolve index =>
      rcases PoolM.resolve_run index pool with ⟨text, -, run⟩ | ⟨-, cause, run⟩ <;>
        rw [after, perform, run] <;> exact ⟨distinct.nodup, distinct.known⟩

theorem distinct_afterAll {calls : List Call} (asks : ∀ constant, .append constant ∉ calls)
    (distinct : pool.Distinct) : (afterAll calls pool).Distinct := by
  induction calls generalizing pool with
  | nil => exact distinct
  | cons call rest ih =>
      simp only [List.mem_cons, not_or] at asks
      exact ih (fun constant => (asks constant).2)
        (distinct_after (fun constant same => (asks constant).1 same.symm) distinct)

end Call

/-- Nothing that is done with a pool moves an entry or changes it. An index that was given out is
that of what was asked for, which all look-ups find there. Whatever is done in between, asking again
gives the same index and leaves the pool as it is, and asking for anything else gives another index.
No two entries are equal if all of them were asked for. -/
theorem interning_lasts :
    (∀ pool : ConstantPool, pool.Reachable →
      (∀ calls : List Call,
        let later := Call.afterAll calls pool
        pool.toList <+: later.toList ∧ later.Extends pool) ∧
      ∀ (request : Request) (index : UInt16), (request.intern.run pool).1 = .ok index →
        ∀ calls : List Call,
          let later := Call.afterAll (.request request :: calls) pool
          request.StoredAt later index ∧ request.FoundAt later index ∧
            request.intern.run later = (.ok index, later) ∧
            ∀ (other : Request) (index' : UInt16), (other.intern.run later).1 = .ok index' →
              (index' = index ↔ other = request)) ∧
      ∀ calls : List Call, (∀ constant, .append constant ∉ calls) →
        ((Call.afterAll calls .empty).toList.map (·.2)).Nodup := by
  refine ⟨fun pool reachable => ⟨fun calls => ?_, fun request index given calls => ?_⟩,
    fun calls asks => ?_⟩
  · have continues_ := Call.continues_afterAll calls reachable.sound
    exact ⟨continues_.toList, continues_.extends_⟩
  · intro later
    have run : request.intern.run pool = (.ok index, (request.intern.run pool).2) :=
      Prod.ext given rfl
    have asked := (Call.request request).continues_after reachable.sound
    have continues_ : later.Continues ((Call.request request).after pool) :=
      Call.continues_afterAll calls asked.sound
    rw [Call.after_request] at continues_
    have stored := continues_.extends_.storedAt (Request.storedAt_of_run reachable.sound run)
    have again := request.interns.again run continues_.remembers
    refine ⟨stored, stored.foundAt continues_.sound, again, fun other index' givenOther => ?_⟩
    have runOther : other.intern.run later = (.ok index', (other.intern.run later).2) :=
      Prod.ext givenOther rfl
    constructor
    · rintro rfl
      -- the entry is still there after the other request, so it answers both
      obtain ⟨sound, extends_⟩ := other.keeps_intern.of_run continues_.sound runOther
      exact (extends_.storedAt stored).unique
        (Request.storedAt_of_run continues_.sound runOther) sound
    · rintro rfl
      rw [again] at givenOther
      cases givenOther
      rfl
  · have distinct := Call.distinct_afterAll asks .empty
    rw [ConstantPool.toList, List.map_map]
    exact distinct.nodup

/-- A method that is asked for after a text was added and a string was asked for, and again after a
second class entry was added, a number was asked for and the first class was resolved. A text that
was only added is not used. -/
theorem interning_lasts_of_method :
    let method : Request := .member .method "A" "m" "()V"
    let pool := Call.afterAll
      [.append (.utf8 "A"), .request (.string "A"), .resolve 9] .empty
    let later := Call.afterAll
      [.request method, .append (.classRef 1), .request (.double 0), .resolve 4] pool
    (method.intern.run pool).1 = .ok 8 ∧
      later.toList = [(1, .utf8 "A"), (2, .utf8 "A"), (3, .string 2), (4, .classRef 2),
        (5, .utf8 "m"), (6, .utf8 "()V"), (7, .nameAndType 5 6), (8, .member .method 4 7),
        (9, .classRef 1), (10, .double 0)] ∧
      method.StoredAt later 8 ∧ later.member? 8 = some ⟨"A", "m", "()V"⟩ ∧
      method.intern.run later = (.ok 8, later) ∧
      ((Call.afterAll [.request method, .request (.string "m"), .request method]
        .empty).toList.map (·.2)).Nodup := by
  intro method pool later
  have reachable : pool.Reachable := .call (.call (.call .empty _) _) _
  have given : (method.intern.run pool).1 = .ok 8 := by decide +kernel
  obtain ⟨stored, found, again, -⟩ := (interning_lasts.1 pool reachable).2 method 8 given
    [.append (.classRef 1), .request (.double 0), .resolve 4]
  exact ⟨given, by decide +kernel, stored, found, again, interning_lasts.2 _ (by simp)⟩

end ConstantPool

end HotSwap
