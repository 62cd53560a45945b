import HotSwap.Proofs.Declaring
import HotSwap.Proofs.PoolReading
import HotSwap.Proofs.SlotLayout

/-! # How much a constant pool can hold

The entries of a pool take up the indices from one on without gaps, and there is room for an entry
as long as the count, which is one more than the last index, fits into two bytes. So neither an
index nor the count is ever cut down. Without room nothing is added. A request for several entries,
or the declaration of a method, can run out of room on the way; what was added until then stays, and
does no harm to anything that is done later. -/

namespace HotSwap

namespace ConstantPool

variable {pool later : ConstantPool} {constant : Constant} {index : UInt16}

theorem slots_eq_ofList (constants : List Constant) :
    slots constants = .ofList 1 (constants.map fun constant => (constant.width, constant)) := by
  rw [SlotArray.ofList, List.foldl_map]
  rfl

/-- Whether indices and count of a pool are as they are written. -/
structure Addressable (pool : ConstantPool) : Prop where
  next_eq : pool.next = 1 + (pool.entries.toList.map fun entry => entry.2.width).sum
  next_le : pool.next ≤ 65535
  count : Bytes.toNat (pool.encode.take 2) = pool.next
  inside : ∀ entry ∈ pool.entries.toList, 1 ≤ entry.1 ∧ entry.1 + entry.2.width ≤ pool.next
  index : ∀ entry ∈ pool.entries.toList, (UInt16.ofNat entry.1).toNat = entry.1

/-- Whether what is added to a pool is found where it is said to be, and is not added again. -/
structure Lawful (pool : ConstantPool) : Prop where
  append : ∀ (constant : Constant) (index : UInt16) (later : ConstantPool),
    (PoolM.append constant).run pool = (.ok index, later) → later.get? index = some constant
  intern : ∀ (request : Request) (index : UInt16) (later : ConstantPool),
    request.intern.run pool = (.ok index, later) →
      request.StoredAt later index ∧ request.FoundAt later index ∧
        request.intern.run later = (.ok index, later)

namespace Sound

theorem next_eq (sound : pool.Sound) :
    pool.next = 1 + (pool.entries.toList.map fun entry => entry.2.width).sum := by
  obtain ⟨constants, eq⟩ := sound.entries
  have taken : SlotArray.totalWidth (constants.map fun constant => (constant.width, constant)) =
      (constants.map Constant.width).sum := by
    rw [SlotArray.totalWidth, List.map_map]
    rfl
  have widths : pool.entries.toList.map (fun entry => entry.2.width) =
      constants.map Constant.width := by
    rw [eq, ← map_snd_slots constants, List.map_map, map_snd_slots]
    rfl
  rw [widths, next, eq, slots_eq_ofList, SlotArray.next_ofList, taken]

theorem inside (sound : pool.Sound) {entry : Nat × Constant}
    (mem : entry ∈ pool.entries.toList) :
    1 ≤ entry.1 ∧ entry.1 + entry.2.width ≤ pool.next := by
  obtain ⟨constants, eq⟩ := sound.entries
  obtain ⟨position, found⟩ := List.getElem?_of_mem mem
  rw [eq, slots_eq_ofList, SlotArray.getElem?_toList_ofList, Option.map_eq_some_iff] at found
  obtain ⟨item, given, rfl⟩ := found
  have before := SlotArray.totalWidth_take_add_le given
  have width : item.1 = item.2.width := by
    obtain ⟨constant, -, rfl⟩ := List.mem_map.mp (List.mem_of_getElem? given)
    rfl
  rw [next, eq, slots_eq_ofList, SlotArray.next_ofList]
  dsimp only
  omega

theorem addressable (sound : pool.Sound) : pool.Addressable := by
  refine ⟨sound.next_eq, sound.next_le, ?_, fun entry => sound.inside, ?_⟩
  · rw [encode, List.take_left' (Bytes.length_ofNat ..), Bytes.toNat_ofNat]
    exact Nat.mod_eq_of_lt (Nat.lt_succ_of_le sound.next_le)
  · intro entry mem
    have inside := sound.inside mem
    have count := sound.next_le
    exact UInt16.toNat_ofNat_of_lt' (Nat.lt_succ_of_le (by omega))

/-- An index under which there is an entry is below the count. -/
theorem lt_next (sound : pool.Sound) (found : pool.get? index = some constant) :
    index.toNat < pool.next :=
  sound.spaced.below _ ((SlotArray.get?_eq_some_iff sound.spaced).mp found)

theorem lawful (sound : pool.Sound) : pool.Lawful := by
  constructor
  · intro constant index later run
    rw [PoolM.append_run] at run
    split at run
    · cases run
      exact sound.get?_push_next constant
    · cases run
  · intro request index later run
    obtain ⟨soundLater, -⟩ := request.keeps_intern.of_run sound run
    have stored := Request.storedAt_of_run sound run
    exact ⟨stored, stored.foundAt soundLater, request.interns.again run (.refl later)⟩

end Sound

theorem Request.StoredAt.exists_get?_eq {request : Request} (stored : request.StoredAt pool index) :
    ∃ constant, pool.get? index = some constant := by
  cases request with
  | classRef | string =>
      obtain ⟨link, entry, -⟩ := stored
      exact ⟨_, entry⟩
  | nameAndType | member =>
      obtain ⟨first, second, entry, -⟩ := stored
      exact ⟨_, entry⟩
  | text | integer | float | long | double => exact ⟨_, stored⟩

theorem Reachable.afterAll (reachable : pool.Reachable) (calls : List Call) :
    (Call.afterAll calls pool).Reachable := by
  induction calls generalizing pool with
  | nil => exact reachable
  | cons call rest ih => exact ih (.call reachable call)

end ConstantPool

namespace PoolM

variable {pool later : ConstantPool} {constant : Constant} {index : UInt16} {cause : FormatError}

theorem append_eq_ok_iff :
    (append constant).run pool = (.ok index, later) ↔
      pool.HasRoom constant ∧ index = UInt16.ofNat pool.next ∧ later = pool.push constant := by
  rw [append_run]
  split
  · next room =>
    constructor
    · rintro ⟨⟩
      exact ⟨room, rfl, rfl⟩
    · rintro ⟨-, rfl, rfl⟩
      rfl
  · next full =>
    constructor
    · rintro ⟨⟩
    · exact fun both => absurd both.1 full

theorem append_eq_error_iff :
    (append constant).run pool = (.error cause, later) ↔
      ¬pool.HasRoom constant ∧ cause = .poolFull pool.next ∧ later = pool := by
  rw [append_run]
  split
  · next room =>
    constructor
    · rintro ⟨⟩
    · exact fun both => absurd room both.1
  · next full =>
    constructor
    · rintro ⟨⟩
      exact ⟨full, rfl, rfl⟩
    · rintro ⟨-, rfl, rfl⟩
      rfl

/-- Asking for constants fails only for want of room, and where there is none. -/
theorem Interns.cause_eq {α : Type} {action : PoolM α} (interns : Interns action)
    (run : action.run pool = (.error cause, later)) : cause = .poolFull later.next := by
  induction interns generalizing pool with
  | intern constant =>
      rw [intern_run] at run
      split at run
      · cases run
      · split at run
        · cases run
        · cases run
          rfl
  | bind before after ihFirst ihSecond =>
      rw [run_bind] at run
      split at run
      · next middle between first => exact ihSecond middle run
      · next earlier between first =>
        cases run
        exact ihFirst first

end PoolM

/-- An edit that fails has done nothing but calls on the pool. -/
theorem ClassFile.Edit.exists_calls_of_error {edit : Edit} {file later : ClassFile}
    {cause : FormatError} (run : edit.perform.run file = (.error cause, later)) :
    ∃ calls, later = ClassM.afterCalls calls file := by
  cases edit with
  | declareMethod flags name descriptor body =>
      obtain ⟨calls, same⟩ := ClassM.onlyCalls_draftMethod flags name descriptor body file
      rw [perform, ClassM.declareMethod_run] at run
      split at run
      · cases run
      · next found =>
        rw [found] at same
        cases run
        exact ⟨calls, same⟩
  | onConstants call =>
      obtain ⟨calls, same⟩ := ClassM.onlyCalls_perform call file
      exact ⟨calls, (congrArg Prod.snd run).symm.trans same⟩
  | addInterface | addField | addAttribute | addMethodAttribute => cases run

namespace ConstantPool

/-- A method that was declared is found under its name and its descriptor. -/
theorem exists_method_of_declareMethod (file : ClassFile) (sound : file.constants.Sound)
    {flags : MethodFlags} {name descriptor : String} {body : Option Body} {last : ClassFile}
    (run : (ClassM.declareMethod flags name descriptor body).run file = (.ok (), last)) :
    ∃ method, last.methods = file.methods ++ [method] ∧ last.methodName? method = some name ∧
      last.methodDescriptor? method = some descriptor := by
  obtain ⟨method, drafted, draftRun, rfl⟩ := ClassM.exists_of_declareMethod run
  obtain ⟨named, described⟩ := ClassM.texts_of_draftMethod sound draftRun
  exact ⟨method, rfl, named, described⟩

/-! ## The last index -/

section LastIndex

variable {pool : ConstantPool} {constant : Constant}

/-- Numbers that are added one after another take one index each. -/
theorem afterAll_replicate {count : Nat} (room : count ≤ 65534) (constant : Constant)
    (width : constant.width = 1) :
    let pool := Call.afterAll (List.replicate count (.append constant)) .empty
    pool.next = count + 1 ∧ pool.interned = [] := by
  induction count with
  | zero => exact ⟨rfl, rfl⟩
  | succ count ih =>
      obtain ⟨next_eq, interned⟩ := ih (Nat.le_of_succ_le room)
      have hasRoom : (Call.afterAll (List.replicate count (.append constant)) .empty).HasRoom
          constant := by
        rw [HasRoom, next_eq, width]
        omega
      have step (pool : ConstantPool) (room : pool.HasRoom constant) :
          Call.afterAll [.append constant] pool = pool.push constant := by
        rw [Call.afterAll, List.foldl_cons, List.foldl_nil, Call.after_append, PoolM.append_run,
          if_pos room]
      rw [List.replicate_succ', Call.afterAll_append, step _ hasRoom]
      refine ⟨?_, interned⟩
      show ConstantPool.next _ + constant.width = _
      rw [next_eq, width]

/-- The pool after a text has taken the last index. -/
def lastText (pool : ConstantPool) (text : String) : ConstantPool :=
  { pool.push (.utf8 text) with interned := [(.utf8 text, 65534)] }

theorem run_internText_of_one_left (next_eq : pool.next = 65534) (interned : pool.interned = [])
    (text : String) :
    (PoolM.internText text).run pool = (.ok 65534, pool.lastText text) := by
  have room : pool.HasRoom (.utf8 text) := by
    rw [HasRoom, next_eq]
    exact Nat.le_refl _
  rw [PoolM.internText, PoolM.intern_run, interned, List.lookup_nil]
  dsimp only
  rw [if_pos room, next_eq]
  rfl

/-- After the last index was given out, no other entry is added. -/
theorem run_intern_of_lastText (next_eq : pool.next = 65534) {text : String}
    (different : constant ≠ .utf8 text) :
    (PoolM.intern constant).run (pool.lastText text) =
      (.error (.poolFull 65535), pool.lastText text) := by
  have last : (pool.lastText text).next = 65535 := by
    show pool.next + 1 = 65535
    rw [next_eq]
  have new : (pool.lastText text).interned.lookup constant = none := by
    rw [lastText, List.lookup_cons, beq_eq_false_iff_ne.mpr different]
    rfl
  have positive := constant.width_pos
  have full : ¬(pool.lastText text).HasRoom constant := by
    rw [HasRoom, last]
    omega
  rw [PoolM.intern_run, new]
  dsimp only
  rw [if_neg full, last]

/-- The name of a class takes the last index, and none is left for the class. -/
theorem run_classRef_of_one_left (next_eq : pool.next = 65534) (interned : pool.interned = [])
    (name : String) :
    (Request.classRef name).intern.run pool =
      (.error (.poolFull 65535), pool.lastText name) := by
  rw [Request.intern, PoolM.internClass,
    run_bind_of_ok (run_internText_of_one_left next_eq interned name)]
  exact run_intern_of_lastText next_eq nofun

/-- The name of a method takes the last index, and none is left for the descriptor. -/
theorem run_declareMethod_of_one_left (file : ClassFile) {flags : MethodFlags}
    {name descriptor : String} {slots : UInt16} (next_eq : file.constants.next = 65534)
    (interned : file.constants.interned = []) (counted : entrySlots flags descriptor = .ok slots)
    (different : descriptor ≠ name) (body : Option Body) :
    (ClassM.declareMethod flags name descriptor body).run file =
      (.error (.poolFull 65535), { file with constants := file.constants.lastText name }) := by
  have slotsRun : (liftM (entrySlots flags descriptor) : ClassM UInt16).run file =
      (.ok slots, file) := by
    rw [counted]
    rfl
  have nameRun : (ClassM.onConstants (PoolM.internText name)).run file =
      (.ok 65534, { file with constants := file.constants.lastText name }) := by
    rw [ClassM.onConstants_run, run_internText_of_one_left next_eq interned]
  have descriptorRun : (PoolM.internText descriptor).run (file.constants.lastText name) =
      (.error (.poolFull 65535), file.constants.lastText name) :=
    run_intern_of_lastText next_eq (by simpa using different)
  rw [ClassM.declareMethod, run_bind_of_ok slotsRun, run_bind_of_ok nameRun, run_bind,
    ClassM.onConstants_run, descriptorRun]

end LastIndex

/-! ## What a pool can hold -/

/-- The indices of a pool are those below its count, which is one more than the widths of its
entries together and fits into two bytes. A constant is added, behind all others, if and only if its
indices stay below this bound, and otherwise the pool stays as it is. When a request or an edit of a
class fails, all entries, and in a class all methods, are where they were, and what is added later
is found. -/
theorem capacity_kept :
    (∀ pool : ConstantPool, pool.Reachable →
      pool.Addressable ∧
      (∀ constant : Constant,
        ((∃ index later, (PoolM.append constant).run pool = (.ok index, later)) ↔
          pool.next + constant.width ≤ 65535) ∧
        (∀ (index : UInt16) (later : ConstantPool),
          (PoolM.append constant).run pool = (.ok index, later) →
            index.toNat = pool.next ∧ later.next = pool.next + constant.width ∧
              later.toList = pool.toList ++ [(index, constant)]) ∧
        ∀ (cause : FormatError) (later : ConstantPool),
          (PoolM.append constant).run pool = (.error cause, later) →
            cause = .poolFull pool.next ∧ later = pool) ∧
      ∀ (request : Request) (later : ConstantPool),
        (∀ index : UInt16, request.intern.run pool = (.ok index, later) →
          index.toNat < later.next) ∧
        ∀ cause : FormatError, request.intern.run pool = (.error cause, later) →
          cause = .poolFull later.next ∧ pool.toList <+: later.toList ∧ later.Extends pool ∧
            ∀ calls : List Call, (Call.afterAll calls later).Lawful) ∧
    ∀ file : ClassFile, file.constants.Reachable →
      ∀ (edit : ClassFile.Edit) (cause : FormatError) (later : ClassFile),
        edit.perform.run file = (.error cause, later) →
          later = { file with constants := later.constants } ∧ later.methods = file.methods ∧
            file.constants.toList <+: later.constants.toList ∧
            later.constants.Extends file.constants ∧ later.constants.Reachable ∧
            (∀ calls : List Call, (Call.afterAll calls later.constants).Lawful) ∧
            ∀ (flags : MethodFlags) (name descriptor : String) (body : Option Body)
              (last : ClassFile),
              (ClassM.declareMethod flags name descriptor body).run later = (.ok (), last) →
                ∃ method, last.methods = file.methods ++ [method] ∧
                  last.methodName? method = some name ∧
                  last.methodDescriptor? method = some descriptor := by
  refine ⟨fun pool reachable => ?_, fun file reachable edit cause later run => ?_⟩
  · have sound := reachable.sound
    refine ⟨sound.addressable, fun constant => ⟨?_, ?_, ?_⟩, fun request later => ⟨?_, ?_⟩⟩
    · simp only [PoolM.append_eq_ok_iff, exists_and_left, exists_eq, and_true]
      exact Iff.rfl
    · intro index later run
      obtain ⟨room, rfl, rfl⟩ := PoolM.append_eq_ok_iff.mp run
      refine ⟨sound.toNat_next, rfl, ?_⟩
      rw [toList, push, SlotArray.toList_push, List.map_append]
      rfl
    · intro cause later run
      exact (PoolM.append_eq_error_iff.mp run).2
    · intro index run
      obtain ⟨soundLater, -⟩ := request.keeps_intern.of_run sound run
      obtain ⟨constant, found⟩ := (Request.storedAt_of_run sound run).exists_get?_eq
      exact soundLater.lt_next found
    · intro cause run
      have continues_ := (Call.request request).continues_after sound
      rw [Call.after_request, run] at continues_
      exact ⟨request.interns.cause_eq run, continues_.toList, continues_.extends_, fun calls =>
        (Call.continues_afterAll calls continues_.sound).sound.lawful⟩
  · obtain ⟨calls, rfl⟩ := ClassFile.Edit.exists_calls_of_error run
    have continues_ := Call.continues_afterAll calls reachable.sound
    exact ⟨rfl, rfl, continues_.toList, continues_.extends_, reachable.afterAll calls,
      fun more => (Call.continues_afterAll more continues_.sound).sound.lawful,
      fun _ _ _ _ _ declared =>
        exists_method_of_declareMethod (ClassM.afterCalls calls file) continues_.sound declared⟩

/-- A pool with one index left has room for a number of four bytes, but not of eight bytes. A class
name can be added to it, but not the class, and a method cannot be declared. -/
theorem capacity_kept_of_one_left :
    ∃ pool : ConstantPool, pool.Reachable ∧ pool.next = 65534 ∧
      (PoolM.append (.long 5)).run pool = (.error (.poolFull 65534), pool) ∧
      (∃ later, (PoolM.append (.integer 5)).run pool = (.ok 65534, later) ∧
        later.next = 65535) ∧
      (∃ later, (Request.classRef "A").intern.run pool = (.error (.poolFull 65535), later) ∧
        pool.toList <+: later.toList ∧ later.text? 65534 = some "A" ∧
        (Call.afterAll [.resolve 65534] later).Lawful) ∧
      ∃ later,
        (ClassM.declareMethod (.ofBits 9) "f" "()V" none).run
            ⟨0, 52, pool, .publicSuper, 0, 0, [], [], [], []⟩ =
          (.error (.poolFull 65535), later) ∧ later.methods = [] ∧ later.constants.Lawful := by
  obtain ⟨pool, reachable, next_eq, interned⟩ :
      ∃ pool : ConstantPool, pool.Reachable ∧ pool.next = 65534 ∧ pool.interned = [] :=
    ⟨_, .afterAll .empty _, afterAll_replicate (by decide : 65533 ≤ 65534) (.integer 0) rfl⟩
  obtain ⟨atPool, atFile⟩ := capacity_kept
  obtain ⟨-, append, request⟩ := atPool pool reachable
  have longRun : (PoolM.append (.long 5)).run pool = (.error (.poolFull 65534), pool) := by
    rw [PoolM.append_eq_error_iff, ConstantPool.HasRoom, next_eq]
    exact ⟨by decide, rfl, rfl⟩
  have intRoom : pool.next + (Constant.integer 5).width ≤ 65535 := by
    rw [next_eq]
    decide
  obtain ⟨index, afterInt, intRun⟩ := (append (.integer 5)).1.mpr intRoom
  obtain ⟨index_eq, afterInt_eq, -⟩ := (append (.integer 5)).2.1 index afterInt intRun
  rw [next_eq] at index_eq afterInt_eq
  obtain rfl : index = 65534 := UInt16.toNat_inj.mp index_eq
  have classRun := run_classRef_of_one_left next_eq interned "A"
  obtain ⟨-, kept, -, lawful⟩ := (request (.classRef "A") _).2 _ classRun
  have counted : entrySlots (.ofBits 9) "()V" = .ok 0 := by decide +kernel
  let file : ClassFile := ⟨0, 52, pool, .publicSuper, 0, 0, [], [], [], []⟩
  have methodRun := run_declareMethod_of_one_left file next_eq interned counted
    (by decide : "()V" ≠ "f") none
  obtain ⟨-, methods, -, -, -, lawfulFile, -⟩ :=
    atFile file reachable (.declareMethod (.ofBits 9) "f" "()V" none) _ _ methodRun
  refine ⟨pool, reachable, next_eq, longRun, ⟨afterInt, intRun, afterInt_eq⟩,
    ⟨_, classRun, kept, ?_, lawful [.resolve 65534]⟩, ⟨_, methodRun, methods, lawfulFile []⟩⟩
  rw [text?_eq_some_iff]
  have found := reachable.sound.get?_push_next (.utf8 "A")
  rwa [next_eq] at found

end ConstantPool

end HotSwap
