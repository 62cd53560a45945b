import HotSwap.ClassFile.Building
import HotSwap.Proofs.Building
import HotSwap.Proofs.Interning

/-! # Declaring a method

To declare a method is to ask for its texts one by one, and then to add the method. Each of the
first steps can fail, but these do nothing to a class other than calls on its pool. So an edit that
fails leaves all methods and all entries as they were, and only ever adds entries. -/

namespace HotSwap

open ConstantPool

theorem run_bind_of_ok {σ α β : Type} {first : ExceptT FormatError (StateM σ) α}
    {second : α → ExceptT FormatError (StateM σ) β} {state later : σ} {value : α}
    (run : first.run state = (.ok value, later)) :
    (first >>= second).run state = (second value).run later := by
  rw [run_bind, run]

theorem ConstantPool.Call.afterAll_append (first second : List Call) (pool : ConstantPool) :
    Call.afterAll (first ++ second) pool = Call.afterAll second (Call.afterAll first pool) :=
  List.foldl_append

namespace ClassM

variable {α β : Type} {file later : ClassFile} {flags : MethodFlags} {name descriptor text : String}
  {body : Option Body} {method : Method} {cause : FormatError}

/-- The class after some calls on its pool. -/
def afterCalls (calls : List Call) (file : ClassFile) : ClassFile :=
  { file with constants := Call.afterAll calls file.constants }

theorem afterCalls_append (first second : List Call) (file : ClassFile) :
    afterCalls (first ++ second) file = afterCalls second (afterCalls first file) := by
  rw [afterCalls, Call.afterAll_append]
  rfl

/-- Whether a computation does nothing to a class other than calls on its pool. -/
def OnlyCalls (action : ClassM α) : Prop :=
  ∀ file, ∃ calls, (action.run file).2 = afterCalls calls file

theorem onlyCalls_lift (result : Except FormatError α) :
    OnlyCalls (liftM result : ClassM α) := by
  intro file
  refine ⟨[], ?_⟩
  cases result <;> rfl

theorem onlyCalls_pure (value : α) : OnlyCalls (pure value : ClassM α) :=
  fun _ => ⟨[], rfl⟩

theorem OnlyCalls.bind {first : ClassM α} {second : α → ClassM β} (before : OnlyCalls first)
    (after : ∀ value, OnlyCalls (second value)) : OnlyCalls (first >>= second) := by
  intro file
  obtain ⟨calls, same⟩ := before file
  rw [run_bind]
  split
  · next value middle run =>
    obtain ⟨more, sameLater⟩ := after value middle
    refine ⟨calls ++ more, ?_⟩
    rw [run] at same
    rw [afterCalls_append, ← same]
    exact sameLater
  · next cause middle run =>
    rw [run] at same
    exact ⟨calls, same⟩

theorem onlyCalls_perform (call : Call) : OnlyCalls (onConstants call.perform) :=
  fun _ => ⟨[call], rfl⟩

theorem onlyCalls_internText (text : String) :
    OnlyCalls (onConstants (PoolM.internText text)) := by
  intro file
  refine ⟨[.request (.text text)], ?_⟩
  rw [afterCalls, Call.afterAll, List.foldl_cons, List.foldl_nil, Call.after_request]
  rfl

theorem onConstants_run (action : PoolM α) (file : ClassFile) :
    (onConstants action).run file = ((action.run file.constants).1,
      { file with constants := (action.run file.constants).2 }) := rfl

/-- The method that a declaration adds. -/
def draftMethod (flags : MethodFlags) (name descriptor : String) (body : Option Body) :
    ClassM Method := do
  let slots ← entrySlots flags descriptor
  let name ← onConstants (PoolM.internText name)
  let descriptor ← onConstants (PoolM.internText descriptor)
  match body with
  | none => return ⟨flags, name, descriptor, none, []⟩
  | some body =>
      let item ← onConstants (PoolM.internText CodeAttribute.attributeName)
      return ⟨flags, name, descriptor, some ⟨item, { body with entrySlots := slots }⟩, []⟩

theorem declareMethod_eq (flags : MethodFlags) (name descriptor : String) (body : Option Body) :
    declareMethod flags name descriptor body =
      draftMethod flags name descriptor body >>= fun method =>
        modify fun file => { file with methods := file.methods ++ [method] } := by
  cases body <;> simp only [declareMethod, draftMethod, bind_assoc, pure_bind]

theorem onlyCalls_draftMethod (flags : MethodFlags) (name descriptor : String)
    (body : Option Body) : OnlyCalls (draftMethod flags name descriptor body) := by
  refine (onlyCalls_lift _).bind fun slots => (onlyCalls_internText name).bind fun nameIndex =>
    (onlyCalls_internText descriptor).bind fun descriptorIndex => ?_
  cases body with
  | none => exact onlyCalls_pure _
  | some body => exact (onlyCalls_internText _).bind fun item => onlyCalls_pure _

/-- A declaration adds the drafted method, or fails with the draft. -/
theorem declareMethod_run (file : ClassFile) (flags : MethodFlags) (name descriptor : String)
    (body : Option Body) :
    (declareMethod flags name descriptor body).run file =
      match (draftMethod flags name descriptor body).run file with
      | (.ok method, later) => (.ok (), { later with methods := later.methods ++ [method] })
      | (.error cause, later) => (.error cause, later) := by
  rw [declareMethod_eq, run_bind]
  generalize (draftMethod flags name descriptor body).run file = left
  obtain ⟨result, later⟩ := left
  cases result <;> rfl

/-- What was added when a declaration succeeded. -/
theorem exists_of_declareMethod
    (run : (declareMethod flags name descriptor body).run file = (.ok (), later)) :
    ∃ method drafted, (draftMethod flags name descriptor body).run file = (.ok method, drafted) ∧
      later = { drafted with methods := file.methods ++ [method] } := by
  obtain ⟨calls, same⟩ := onlyCalls_draftMethod flags name descriptor body file
  rw [declareMethod_run] at run
  split at run
  · next method drafted found =>
    rw [found] at same
    have kept : drafted = afterCalls calls file := same
    have methods : drafted.methods = file.methods := by
      rw [kept]
      rfl
    cases run
    exact ⟨method, drafted, found, by rw [methods]⟩
  · cases run

theorem of_lift {result : Except FormatError α} {value : α}
    (run : (liftM result : ClassM α).run file = (.ok value, later)) :
    result = .ok value ∧ later = file := by
  cases result with
  | error cause => cases run
  | ok found =>
      cases run
      exact ⟨rfl, rfl⟩

theorem draftMethod_of_error (failed : entrySlots flags descriptor = .error cause) :
    (draftMethod flags name descriptor body).run file = (.error cause, file) := by
  rw [draftMethod, failed]
  rfl

/-- Where a text is that was asked for. -/
theorem of_internText (sound : file.constants.Sound) {index : UInt16}
    (run : (onConstants (PoolM.internText text)).run file = (.ok index, later)) :
    later.constants.Sound ∧ later.constants.Extends file.constants ∧
      later.constants.text? index = some text := by
  rw [onConstants_run, Prod.mk.injEq] at run
  obtain ⟨given, rfl⟩ := run
  obtain ⟨soundLater, extends_⟩ := PoolM.keeps_intern (.utf8 text) file.constants sound
  exact ⟨soundLater, extends_, text?_eq_some_iff.mpr (PoolM.get?_of_intern sound given)⟩

/-- The body of a drafted method has the slots that its flags and its descriptor call for. -/
theorem slots_of_draftMethod
    (run : (draftMethod flags name descriptor body).run file = (.ok method, later)) :
    ∃ slots, entrySlots flags descriptor = .ok slots ∧
      method.body? = body.map fun body => { body with entrySlots := slots } := by
  obtain ⟨slots, _, slotsRun, afterSlots⟩ := run_bind_eq_ok run
  obtain ⟨counted, rfl⟩ := of_lift slotsRun
  refine ⟨slots, counted, ?_⟩
  obtain ⟨nameIndex, _, -, run⟩ := run_bind_eq_ok afterSlots
  obtain ⟨descriptorIndex, _, -, run⟩ := run_bind_eq_ok run
  cases body with
  | none =>
      cases run
      rfl
  | some body =>
      obtain ⟨item, _, -, run⟩ := run_bind_eq_ok run
      cases run
      rfl

/-- A drafted method is found under the name and the descriptor that were asked for. -/
theorem texts_of_draftMethod (sound : file.constants.Sound)
    (run : (draftMethod flags name descriptor body).run file = (.ok method, later)) :
    later.methodName? method = some name ∧ later.methodDescriptor? method = some descriptor := by
  obtain ⟨slots, _, slotsRun, afterSlots⟩ := run_bind_eq_ok run
  obtain ⟨-, rfl⟩ := of_lift slotsRun
  obtain ⟨nameIndex, named, nameRun, run⟩ := run_bind_eq_ok afterSlots
  obtain ⟨descriptorIndex, described, descriptorRun, run⟩ := run_bind_eq_ok run
  obtain ⟨soundNamed, -, nameText⟩ := of_internText sound nameRun
  obtain ⟨soundDescribed, extendsNamed, descriptorText⟩ := of_internText soundNamed descriptorRun
  have nameText := extendsNamed.text? nameText
  cases body with
  | none =>
      cases run
      exact ⟨nameText, descriptorText⟩
  | some body =>
      obtain ⟨item, coded, itemRun, run⟩ := run_bind_eq_ok run
      obtain ⟨-, extendsDescribed, -⟩ := of_internText soundDescribed itemRun
      cases run
      exact ⟨extendsDescribed.text? nameText, extendsDescribed.text? descriptorText⟩

/-! ## When a declaration succeeds -/

/-- A text is given an index if there is an index left. -/
theorem exists_internText (file : ClassFile) (text : String) (room : file.constants.next < 65535) :
    ∃ index later, (onConstants (PoolM.internText text)).run file = (.ok index, later) ∧
      later.constants.next ≤ file.constants.next + 1 := by
  have hasRoom : file.constants.HasRoom (.utf8 text) := room
  rw [onConstants_run, PoolM.internText, PoolM.intern_run]
  cases file.constants.interned.lookup (.utf8 text) with
  | some index => exact ⟨index, _, rfl, Nat.le_succ _⟩
  | none =>
      dsimp only
      rw [if_pos hasRoom]
      exact ⟨_, _, rfl, Nat.le_refl _⟩

theorem exists_draftMethod {slots : UInt16} (counted : entrySlots flags descriptor = .ok slots)
    (room : file.constants.next + 3 ≤ 65535) (name : String) (body : Option Body) :
    ∃ method later, (draftMethod flags name descriptor body).run file = (.ok method, later) := by
  obtain ⟨nameIndex, named, nameRun, namedNext⟩ :=
    exists_internText file name (by omega)
  obtain ⟨descriptorIndex, described, descriptorRun, describedNext⟩ :=
    exists_internText named descriptor (by omega)
  have slotsRun : (liftM (entrySlots flags descriptor) : ClassM UInt16).run file =
      (.ok slots, file) := by
    rw [counted]
    rfl
  rw [draftMethod, run_bind_of_ok slotsRun, run_bind_of_ok nameRun, run_bind_of_ok descriptorRun]
  cases body with
  | none => exact ⟨_, _, rfl⟩
  | some body =>
      obtain ⟨item, coded, itemRun, -⟩ :=
        exists_internText described CodeAttribute.attributeName (by omega)
      dsimp only
      rw [run_bind_of_ok itemRun]
      exact ⟨_, _, rfl⟩

end ClassM

end HotSwap
