import HotSwap.ClassFile.Building
import HotSwap.Proofs.ClassReading

/-! # Classes that were built

What is not written of a method is set when it is declared, and the pool has the texts by
which it is found again. Whatever is added to a class later, these texts stay where they are.
So a class that was built is read as it was written, if its parts can be written at all. -/

namespace HotSwap

variable {file later : ClassFile} {constants laterConstants : ConstantPool}

theorem Method.Consistent.of_extends {method : Method} (consistent : method.Consistent constants)
    (extends_ : laterConstants.Extends constants) : method.Consistent laterConstants := by
  obtain ⟨⟨descriptor, slots, text, rest⟩, codeName⟩ := consistent
  exact ⟨⟨descriptor, slots, extends_.text? text, rest⟩,
    fun code found => extends_.text? (codeName code found)⟩

/-- Adding to the pool of a class keeps the class consistent. -/
theorem ClassFile.Consistent.of_extends (consistent : file.Consistent) (sound : constants.Sound)
    (extends_ : constants.Extends file.constants) : { file with constants }.Consistent :=
  ⟨sound, fun method mem => (consistent.methods method mem).of_extends extends_⟩

theorem ClassFile.Consistent.append {method : Method} (consistent : file.Consistent)
    (added : method.Consistent file.constants) :
    { file with methods := file.methods ++ [method] }.Consistent :=
  ⟨consistent.constants, List.forall_mem_append.mpr
    ⟨consistent.methods, List.forall_mem_singleton.mpr added⟩⟩

namespace ClassM

variable {α β : Type}

/-- Whether a computation on a class leads to a value and a class for which `good` holds, unless it
fails and leaves a consistent class. -/
def Leads (action : ClassM α) (file : ClassFile) (good : α → ClassFile → Prop) : Prop :=
  match action.run file with
  | (.ok value, later) => good value later
  | (.error _, later) => later.Consistent

theorem Leads.bind {first : ClassM α} {second : α → ClassM β} {middle : α → ClassFile → Prop}
    {good : β → ClassFile → Prop} (before : Leads first file middle)
    (after : ∀ value later, middle value later → Leads (second value) later good) :
    Leads (first >>= second) file good := by
  unfold Leads at before ⊢
  rw [run_bind]
  generalize first.run file = left at before
  obtain ⟨result, later⟩ := left
  cases result with
  | error cause => exact before
  | ok value => exact after value later before

theorem Leads.imp {action : ClassM α} {good better : α → ClassFile → Prop}
    (leads : Leads action file good)
    (implies : ∀ value later, good value later → better value later) :
    Leads action file better := by
  unfold Leads at leads ⊢
  generalize action.run file = left at leads
  obtain ⟨result, later⟩ := left
  cases result with
  | error cause => exact leads
  | ok value => exact implies value later leads

/-- What is consistent after success is consistent in any case. -/
theorem Leads.consistent {action : ClassM α}
    (leads : Leads action file fun _ => ClassFile.Consistent) :
    (action.run file).2.Consistent := by
  unfold Leads at leads
  generalize action.run file = left at leads
  obtain ⟨result, later⟩ := left
  cases result with
  | error cause => exact leads
  | ok value => exact leads

theorem leads_lift {result : Except FormatError α} (consistent : file.Consistent) :
    Leads (liftM result) file fun value later => result = .ok value ∧ later = file := by
  cases result with
  | error cause => exact consistent
  | ok value => exact ⟨rfl, rfl⟩

theorem leads_modify {change : ClassFile → ClassFile} (consistent : (change file).Consistent) :
    Leads (modify change) file fun _ => ClassFile.Consistent := consistent

theorem leads_onConstants {action : PoolM α} (consistent : file.Consistent)
    (keeps : PoolM.Keeps action) :
    Leads (onConstants action) file fun value later =>
      later.Consistent ∧ later.constants.Extends file.constants ∧
        action.run file.constants = (.ok value, later.constants) := by
  obtain ⟨sound, extends_⟩ := keeps file.constants consistent.constants
  have run : (onConstants action).run file =
      ((action.run file.constants).1,
        { file with constants := (action.run file.constants).2 }) := rfl
  unfold Leads
  rw [run]
  generalize action.run file.constants = left at sound extends_
  obtain ⟨result, constants⟩ := left
  have after := consistent.of_extends sound extends_
  cases result with
  | error cause => exact after
  | ok value => exact ⟨after, extends_, rfl⟩

/-- Asking for a text gives an index at which the text is. -/
theorem leads_internText (consistent : file.Consistent) (text : String) :
    Leads (onConstants (PoolM.internText text)) file fun index later =>
      later.Consistent ∧ later.constants.Extends file.constants ∧
        later.constants.text? index = some text := by
  refine (leads_onConstants consistent (PoolM.keeps_intern (.utf8 text))).imp ?_
  intro index later ⟨consistentLater, extends_, run⟩
  have found := PoolM.get?_of_intern consistent.constants (congrArg Prod.fst run)
  rw [run] at found
  exact ⟨consistentLater, extends_, ConstantPool.text?_eq_some_iff.mpr found⟩

/-- A method that is declared agrees with the pool, and so do those that were there before. -/
theorem leads_declareMethod (consistent : file.Consistent) (flags : MethodFlags)
    (name descriptor : String) (body : Option Body) :
    Leads (declareMethod flags name descriptor body) file fun _ => ClassFile.Consistent := by
  unfold declareMethod
  refine (leads_lift consistent).bind ?_
  rintro slots _ ⟨found, rfl⟩
  refine (leads_internText consistent name).bind ?_
  rintro nameIndex named ⟨consistentNamed, -, -⟩
  refine (leads_internText consistentNamed descriptor).bind ?_
  rintro descriptorIndex described ⟨consistentDescribed, -, text⟩
  cases body with
  | none =>
      have method : Method.Consistent described.constants
          ⟨flags, nameIndex, descriptorIndex, none, []⟩ :=
        ⟨⟨descriptor, slots, text, found, nofun⟩, nofun⟩
      exact leads_modify (consistentDescribed.append method)
  | some body =>
      dsimp only
      refine (leads_internText consistentDescribed CodeAttribute.attributeName).bind ?_
      rintro codeName coded ⟨consistentCoded, extends_, codeText⟩
      have method : Method.Consistent coded.constants ⟨flags, nameIndex, descriptorIndex,
          some ⟨codeName, { body with entrySlots := slots }⟩, []⟩ := by
        refine ⟨⟨descriptor, slots, extends_.text? text, found, ?_⟩, ?_⟩
        · rintro _ ⟨⟩
          rfl
        · rintro _ ⟨⟩
          exact codeText
      exact leads_modify (consistentCoded.append method)

end ClassM

namespace ClassFile

/-- What can be done to a class that is built. -/
inductive Edit
  | declareMethod (flags : MethodFlags) (name descriptor : String) (body : Option Body)
  | onConstants (call : ConstantPool.Call)
  | addInterface (index : UInt16)
  | addField (field : Field)
  | addAttribute (item : Attribute)
  /-- Add an attribute to the method with a number, if there are as many methods. -/
  | addMethodAttribute (number : Nat) (item : Attribute)

/-- Do something to a class, whatever comes of it. -/
def Edit.perform : Edit → ClassM Unit
  | .declareMethod flags name descriptor body => ClassM.declareMethod flags name descriptor body
  | .onConstants call => ClassM.onConstants call.perform
  | .addInterface index => modify fun file =>
      { file with interfaces := file.interfaces ++ [index] }
  | .addField field => modify fun file => { file with fields := file.fields ++ [field] }
  | .addAttribute item => modify fun file => { file with attributes := file.attributes ++ [item] }
  | .addMethodAttribute number item => modify fun file =>
      let add (method : Method) : Method :=
        { method with attributes := method.attributes ++ [item] }
      { file with methods := file.methods.modify number add }

/-- The class after an edit, also if the edit fails. -/
def Edit.after (edit : Edit) (file : ClassFile) : ClassFile :=
  (edit.perform.run file).2

/-- The classes to which edits lead from a class without members. -/
inductive Built : ClassFile → Prop
  | create {name superName : String} {file : ClassFile}
      (made : ClassFile.create name superName = .ok file) : Built file
  | edit {file : ClassFile} (before : Built file) (edit : Edit) : Built (edit.after file)

/-- A class without members is consistent. -/
theorem consistent_of_create {name superName : String}
    (made : ClassFile.create name superName = .ok file) : file.Consistent := by
  have keeps (name : String) : PoolM.Keeps (PoolM.internClass name) :=
    (ConstantPool.Request.classRef name).keeps_intern
  have both := (keeps name).bind fun thisClass => (keeps superName).bind fun superClass =>
    PoolM.keeps_pure (thisClass, superClass)
  have sound := (both .empty .empty).1
  unfold create at made
  dsimp only at made
  split at made
  · cases made
  · next thisClass superClass constants run =>
    cases made
    rw [run] at sound
    exact ⟨sound, List.forall_mem_nil _⟩

theorem Edit.leads_perform (consistent : file.Consistent) (edit : Edit) :
    ClassM.Leads edit.perform file fun _ => Consistent := by
  cases edit with
  | declareMethod flags name descriptor body =>
      exact ClassM.leads_declareMethod consistent flags name descriptor body
  | onConstants call =>
      exact (ClassM.leads_onConstants consistent call.keeps_perform).imp fun _ _ holds => holds.1
  | addInterface | addField | addAttribute =>
      exact ClassM.leads_modify ⟨consistent.constants, consistent.methods⟩
  | addMethodAttribute number item =>
      refine ClassM.leads_modify ⟨consistent.constants, ?_⟩
      intro method mem
      obtain ⟨index, found⟩ := List.getElem?_of_mem mem
      rw [List.getElem?_modify] at found
      obtain ⟨before, earlier, rfl⟩ := Option.map_eq_some_iff.mp found
      have same := consistent.methods before (List.mem_of_getElem? earlier)
      split
      · exact ⟨same.slots, same.codeName⟩
      · exact same

theorem Edit.consistent_after (consistent : file.Consistent) (edit : Edit) :
    (edit.after file).Consistent :=
  (edit.leads_perform consistent).consistent

theorem Built.consistent (built : file.Built) : file.Consistent := by
  induction built with
  | create made => exact consistent_of_create made
  | edit before edit ih => exact edit.consistent_after ih

/-- A class that was built, and whose parts can be written, is read as it was written, with the
same constants at the same indices. All its bytes are taken, and written again they are the same. -/
theorem Built.read_encode (built : file.Built) (fits : file.Fits) (rest : Bytes) :
    ClassFile.read.run (file.encode ++ rest) = .ok (file.justRead, rest) ∧
      file.justRead.constants.toList = file.constants.toList ∧
      (∀ index : UInt16, file.justRead.constants.get? index = file.constants.get? index) ∧
      file.justRead.encode = file.encode :=
  ⟨built.consistent.reads fits rest, rfl, fun _ => rfl, rfl⟩

/-- A class with an interface, a field, an attribute, and a method with code, a handler and
attributes, after a method that cannot be declared. -/
theorem Built.read_encode_of_handled_division :
    ∃ start, ClassFile.create "A" "B" = .ok start ∧
      let body : Body := ⟨2, 2, 0, [0x1A, 0x1B, 0x6C, 0xAC, 0x57, 0x03, 0xAC], [⟨0, 4, 4, 0⟩],
        [⟨2, [1, 2]⟩]⟩
      let edits : List Edit := [
        .declareMethod (.ofBits 9) "f" "(II" none,
        .declareMethod (.ofBits 9) "f" "(II)I" (some body),
        .onConstants (.append (.long 5)),
        .onConstants (.resolve 2),
        .addInterface 2,
        .addField ⟨1, 1, 1, []⟩,
        .addAttribute ⟨1, [7]⟩,
        .addMethodAttribute 0 ⟨1, [8, 9]⟩]
      let file := edits.foldl (fun file edit => edit.after file) start
      file.methods.map (fun method => method.body?.map Body.entrySlots) = [some 2] ∧
        file.constants.isResolved 2 = true ∧
        ClassFile.read.run file.encode = .ok (file.justRead, []) := by
  refine ⟨_, rfl, ?_⟩
  intro body edits file
  have built : file.Built := by
    repeat apply Built.edit
    exact .create (rfl : ClassFile.create "A" "B" = _)
  have fits : file.Fits := by decide +kernel
  have whole := (built.read_encode fits []).1
  rw [List.append_nil] at whole
  exact ⟨by decide +kernel, by decide +kernel, whole⟩

end ClassFile

end HotSwap
