import HotSwap.Proofs.Declaring
import HotSwap.Proofs.Descriptor
import HotSwap.Proofs.Rewriting
import Mathlib.Algebra.GroupWithZero.Nat

/-! # The parameter slots of a body

The slots that the receiver and the parameters of a method take are counted in natural numbers, and
a body holds the count as a number of 16 bits. There is no limit on the number of parameters in a
descriptor: one that a class file has room for can call for more than 65535 slots. Then what a body
holds is what remains of the count after division by 65536. -/

namespace HotSwap

/-! ## Counting -/

/-- The local variable slots that a parameter of a type takes. -/
def FieldType.slots (type : FieldType) : Nat :=
  if type = ⟨0, .base .long⟩ ∨ type = ⟨0, .base .double⟩ then 2 else 1

theorem FieldType.width_eq_slots (type : FieldType) : type.width = type.slots := by
  obtain ⟨dimensions, element⟩ := type
  cases dimensions with
  | succ dimensions => simp [width, slots]
  | zero =>
      cases element with
      | object name => simp [width, slots, ElementType.width]
      | base type => cases type <;> rfl

/-- The local variable slots that the receiver and the parameters of a method take. -/
def MethodType.slotsOnEntry (type : MethodType) (flags : MethodFlags) : Nat :=
  (type.parameters.map FieldType.slots).sum + if flags.isStatic then 0 else 1

theorem MethodType.parameterWidth_eq (type : MethodType) :
    type.parameterWidth = (type.parameters.map FieldType.slots).sum := by
  rw [parameterWidth]
  induction type.parameters with
  | nil => rfl
  | cons first rest ih =>
      rw [List.foldr_cons, ih, List.map_cons, List.sum_cons, first.width_eq_slots]

/-- Whether the parameter slots of a body are those that the type and the flags of its method call
for, as far as 16 bits go. -/
structure Body.CountsSlots (body : Body) (type : MethodType) (flags : MethodFlags) : Prop where
  remainder : body.entrySlots.toNat = type.slotsOnEntry flags % 65536
  exact_iff : body.entrySlots.toNat = type.slotsOnEntry flags ↔ type.slotsOnEntry flags ≤ 65535

section Counting

variable {flags : MethodFlags} {descriptor : String} {type : MethodType} {slots : UInt16}

theorem entrySlots_of_type (parsed : MethodType.ofText descriptor = .ok type)
    (flags : MethodFlags) :
    entrySlots flags descriptor = .ok (UInt16.ofNat (type.slotsOnEntry flags)) := by
  rw [entrySlots, parsed]
  dsimp only
  rw [type.parameterWidth_eq]
  rfl

theorem entrySlots_of_error {cause : DescriptorError}
    (parsed : MethodType.ofText descriptor = .error cause) :
    entrySlots flags descriptor = .error (.badDescriptor descriptor) := by
  rw [entrySlots, parsed]

/-- Slots are counted only if the descriptor has a type. -/
theorem exists_type_of_entrySlots (counted : entrySlots flags descriptor = .ok slots) :
    ∃ type, MethodType.ofText descriptor = .ok type ∧
      slots = UInt16.ofNat (type.slotsOnEntry flags) := by
  cases parsed : MethodType.ofText descriptor with
  | error cause =>
      rw [entrySlots_of_error parsed] at counted
      cases counted
  | ok type =>
      rw [entrySlots_of_type parsed] at counted
      cases counted
      exact ⟨type, rfl, rfl⟩

theorem Body.countsSlots {body : Body}
    (same : body.entrySlots = UInt16.ofNat (type.slotsOnEntry flags)) :
    body.CountsSlots type flags := by
  have remainder : body.entrySlots.toNat = type.slotsOnEntry flags % 65536 := by
    rw [same, UInt16.toNat_ofNat']
  refine ⟨remainder, ?_⟩
  rw [remainder]
  omega

end Counting

/-! ## Declaring -/

namespace ClassM

variable {flags : MethodFlags} {name descriptor : String} {body : Option Body} {type : MethodType}
  {file later : ClassFile}

theorem exists_declareMethod (file : ClassFile)
    (parsed : MethodType.ofText descriptor = .ok type) (room : file.constants.next + 3 ≤ 65535)
    (flags : MethodFlags) (name : String) (body : Option Body) :
    ∃ later, (declareMethod flags name descriptor body).run file = (.ok (), later) := by
  obtain ⟨method, drafted, run⟩ :=
    exists_draftMethod (entrySlots_of_type parsed flags) room name body
  rw [declareMethod_run, run]
  exact ⟨_, rfl⟩

/-- The body of a declared method is the one that was given, up to the slots. -/
theorem body_of_declareMethod (parsed : MethodType.ofText descriptor = .ok type)
    (run : (declareMethod flags name descriptor body).run file = (.ok (), later)) :
    ∃ method, later.methods = file.methods ++ [method] ∧
      method.body? = body.map fun body =>
        { body with entrySlots := UInt16.ofNat (type.slotsOnEntry flags) } := by
  obtain ⟨method, drafted, draftRun, rfl⟩ := exists_of_declareMethod run
  obtain ⟨slots, counted, stored⟩ := slots_of_draftMethod draftRun
  rw [entrySlots_of_type parsed] at counted
  cases counted
  exact ⟨method, rfl, stored⟩

theorem declareMethod_of_error {cause : DescriptorError}
    (parsed : MethodType.ofText descriptor = .error cause) :
    (declareMethod flags name descriptor body).run file =
      (.error (.badDescriptor descriptor), file) := by
  rw [declareMethod_run, draftMethod_of_error (entrySlots_of_error parsed)]

end ClassM

/-! ## Reading -/

/-- A method that was read has a descriptor with a type, and its body has the slots for it. -/
theorem ClassFile.type_of_read {input rest : Bytes} {file : ClassFile} {method : Method}
    {descriptor : String} (read : ClassFile.read.run input = .ok (file, rest))
    (mem : method ∈ file.methods) (text : file.methodDescriptor? method = some descriptor) :
    ∃ type, MethodType.ofText descriptor = .ok type ∧
      ∀ body ∈ method.body?, body.CountsSlots type method.flags := by
  obtain ⟨again, slots, found, counted, same⟩ := ((of_read read).1.methods method mem).slots
  obtain rfl : descriptor = again := Option.some.inj (text.symm.trans found)
  obtain ⟨type, parsed, rfl⟩ := exists_type_of_entrySlots counted
  exact ⟨type, parsed, fun body mem => Body.countsSlots (same body mem)⟩

namespace Reader

variable {α β : Type} {reader : Reader α} {input rest : Bytes} {value : α} {cause : FormatError}

theorem run_bind_of_ok (read : reader.run input = .ok (value, rest)) (next : α → Reader β) :
    (reader >>= next).run input = (next value).run rest := by
  rw [StateT.run_bind, read]
  rfl

theorem run_bind_of_error (failed : reader.run input = .error cause) (next : α → Reader β) :
    (reader >>= next).run input = .error cause := by
  rw [StateT.run_bind, failed]
  rfl

/-- Some items are read, and then the others. -/
theorem more_add (first second : Nat) (found : List α) :
    more reader (first + second) found =
      more reader first found >>= fun values => more reader second values.reverse := by
  induction first generalizing found with
  | zero => rw [Nat.zero_add, more, pure_bind, List.reverse_reverse]
  | succ first ih =>
      rw [Nat.succ_add, more, more, bind_assoc]
      exact congrArg _ (funext fun value => ih (value :: found))

/-- Items cannot be read behind one that cannot. -/
theorem run_many_of_error {count before : Nat} {values : List α} (inside : before < count)
    (read : (many reader before).run input = .ok (values, rest))
    (failed : reader.run rest = .error cause) :
    (many reader count).run input = .error cause := by
  obtain ⟨after, rfl⟩ := Nat.exists_eq_add_of_lt inside
  rw [many, Nat.add_assoc, more_add, ← many, run_bind_of_ok read, more]
  exact run_bind_of_error failed _

end Reader

namespace ClassFile

/-- What stands in front of the methods of a class, as a class without methods. -/
def readHead : Reader ClassFile := do
  let found ← Reader.fixed 4
  if found ≠ magic then throw (.badMagic found)
  let minorVersion ← Reader.u16
  let majorVersion ← Reader.u16
  let constants ← ConstantPool.read
  let flags ← FlagSet.read
  let thisClass ← Reader.u16
  let superClass ← Reader.u16
  let interfaces ← Reader.counted Reader.u16
  let fields ← Reader.counted Field.read
  return {
    minorVersion, majorVersion, constants, flags, thisClass, superClass, interfaces, fields,
    methods := [], attributes := [] }

theorem read_eq :
    read = do
      let head ← readHead
      let methods ← Reader.counted (Method.read head.constants)
      let attributes ← Reader.counted Attribute.read
      return { head with methods, attributes } := by
  rw [read, readHead]
  simp only [bind_assoc]
  refine congrArg _ (funext fun found => ?_)
  split
  · rfl
  · simp only [bind_assoc, pure_bind]

/-- Whether some methods of a class are read, and there is another one, at what is left of the
input. -/
def ReadsUpTo (input : Bytes) (constants : ConstantPool) (left : Bytes) : Prop :=
  ∃ head afterHead count afterCount before methods,
    readHead.run input = .ok (head, afterHead) ∧ head.constants = constants ∧
      Reader.u16.run afterHead = .ok (count, afterCount) ∧ before < count.toNat ∧
        (Reader.many (Method.read constants) before).run afterCount = .ok (methods, left)

variable {input left : Bytes} {constants : ConstantPool} {cause : FormatError}

/-- A class cannot be read if one of its methods cannot. -/
theorem ReadsUpTo.run_read (upTo : ReadsUpTo input constants left)
    (failed : (Method.read constants).run left = .error cause) :
    read.run input = .error cause := by
  obtain ⟨head, afterHead, count, afterCount, before, methods, headRead, rfl, countRead, inside,
    methodsRead⟩ := upTo
  have methodsFailed : (Reader.counted (Method.read head.constants)).run afterHead =
      .error cause := by
    rw [Reader.counted, Reader.run_bind_of_ok countRead]
    exact Reader.run_many_of_error inside methodsRead failed
  rw [read_eq, Reader.run_bind_of_ok headRead]
  exact Reader.run_bind_of_error methodsFailed _

end ClassFile

/-- A method is not read past a descriptor that has no type. -/
theorem Method.read_of_error {constants : ConstantPool} {text : String} {cause : DescriptorError}
    {descriptor : UInt16} (found : constants.text? descriptor = some text)
    (parsed : MethodType.ofText text = .error cause) (flags name : UInt16) (rest : Bytes) :
    (Method.read constants).run (Word.u16.encode flags ++ Word.u16.encode name ++
      Word.u16.encode descriptor ++ rest) = .error (.badDescriptor text) := by
  have word (value : UInt16) : Reader.Reads Reader.u16 (Word.u16.encode value) value :=
    Reader.reads_word .u16 value
  have flagsRead : Reader.Reads (FlagSet.read : Reader MethodFlags) (Word.u16.encode flags)
      (.ofBits flags) := (word flags).map _
  rw [List.append_assoc, List.append_assoc, Method.read, Reader.run_bind_of_ok (flagsRead _),
    Reader.run_bind_of_ok (word name _), Reader.run_bind_of_ok (word descriptor _), found]
  dsimp only
  rw [entrySlots_of_error parsed]
  rfl

/-- A class with one method, which has a descriptor and returns. -/
def imageOfDescriptor (descriptor : Bytes) : ClassImage :=
  { ClassFile.imageOfMethod 1 [0x66] 6 [ClassFile.returnCode []] with
    constants := ⟨6, [.text [0x66], .text descriptor, .text [0x43, 0x6F, 0x64, 0x65],
      .other (.long 5)]⟩ }

/-- If a descriptor has a type, then the slots of a body that is declared with it, or of one that
was read with it, are what the type and the flags call for if this is below 65536, and otherwise
what remains of it after division by 65536. A descriptor without a type is what the declaration, or
the reading of the class, fails with. -/
theorem countsSlots_of_descriptor (flags : MethodFlags) (descriptor : String) :
    (∀ type, MethodType.ofText descriptor = .ok type →
      (∀ (name : String) (body : Option Body) (file : ClassFile),
        (file.constants.next + 3 ≤ 65535 →
          ∃ later, (ClassM.declareMethod flags name descriptor body).run file = (.ok (), later)) ∧
        ∀ later, (ClassM.declareMethod flags name descriptor body).run file = (.ok (), later) →
          ∃ method, later.methods = file.methods ++ [method] ∧
            method.body?.isSome = body.isSome ∧
              ∀ stored ∈ method.body?, stored.CountsSlots type flags) ∧
      ∀ (input rest : Bytes) (file : ClassFile), ClassFile.read.run input = .ok (file, rest) →
        ∀ method ∈ file.methods, method.flags = flags →
          file.methodDescriptor? method = some descriptor →
            ∀ body ∈ method.body?, body.CountsSlots type flags) ∧
    ∀ cause, MethodType.ofText descriptor = .error cause →
      (∀ (name : String) (body : Option Body) (file : ClassFile),
        (ClassM.declareMethod flags name descriptor body).run file =
          (.error (.badDescriptor descriptor), file)) ∧
      (∀ (input rest : Bytes) (constants : ConstantPool) (bits name index : UInt16),
        ClassFile.ReadsUpTo input constants (Word.u16.encode bits ++ Word.u16.encode name ++
          Word.u16.encode index ++ rest) →
        constants.text? index = some descriptor →
          ClassFile.read.run input = .error (.badDescriptor descriptor)) ∧
      ∀ (input rest : Bytes) (file : ClassFile), ClassFile.read.run input = .ok (file, rest) →
        ∀ method ∈ file.methods, file.methodDescriptor? method ≠ some descriptor := by
  refine ⟨fun type parsed => ⟨fun name body file => ⟨fun room => ?_, ?_⟩, ?_⟩,
    fun cause parsed => ⟨fun name body file => ?_, ?_, ?_⟩⟩
  · exact ClassM.exists_declareMethod file parsed room flags name body
  · intro later run
    obtain ⟨method, methods, stored⟩ := ClassM.body_of_declareMethod parsed run
    refine ⟨method, methods, ?_, ?_⟩
    · rw [stored, Option.isSome_map]
    · rw [stored]
      intro kept mem
      obtain ⟨given, -, rfl⟩ := Option.map_eq_some_iff.mp mem
      exact Body.countsSlots rfl
  · rintro input rest file read method mem rfl text body hasBody
    obtain ⟨again, found, counts⟩ := ClassFile.type_of_read read mem text
    cases parsed.symm.trans found
    exact counts body hasBody
  · exact ClassM.declareMethod_of_error parsed
  · intro input rest constants bits name index upTo found
    exact upTo.run_read (Method.read_of_error found parsed bits name rest)
  · intro input rest file read method mem text
    obtain ⟨type, found, -⟩ := ClassFile.type_of_read read mem text
    cases parsed.symm.trans found

/-- A receiver, two parameters of two slots and an array take up six slots. -/
theorem countsSlots_of_wide :
    let file : ClassFile := ⟨0, 52, .empty, .publicSuper, 0, 0, [], [], [], []⟩
    let input := (imageOfDescriptor [0x28, 0x4A, 0x44, 0x5B, 0x4A, 0x29, 0x56]).encode
    let unclosed := (imageOfDescriptor [0x28, 0x4A]).encode
    (∃ later method stored,
      (ClassM.declareMethod (.ofBits 1) "f" "(JD[J)V" (some ⟨0, 0, 0, [0xB1], [], []⟩)).run file =
        (.ok (), later) ∧ later.methods = [method] ∧ method.body? = some stored ∧
          stored.entrySlots.toNat = 6) ∧
    (∃ read method stored, ClassFile.read.run input = .ok (read, []) ∧ read.methods = [method] ∧
      method.body? = some stored ∧ stored.entrySlots.toNat = 6) ∧
    ClassFile.read.run unclosed = .error (.badDescriptor "(J") := by
  intro file input unclosed
  let type : MethodType := ⟨[⟨0, .base .long⟩, ⟨0, .base .double⟩, ⟨1, .base .long⟩], none⟩
  have parsed : MethodType.ofText "(JD[J)V" = .ok type := by decide +kernel
  have six : type.slotsOnEntry (.ofBits 1) = 6 := by decide +kernel
  obtain ⟨ofType, -⟩ := countsSlots_of_descriptor (.ofBits 1) "(JD[J)V"
  obtain ⟨declared, ofRead⟩ := ofType type parsed
  refine ⟨?_, ?_, ?_⟩
  · obtain ⟨succeeds, stores⟩ := declared "f" (some ⟨0, 0, 0, [0xB1], [], []⟩) file
    obtain ⟨later, run⟩ := succeeds (by decide)
    obtain ⟨method, methods, hasBody, counts⟩ := stores later run
    obtain ⟨stored, body⟩ := Option.isSome_iff_exists.mp hasBody
    refine ⟨later, method, stored, run, methods, body, ?_⟩
    rw [(counts stored body).remainder, six]
  · have seen : (ClassFile.read.run input).map (fun found => decide (found.2 = [] ∧
        found.1.methods.map (fun method =>
          (method.flags, found.1.methodDescriptor? method, method.body?.isSome)) =
            [(.ofBits 1, some "(JD[J)V", true)])) = .ok true := by decide +kernel
    obtain ⟨read, rest, run, rfl, found⟩ := Reader.exists_of_map_decide seen
    obtain ⟨method, methods, found⟩ := List.map_eq_singleton_iff.mp found
    simp only [Prod.mk.injEq] at found
    obtain ⟨flags, text, hasBody⟩ := found
    obtain ⟨stored, body⟩ := Option.isSome_iff_exists.mp hasBody
    have counts := ofRead input [] read run method (methods ▸ List.mem_singleton_self method)
      flags text stored body
    refine ⟨read, method, stored, run, methods, body, ?_⟩
    rw [counts.remainder, six]
  · have seen : (ClassFile.readHead.run unclosed).map (fun found => decide (
        found.1.constants.text? 2 = some "(J" ∧
          found.2 = Word.u16.encode 1 ++ (Word.u16.encode 1 ++ Word.u16.encode 1 ++
            Word.u16.encode 2 ++ found.2.drop 8))) = .ok true := by decide +kernel
    obtain ⟨head, rest, run, text, front⟩ := Reader.exists_of_map_decide seen
    have failed : MethodType.ofText "(J" = .error .unclosedParameters := by decide +kernel
    obtain ⟨-, ofError⟩ := countsSlots_of_descriptor (.ofBits 1) "(J"
    obtain ⟨-, badRead, -⟩ := ofError _ failed
    refine badRead unclosed (rest.drop 8) head.constants 1 1 2 ?_ text
    dsimp only at front
    rw [front] at run
    exact ⟨head, _, 1, _, 0, [], run, rfl, Reader.reads_word .u16 1 _, by decide, rfl⟩

/-- A method with some parameters that take two slots each. -/
def MethodType.longs (count : Nat) : MethodType :=
  ⟨List.replicate count ⟨0, .base .long⟩, none⟩

theorem MethodType.ofText_longs (count : Nat) :
    ofText (String.ofList (longs count).render) = .ok (longs count) := by
  rw [ofText, Parse.whole_eq_ok_iff, parse_eq_ok_iff, String.toList_ofList, List.append_nil]
  refine ⟨⟨?_, ?_⟩, rfl⟩
  · intro parameter mem
    rw [List.eq_of_mem_replicate mem]
    trivial
  · rintro _ ⟨⟩

theorem MethodType.slotsOnEntry_longs (count : Nat) (flags : MethodFlags) :
    (longs count).slotsOnEntry flags = count * 2 + if flags.isStatic then 0 else 1 := by
  rw [slotsOnEntry, longs, List.map_replicate, List.sum_replicate_nat]
  rfl

/-- A static method with 32768 parameters of two slots each is said to have none. -/
theorem entrySlots_of_many_longs :
    let file : ClassFile := ⟨0, 52, .empty, .publicSuper, 0, 0, [], [], [], []⟩
    let descriptor := String.ofList (MethodType.longs 32768).render
    MethodType.ofText descriptor = .ok (.longs 32768) ∧
      (MethodType.longs 32768).slotsOnEntry (.ofBits 9) = 65536 ∧
      ∃ later method stored,
        (ClassM.declareMethod (.ofBits 9) "f" descriptor (some ⟨0, 0, 0, [0xB1], [], []⟩)).run
          file = (.ok (), later) ∧ later.methods = [method] ∧ method.body? = some stored ∧
            stored.entrySlots.toNat = 0 := by
  intro file descriptor
  have parsed : MethodType.ofText descriptor = .ok (.longs 32768) := MethodType.ofText_longs 32768
  have count : (MethodType.longs 32768).slotsOnEntry (.ofBits 9) = 65536 :=
    MethodType.slotsOnEntry_longs 32768 (.ofBits 9)
  obtain ⟨later, run⟩ := ClassM.exists_declareMethod file parsed (by decide) (.ofBits 9) "f"
    (some ⟨0, 0, 0, [0xB1], [], []⟩)
  obtain ⟨method, methods, body⟩ := ClassM.body_of_declareMethod parsed run
  refine ⟨parsed, count, later, method, _, run, methods, body, ?_⟩
  rw [count]
  rfl

end HotSwap
