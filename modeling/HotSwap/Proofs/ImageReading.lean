import HotSwap.Proofs.ClassImage
import HotSwap.Proofs.Exactness

/-! # What a class is read from

A class that was read shows what stands in some image, and the bytes that were taken are
those of the image. Texts are decoded, unnamed access flags are dropped, and the first
attribute with the right name becomes the code of a method. The rest is exact. -/

namespace HotSwap

open Reader (Takes Exact)

variable {input rest : Bytes}

/-! ## Constants -/

theorem ReferenceKind.of_read {kind : ReferenceKind} (read : ReferenceKind.read.run input =
    .ok (kind, rest)) : input = Word.u8.encode kind.number ++ rest := by
  obtain ⟨number, middle, readNumber, readKind⟩ := Reader.run_bind_eq_ok_iff.mp read
  split at readKind
  · next known found =>
    cases readKind
    have same : kind.number = number := by simpa using List.find?_some found
    rw [same]
    exact Reader.of_u8 readNumber
  · cases readKind

namespace Constant

variable {constant : Constant} {tag : UInt8} {index : Nat}

/-- What follows the tag is exact, but for texts. -/
theorem of_readPayload (read : (readPayload index tag).run input = .ok (constant, rest))
    (noText : tag ≠ 1) : constant.tag = tag ∧ input = constant.payload ++ rest := by
  have one (kind : Word) (build : kind.Value → Constant)
      (read : (do return build (← kind.read) : Reader Constant).run input = .ok (constant, rest)) :
      ∃ value, constant = build value ∧ input = kind.encode value ++ rest := by
    obtain ⟨value, _, readValue, read⟩ := Reader.run_bind_eq_ok_iff.mp read
    cases read
    exact ⟨value, rfl, Reader.of_word readValue⟩
  have two (build : UInt16 → UInt16 → Constant)
      (read : (do return build (← Reader.u16) (← Reader.u16) : Reader Constant).run input =
        .ok (constant, rest)) :
      ∃ first second, constant = build first second ∧
        input = Word.u16.encode first ++ Word.u16.encode second ++ rest := by
    obtain ⟨first, middle, readFirst, read⟩ := Reader.run_bind_eq_ok_iff.mp read
    obtain ⟨second, _, readSecond, read⟩ := Reader.run_bind_eq_ok_iff.mp read
    cases read
    refine ⟨first, second, rfl, ?_⟩
    rw [Reader.of_u16 readFirst, Reader.of_u16 readSecond,
      List.append_assoc]
  have tagIs {number : Nat} (same : tag.toNat = number) : UInt8.ofNat number = tag :=
    same ▸ UInt8.ofNat_toNat
  unfold readPayload at read
  split at read
  · next number => exact absurd (tagIs number).symm noText
  · next number =>
    obtain ⟨value, rfl, eq⟩ := one .i32 integer read
    exact ⟨tagIs number, eq⟩
  · next number =>
    obtain ⟨bits, rfl, eq⟩ := one .f32 float read
    exact ⟨tagIs number, eq⟩
  · next number =>
    obtain ⟨value, rfl, eq⟩ := one .i64 long read
    exact ⟨tagIs number, eq⟩
  · next number =>
    obtain ⟨bits, rfl, eq⟩ := one .f64 double read
    exact ⟨tagIs number, eq⟩
  · next number =>
    obtain ⟨name, rfl, eq⟩ := one .u16 classRef read
    exact ⟨tagIs number, eq⟩
  · next number =>
    obtain ⟨text, rfl, eq⟩ := one .u16 string read
    exact ⟨tagIs number, eq⟩
  · next number =>
    obtain ⟨owner, signature, rfl, eq⟩ := two (member .field) read
    exact ⟨tagIs number, eq⟩
  · next number =>
    obtain ⟨owner, signature, rfl, eq⟩ := two (member .method) read
    exact ⟨tagIs number, eq⟩
  · next number =>
    obtain ⟨owner, signature, rfl, eq⟩ := two (member .interfaceMethod) read
    exact ⟨tagIs number, eq⟩
  · next number =>
    obtain ⟨name, descriptor, rfl, eq⟩ := two nameAndType read
    exact ⟨tagIs number, eq⟩
  · next number =>
    obtain ⟨kind, middle, readKind, read⟩ := Reader.run_bind_eq_ok_iff.mp read
    obtain ⟨target, _, readTarget, read⟩ := Reader.run_bind_eq_ok_iff.mp read
    cases read
    refine ⟨tagIs number, ?_⟩
    rw [ReferenceKind.of_read readKind, Reader.of_u16 readTarget, payload,
      List.append_assoc]
  · next number =>
    obtain ⟨descriptor, rfl, eq⟩ := one .u16 methodType read
    exact ⟨tagIs number, eq⟩
  · next number =>
    obtain ⟨bootstrap, signature, rfl, eq⟩ := two dynamic read
    exact ⟨tagIs number, eq⟩
  · next number =>
    obtain ⟨bootstrap, signature, rfl, eq⟩ := two invokeDynamic read
    exact ⟨tagIs number, eq⟩
  · next number =>
    obtain ⟨name, rfl, eq⟩ := one .u16 moduleName read
    exact ⟨tagIs number, eq⟩
  · next number =>
    obtain ⟨name, rfl, eq⟩ := one .u16 packageName read
    exact ⟨tagIs number, eq⟩
  · cases read

theorem of_readText {text : String} (read : readText.run input = .ok (text, rest)) :
    ∃ content, ModifiedUtf8.decode? content = some text ∧ content.length ≤ 65535 ∧
      input = Bytes.ofNat 2 content.length ++ content ++ rest := by
  obtain ⟨length, middle, readLength, read⟩ := Reader.run_bind_eq_ok_iff.mp read
  obtain ⟨content, _, readContent, read⟩ := Reader.run_bind_eq_ok_iff.mp read
  split at read
  · next found decoded =>
    cases read
    obtain ⟨same, rfl⟩ := Reader.of_block readContent
    refine ⟨content, decoded, ?_, ?_⟩
    · rw [same]
      exact Nat.le_of_lt_succ length.toNat_lt
    · rw [Reader.of_count readLength, same, List.append_assoc]
  · cases read

end Constant

/-- Whether an entry can be written and stands for a constant. -/
def ConstantImage.Shows (image : ConstantImage) (constant : Constant) : Prop :=
  image.Fits ∧ image.constant? = some constant

theorem ConstantImage.Shows.width_eq {image : ConstantImage} {constant : Constant}
    (shows_ : image.Shows constant) : image.width = constant.width := by
  obtain ⟨-, stands⟩ := shows_
  cases image with
  | text content =>
      obtain ⟨text, -, rfl⟩ := Option.map_eq_some_iff.mp stands
      rfl
  | other constant =>
      cases stands
      rfl

theorem Constant.takes_read (index : Nat) :
    Takes (Constant.read index) ConstantImage.encode ConstantImage.Shows := by
  intro input rest constant read
  obtain ⟨tag, middle, readTag, read⟩ := Reader.run_bind_eq_ok_iff.mp read
  rw [Reader.of_u8 readTag]
  by_cases isText : tag = 1
  · subst isText
    obtain ⟨text, _, readText, read⟩ := Reader.run_bind_eq_ok_iff.mp read
    cases read
    obtain ⟨content, decoded, short, rfl⟩ := of_readText readText
    refine ⟨.text content, ⟨short, ?_⟩, ?_⟩
    · rw [ConstantImage.constant?, decoded]
      rfl
    · simp only [ConstantImage.encode, List.append_assoc]
  · obtain ⟨same, rfl⟩ := of_readPayload read isText
    refine ⟨.other constant, ⟨ne_of_eq_of_ne same isText, rfl⟩, ?_⟩
    rw [ConstantImage.encode, encode, same, List.append_assoc]

/-! ## Constant pools -/

/-- Whether a pool has the constants for which the entries of an image stand, and nothing else. -/
structure PoolImage.Shows (image : PoolImage) (pool : ConstantPool) : Prop where
  sound : pool.Sound
  fills : Fills image.count.toNat 1 image.entries
  entries : ∃ constants, pool = ⟨ConstantPool.slots constants, [], []⟩ ∧
    List.Forall₂ ConstantImage.Shows image.entries constants

namespace ConstantPool

/-- Entries are read behind those that were read already, as long as they are counted. -/
theorem of_readUpTo {count : Nat} {pool last : ConstantPool} (front : List Constant)
    (before : pool = ⟨slots front, [], []⟩)
    (read : readUpTo count pool input = .ok (last, rest)) :
    ∃ constants entries, last = ⟨slots (front ++ constants), [], []⟩ ∧
      List.Forall₂ ConstantImage.Shows entries constants ∧
      PoolImage.Fills count pool.next entries ∧
      input = entries.flatMap ConstantImage.encode ++ rest := by
  fun_induction readUpTo count pool input generalizing front with
  | case1 => cases read
  | case2 pool input below constant after found room ih =>
      subst before
      obtain ⟨entry, shows_, rfl⟩ := Constant.takes_read _ _ _ _ found
      obtain ⟨constants, entries, rfl, related, fills, rfl⟩ :=
        ih (front ++ [constant]) (by rw [slots_append]; rfl) read
      refine ⟨constant :: constants, entry :: entries, ?_, .cons shows_ related, ?_, ?_⟩
      · rw [List.append_assoc, List.singleton_append]
      · refine .entry below shows_.1 ?_
        rw [shows_.width_eq]
        exact fills
      · rw [List.flatMap_cons, List.append_assoc]
  | case3 => cases read
  | case4 pool input reached =>
      cases read
      exact ⟨[], [], by rw [before, List.append_nil], .nil, .reached reached, rfl⟩

theorem takes_read : Takes ConstantPool.read PoolImage.encode PoolImage.Shows := by
  intro input rest pool read
  have sound := Sound.of_read read
  obtain ⟨count, middle, readCount, read⟩ := Reader.run_bind_eq_ok_iff.mp read
  obtain ⟨constants, entries, rfl, related, fills, rfl⟩ := of_readUpTo [] rfl read
  refine ⟨⟨count, entries⟩, ⟨sound, fills, constants, rfl, related⟩, ?_⟩
  rw [Reader.of_count readCount, PoolImage.encode, List.append_assoc]

end ConstantPool

/-! ## Attributes, code and fields -/

theorem Attribute.exact : Exact Attribute.read Attribute.encode Attribute.Fits := by
  intro input rest item read
  obtain ⟨name, _, readName, read⟩ := Reader.run_bind_eq_ok_iff.mp read
  obtain ⟨length, _, readLength, read⟩ := Reader.run_bind_eq_ok_iff.mp read
  obtain ⟨info, _, readInfo, read⟩ := Reader.run_bind_eq_ok_iff.mp read
  cases read
  obtain ⟨same, rfl⟩ := Reader.of_block readInfo
  refine ⟨?_, ?_⟩
  · show info.length < _
    rw [same]
    exact length.toNat_lt
  · rw [Reader.of_u16 readName, Reader.of_length readLength, ← same, encode]
    simp only [List.append_assoc]

theorem Handler.exact : Exact Handler.read Handler.encode fun _ => True := by
  intro input rest handler read
  obtain ⟨start, _, readStart, read⟩ := Reader.run_bind_eq_ok_iff.mp read
  obtain ⟨stop, _, readStop, read⟩ := Reader.run_bind_eq_ok_iff.mp read
  obtain ⟨target, _, readTarget, read⟩ := Reader.run_bind_eq_ok_iff.mp read
  obtain ⟨catchType, _, readCatchType, read⟩ := Reader.run_bind_eq_ok_iff.mp read
  cases read
  refine ⟨trivial, ?_⟩
  rw [Reader.of_u16 readStart, Reader.of_u16 readStop,
    Reader.of_u16 readTarget, Reader.of_u16 readCatchType, encode]
  simp only [List.append_assoc]

theorem Body.exact (slots : UInt16) :
    Exact (Body.read slots) Body.encode fun body => body.Fits ∧ body.entrySlots = slots := by
  intro input rest body read
  obtain ⟨maxStack, _, readStack, read⟩ := Reader.run_bind_eq_ok_iff.mp read
  obtain ⟨maxLocals, _, readLocals, read⟩ := Reader.run_bind_eq_ok_iff.mp read
  obtain ⟨length, _, readLength, read⟩ := Reader.run_bind_eq_ok_iff.mp read
  obtain ⟨code, _, readCode, read⟩ := Reader.run_bind_eq_ok_iff.mp read
  obtain ⟨handlers, _, readHandlers, read⟩ := Reader.run_bind_eq_ok_iff.mp read
  obtain ⟨attributes, _, readAttributes, read⟩ := Reader.run_bind_eq_ok_iff.mp read
  cases read
  obtain ⟨same, rfl⟩ := Reader.of_block readCode
  obtain ⟨⟨fewHandlers, -⟩, rfl⟩ := Handler.exact.counted _ _ _ readHandlers
  obtain ⟨fitting, rfl⟩ := Attribute.exact.counted _ _ _ readAttributes
  refine ⟨⟨⟨?_, fewHandlers, fitting⟩, rfl⟩, ?_⟩
  · show code.length < _
    rw [same]
    exact length.toNat_lt
  · rw [Reader.of_u16 readStack, Reader.of_u16 readLocals,
      Reader.of_length readLength, ← same, encode]
    simp only [List.append_assoc]

theorem Field.exact : Exact Field.read Field.encode Field.Fits := by
  intro input rest field read
  obtain ⟨flags, _, readFlags, read⟩ := Reader.run_bind_eq_ok_iff.mp read
  obtain ⟨name, _, readName, read⟩ := Reader.run_bind_eq_ok_iff.mp read
  obtain ⟨descriptor, _, readDescriptor, read⟩ := Reader.run_bind_eq_ok_iff.mp read
  obtain ⟨attributes, _, readAttributes, read⟩ := Reader.run_bind_eq_ok_iff.mp read
  cases read
  obtain ⟨fitting, rfl⟩ := Attribute.exact.counted _ _ _ readAttributes
  refine ⟨fitting, ?_⟩
  rw [Reader.of_u16 readFlags, Reader.of_u16 readName,
    Reader.of_u16 readDescriptor, encode]
  simp only [List.append_assoc]

/-! ## Methods and classes -/

theorem FlagSet.of_read {vocabulary : FlagVocabulary} {flags : FlagSet vocabulary}
    (read : FlagSet.read.run input = .ok (flags, rest)) :
    ∃ bits, flags = .ofBits bits ∧ input = Word.u16.encode bits ++ rest := by
  obtain ⟨bits, _, readBits, read⟩ := Reader.run_bind_eq_ok_iff.mp read
  cases read
  exact ⟨bits, rfl, Reader.of_u16 readBits⟩

/-- Whether a method is what is made of an image with the given constants. -/
structure MethodImage.Shows (constants : ConstantPool) (image : MethodImage) (method : Method) :
    Prop where
  fits : image.Fits
  flags : method.flags = .ofBits image.flags
  name : method.name = image.name
  descriptor : method.descriptor = image.descriptor
  code : ∃ descriptor slots, constants.text? method.descriptor = some descriptor ∧
    entrySlots method.flags descriptor = .ok slots ∧
    CodeAttribute.find constants slots image.attributes = .ok (method.code, method.attributes)

theorem Method.takes_read (constants : ConstantPool) :
    Takes (Method.read constants) MethodImage.encode (MethodImage.Shows constants) := by
  intro input rest method read
  obtain ⟨flags, _, readFlags, read⟩ := Reader.run_bind_eq_ok_iff.mp read
  obtain ⟨name, _, readName, read⟩ := Reader.run_bind_eq_ok_iff.mp read
  obtain ⟨descriptor, _, readDescriptor, read⟩ := Reader.run_bind_eq_ok_iff.mp read
  split at read
  · cases read
  · next text found =>
    obtain ⟨slots, _, counted, read⟩ := Reader.run_bind_eq_ok_iff.mp read
    obtain ⟨attributes, _, readAttributes, read⟩ := Reader.run_bind_eq_ok_iff.mp read
    obtain ⟨parts, _, taken, read⟩ := Reader.run_bind_eq_ok_iff.mp read
    obtain ⟨code, others⟩ := parts
    cases read
    obtain ⟨slotsOk, rfl⟩ := Reader.run_lift_eq_ok_iff.mp counted
    obtain ⟨codeOk, rfl⟩ := Reader.run_lift_eq_ok_iff.mp taken
    obtain ⟨bits, rfl, rfl⟩ := FlagSet.of_read readFlags
    obtain ⟨fitting, rfl⟩ := Attribute.exact.counted _ _ _ readAttributes
    refine ⟨⟨bits, name, descriptor, attributes⟩,
      ⟨fitting, rfl, rfl, rfl, text, slots, found, slotsOk, codeOk⟩, ?_⟩
    rw [Reader.of_u16 readName, Reader.of_u16 readDescriptor,
      MethodImage.encode]
    simp only [List.append_assoc]

/-- Whether a class is what is made of an image. -/
structure ClassImage.Shows (image : ClassImage) (file : ClassFile) : Prop where
  fits : image.Fits
  minorVersion : file.minorVersion = image.minorVersion
  majorVersion : file.majorVersion = image.majorVersion
  constants : image.constants.Shows file.constants
  flags : file.flags = .ofBits image.flags
  thisClass : file.thisClass = image.thisClass
  superClass : file.superClass = image.superClass
  interfaces : file.interfaces = image.interfaces
  fields : file.fields = image.fields
  methods : List.Forall₂ (MethodImage.Shows file.constants) image.methods file.methods
  attributes : file.attributes = image.attributes

/-- A class that was read is what was made of an image, and the image is what was taken. -/
theorem ClassFile.takes_read : Takes ClassFile.read ClassImage.encode ClassImage.Shows := by
  intro input rest file read
  obtain ⟨found, _, readMagic, read⟩ := Reader.run_bind_eq_ok_iff.mp read
  split at read
  · cases read
  · next isMagic =>
    rw [not_not] at isMagic
    subst isMagic
    obtain ⟨minor, _, readMinor, read⟩ := Reader.run_bind_eq_ok_iff.mp read
    obtain ⟨major, _, readMajor, read⟩ := Reader.run_bind_eq_ok_iff.mp read
    obtain ⟨pool, _, readPool, read⟩ := Reader.run_bind_eq_ok_iff.mp read
    obtain ⟨flags, _, readFlags, read⟩ := Reader.run_bind_eq_ok_iff.mp read
    obtain ⟨thisClass, _, readThis, read⟩ := Reader.run_bind_eq_ok_iff.mp read
    obtain ⟨superClass, _, readSuper, read⟩ := Reader.run_bind_eq_ok_iff.mp read
    obtain ⟨interfaces, _, readInterfaces, read⟩ := Reader.run_bind_eq_ok_iff.mp read
    obtain ⟨fields, _, readFields, read⟩ := Reader.run_bind_eq_ok_iff.mp read
    obtain ⟨methods, _, readMethods, read⟩ := Reader.run_bind_eq_ok_iff.mp read
    obtain ⟨attributes, _, readAttributes, read⟩ := Reader.run_bind_eq_ok_iff.mp read
    cases read
    have exactWord : Exact Reader.u16 Word.u16.encode fun _ => True :=
      fun _ _ _ read => ⟨trivial, Reader.of_word read⟩
    obtain ⟨-, rfl⟩ := Reader.of_fixed readMagic
    obtain ⟨constants, shows_, rfl⟩ := ConstantPool.takes_read _ _ _ readPool
    obtain ⟨bits, rfl, rfl⟩ := FlagSet.of_read readFlags
    obtain ⟨⟨fewInterfaces, -⟩, rfl⟩ := exactWord.counted _ _ _ readInterfaces
    obtain ⟨fittingFields, rfl⟩ := Field.exact.counted _ _ _ readFields
    obtain ⟨images, ⟨fewMethods, related⟩, rfl⟩ :=
      (Method.takes_read pool).counted _ _ _ readMethods
    obtain ⟨fittingAttributes, rfl⟩ := Attribute.exact.counted _ _ _ readAttributes
    have fittingMethods : ∀ image ∈ images, image.Fits :=
      forall_of_forall₂ related.flip MethodImage.Shows.fits
    refine ⟨⟨minor, major, constants, bits, thisClass, superClass, interfaces, fields, images,
      attributes⟩, ⟨⟨shows_.fills, fewInterfaces, fittingFields, ⟨fewMethods, fittingMethods⟩,
      fittingAttributes⟩, rfl, rfl, shows_, rfl, rfl, rfl, rfl, rfl, related, rfl⟩, ?_⟩
    rw [Reader.of_u16 readMinor, Reader.of_u16 readMajor,
      Reader.of_u16 readThis, Reader.of_u16 readSuper,
      ClassImage.encode]
    simp only [List.append_assoc]

end HotSwap
