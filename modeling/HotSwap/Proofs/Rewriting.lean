import HotSwap.Proofs.ImageReading
import HotSwap.Proofs.Reencoding

/-! # Classes that were read are written again

What was read fits into what it is written into, since nothing becomes longer on the way. So
a class that was read can be written, and is read again as the same class. The bytes that are
written need not be those that were read. They are the same if no flag was dropped, all texts
are written in the shortest way, the constants are counted up to the last index, and the code
of a method was its first attribute and took up all of it. -/

namespace HotSwap

/-! ## Constants -/

namespace ConstantImage

/-- Whether a text is written as its bytes are. -/
def Canonical : ConstantImage → Prop
  | text content => ∀ text ∈ ModifiedUtf8.decode? content, ModifiedUtf8.encode text = content
  | other _ => True

instance : DecidablePred Canonical := fun image =>
  match image with
  | text content => inferInstanceAs
      (Decidable (∀ text ∈ ModifiedUtf8.decode? content, ModifiedUtf8.encode text = content))
  | other _ => isTrue trivial

variable {image : ConstantImage} {constant : Constant}

/-- A text that was read after its length does not grow beyond what a length can say. -/
theorem Shows.fits (shows_ : image.Shows constant) : constant.Fits := by
  obtain ⟨fits, stands⟩ := shows_
  cases image with
  | text content =>
      obtain ⟨text, decoded, rfl⟩ := Option.map_eq_some_iff.mp stands
      exact Nat.le_trans (ModifiedUtf8.length_encode_le decoded) fits
  | other constant =>
      cases stands
      cases constant with
      | utf8 text => exact absurd rfl fits
      | _ => trivial

theorem Shows.ofConstant_eq_iff (shows_ : image.Shows constant) :
    ofConstant constant = image ↔ image.Canonical := by
  obtain ⟨fits, stands⟩ := shows_
  cases image with
  | text content =>
      obtain ⟨text, decoded, rfl⟩ := Option.map_eq_some_iff.mp stands
      simp [ofConstant, Canonical, decoded]
  | other constant =>
      cases stands
      cases constant with
      | utf8 text => exact absurd rfl fits
      | _ => simp [ofConstant, Canonical]

theorem map_ofConstant_eq_iff {images : List ConstantImage} {constants : List Constant}
    (related : List.Forall₂ Shows images constants) :
    constants.map ofConstant = images ↔ ∀ image ∈ images, image.Canonical := by
  induction related with
  | nil => simp
  | cons shown _ ih =>
      rw [List.map_cons, List.cons.injEq, shown.ofConstant_eq_iff, ih, List.forall_mem_cons]

end ConstantImage

namespace PoolImage

/-- Whether the count goes up to the last index that is taken, and not beyond one. -/
def CountExact (image : PoolImage) : Prop :=
  image.count.toNat = stop 1 image.entries

instance (image : PoolImage) : Decidable image.CountExact :=
  inferInstanceAs (Decidable (_ = _))

variable {image : PoolImage} {pool : ConstantPool}

theorem next_foldl_push {entries : List ConstantImage} {constants : List Constant}
    (related : List.Forall₂ ConstantImage.Shows entries constants) (slots : SlotArray Constant) :
    (constants.foldl (fun slots constant => slots.push constant.width constant) slots).next =
      stop slots.next entries := by
  induction related generalizing slots with
  | nil => rfl
  | cons shows_ _ ih =>
      rw [List.foldl_cons, ih, SlotArray.push, ← shows_.width_eq]
      rfl

theorem stop_map_ofConstant {entries : List ConstantImage} {constants : List Constant}
    (related : List.Forall₂ ConstantImage.Shows entries constants) (next : Nat) :
    stop next (constants.map ConstantImage.ofConstant) = stop next entries := by
  induction related generalizing next with
  | nil => rfl
  | cons shown _ ih =>
      simp only [stop, List.map_cons, List.foldl_cons, ConstantImage.width_ofConstant,
        shown.width_eq]
      exact ih _

theorem Shows.next_eq (shows_ : image.Shows pool) : pool.next = stop 1 image.entries := by
  obtain ⟨constants, rfl, related⟩ := shows_.entries
  exact next_foldl_push related (.empty 1)

theorem Shows.fits (shows_ : image.Shows pool) : pool.Fits := by
  obtain ⟨constants, rfl, related⟩ := shows_.entries
  have each := forall_of_forall₂ related ConstantImage.Shows.fits
  rw [← ConstantPool.map_snd_slots constants] at each
  exact List.forall_mem_map.mp each

/-- The entries of a pool, written one by one. -/
theorem Shows.entries_image (shows_ : image.Shows pool) :
    ∃ constants, pool.image.entries = constants.map ConstantImage.ofConstant ∧
      List.Forall₂ ConstantImage.Shows image.entries constants := by
  obtain ⟨constants, rfl, related⟩ := shows_.entries
  refine ⟨constants, ?_, related⟩
  conv_rhs => rw [← ConstantPool.map_snd_slots constants, List.map_map]
  rfl

/-- What is written of a pool is counted up to the last index that is taken. -/
theorem Shows.count_image (shows_ : image.Shows pool) :
    pool.image.count.toNat = stop 1 pool.image.entries := by
  obtain ⟨constants, entries, related⟩ := shows_.entries_image
  rw [entries, stop_map_ofConstant related, ← shows_.next_eq]
  exact shows_.sound.toNat_next

theorem Shows.image_eq_iff (shows_ : image.Shows pool) :
    pool.image = image ↔ (∀ entry ∈ image.entries, entry.Canonical) ∧ image.CountExact := by
  obtain ⟨constants, entries, related⟩ := shows_.entries_image
  have sameCount : pool.image.count = image.count ↔ image.CountExact := by
    rw [CountExact, ← shows_.next_eq, ← shows_.sound.toNat_next, UInt16.toNat_inj, eq_comm]
    rfl
  rw [← ConstantImage.map_ofConstant_eq_iff related, ← sameCount, ← entries, PoolImage.ext_iff,
    and_comm]

end PoolImage

/-! ## Methods -/

theorem FlagSet.bits_ofBits {vocabulary : FlagVocabulary} (word : UInt16) :
    (ofBits word : FlagSet vocabulary).bits = word &&& vocabulary.known := rfl

/-- What comes of the attributes of a method: there is no code among them, or the first one with
its name is taken out, and what is behind the end of the code is lost. -/
theorem CodeAttribute.find_eq_ok {constants : ConstantPool} {slots : UInt16}
    {attributes others : List Attribute} {code : Option CodeAttribute}
    (found : find constants slots attributes = .ok (code, others)) :
    (code = none ∧ others = attributes ∧ attributes.find? (Attribute.isCode constants) = none) ∨
      ∃ item body lost, code = some ⟨item.name, body⟩ ∧
        others = attributes.eraseP (Attribute.isCode constants) ∧
        attributes.find? (Attribute.isCode constants) = some item ∧
        item.info = body.encode ++ lost ∧ body.Fits ∧ body.entrySlots = slots := by
  unfold find at found
  split at found
  · next missing =>
    cases found
    exact .inl ⟨rfl, rfl, missing⟩
  · next item first =>
    unfold ofAttribute at found
    split at found
    · next taken readCode =>
      split at readCode
      · next body lost readBody =>
        cases readCode
        cases found
        obtain ⟨⟨fits, same⟩, eq⟩ := Body.exact slots _ _ _ readBody
        exact .inr ⟨item, body, lost, rfl, rfl, first, eq, fits, same⟩
      · cases readCode
    · cases found

/-- Whether the content of an attribute is code up to its end. -/
def Attribute.IsAllCode (item : Attribute) : Prop :=
  ((Body.read 0).run item.info).map Prod.snd = .ok []

instance (item : Attribute) : Decidable item.IsAllCode :=
  inferInstanceAs (Decidable (_ = _))

/-- The parameter slots do not matter for how code is read. -/
theorem Attribute.isAllCode_iff {item : Attribute} {body : Body} {lost : Bytes}
    (info : item.info = body.encode ++ lost) (fits : body.Fits) : item.IsAllCode ↔ lost = [] := by
  have fits' : { body with entrySlots := 0 }.Fits := ⟨fits.code, fits.handlers, fits.attributes⟩
  have read : (Body.read 0).run (body.encode ++ lost) = .ok ({ body with entrySlots := 0 }, lost) :=
    Body.reads fits' lost
  rw [IsAllCode, info, read]
  simp [Except.map]

namespace MethodImage

variable {constants : ConstantPool} {image : MethodImage} {method : Method}

/-- Whether no flag is dropped. -/
def FlagsNamed (image : MethodImage) : Prop :=
  image.flags &&& methodVocabulary.known = image.flags

instance (image : MethodImage) : Decidable image.FlagsNamed :=
  inferInstanceAs (Decidable (_ = _))

/-- Whether the code, if there is any, is the first attribute and takes up all of it. -/
def CodeKept (constants : ConstantPool) (image : MethodImage) : Prop :=
  ∀ item ∈ image.attributes.find? (Attribute.isCode constants),
    image.attributes.head? = some item ∧ item.IsAllCode

instance (constants : ConstantPool) : DecidablePred (CodeKept constants) := fun image =>
  inferInstanceAs (Decidable (∀ item ∈ image.attributes.find? (Attribute.isCode constants), _))

theorem Shows.consistent (shows_ : image.Shows constants method) :
    method.Consistent constants := by
  obtain ⟨descriptor, slots, text, slotsOk, found⟩ := shows_.code
  rcases CodeAttribute.find_eq_ok found with ⟨code, -, -⟩ |
    ⟨item, body, lost, code, -, first, -, -, same⟩
  · refine ⟨⟨descriptor, slots, text, slotsOk, ?_⟩, ?_⟩
    · rw [Method.body?, code]
      rintro _ ⟨⟩
    · rw [code]
      rintro _ ⟨⟩
  · refine ⟨⟨descriptor, slots, text, slotsOk, ?_⟩, ?_⟩
    · rw [Method.body?, code]
      rintro _ ⟨⟩
      exact same
    · have isCode : item.isCode constants = true := List.find?_some first
      rw [code]
      rintro _ ⟨⟩
      exact beq_iff_eq.mp isCode

/-- Code that was read is not longer than the attribute in which it was. -/
theorem Shows.fits_method (shows_ : image.Shows constants method) : method.Fits constants := by
  obtain ⟨few, eachFits⟩ := shows_.fits
  obtain ⟨descriptor, slots, text, slotsOk, found⟩ := shows_.code
  rcases CodeAttribute.find_eq_ok found with ⟨code, others, missing⟩ |
    ⟨item, body, lost, code, others, first, info, fits, -⟩
  · rw [List.find?_eq_none] at missing
    refine ⟨?_, ?_, ?_⟩
    · rw [Method.allAttributes, code, others]
      exact shows_.fits
    · rw [Method.body?, code]
      rintro _ ⟨⟩
    · intro _ item mem
      rw [others] at mem
      exact Bool.eq_false_iff.mpr (missing item mem)
  · have mem := List.mem_of_find?_eq_some first
    have isCode := List.find?_some first
    have all : method.allAttributes =
        ⟨item.name, body.encode⟩ :: image.attributes.eraseP (Attribute.isCode constants) := by
      rw [Method.allAttributes, code, others]
      rfl
    refine ⟨?_, ?_, ?_⟩
    · have total := List.length_eraseP_of_mem mem isCode
      have positive := List.length_pos_of_mem mem
      have itemFits : item.info.length < 0x100000000 := eachFits item mem
      rw [info, List.length_append] at itemFits
      have codeFits : body.encode.length < 0x100000000 := by omega
      rw [all]
      refine ⟨?_, List.forall_mem_cons.mpr ⟨codeFits, ?_⟩⟩
      · rw [List.length_cons, total]
        omega
      · exact fun other kept => eachFits other (List.mem_of_mem_eraseP kept)
    · rw [Method.body?, code]
      rintro _ ⟨⟩
      exact fits
    · rw [code]
      rintro ⟨⟩

theorem Shows.allAttributes_eq_iff (shows_ : image.Shows constants method) :
    method.allAttributes = image.attributes ↔ image.CodeKept constants := by
  obtain ⟨descriptor, slots, text, slotsOk, found⟩ := shows_.code
  rcases CodeAttribute.find_eq_ok found with ⟨code, others, missing⟩ |
    ⟨item, body, lost, code, others, first, info, fits, -⟩
  · rw [Method.allAttributes, code, others]
    simp [CodeKept, missing]
  · have all : method.allAttributes =
        ⟨item.name, body.encode⟩ :: image.attributes.eraseP (Attribute.isCode constants) := by
      rw [Method.allAttributes, code, others]
      rfl
    have isCode := List.find?_some first
    have kept : image.CodeKept constants ↔ image.attributes.head? = some item ∧ lost = [] := by
      simp [CodeKept, first, Attribute.isAllCode_iff info fits]
    rw [all, kept]
    constructor
    · intro same
      -- the attribute that is written has the name of the one that was found, so it is the first
      have rewritten : Attribute.isCode constants ⟨item.name, body.encode⟩ = true := isCode
      rw [← same, List.find?_cons_of_pos rewritten] at first
      have written : ⟨item.name, body.encode⟩ = item := Option.some.inj first
      refine ⟨by rw [← same, List.head?_cons, written], ?_⟩
      have whole : item.info = body.encode := (congrArg Attribute.info written).symm
      exact List.self_eq_append_right.mp (whole.symm.trans info)
    · rintro ⟨head, rfl⟩
      obtain ⟨others, eq⟩ := List.head?_eq_some_iff.mp head
      rw [List.append_nil] at info
      rw [eq, List.eraseP_cons_of_pos isCode, ← info]

theorem Shows.image_eq_iff (shows_ : image.Shows constants method) :
    method.image = image ↔ image.FlagsNamed ∧ image.CodeKept constants := by
  have flags : method.flags.bits = image.flags ↔ image.FlagsNamed := by
    rw [shows_.flags, FlagSet.bits_ofBits, FlagsNamed]
  rw [← flags, ← shows_.allAttributes_eq_iff]
  constructor
  · rintro rfl
    exact ⟨rfl, rfl⟩
  · rintro ⟨sameFlags, sameAttributes⟩
    rw [Method.image, sameFlags, sameAttributes, shows_.name, shows_.descriptor]

theorem map_image_eq_iff {images : List MethodImage} {methods : List Method}
    (related : List.Forall₂ (Shows constants) images methods) :
    methods.map Method.image = images ↔
      ∀ image ∈ images, image.FlagsNamed ∧ image.CodeKept constants := by
  induction related with
  | nil => simp
  | cons shown _ ih =>
      rw [List.map_cons, List.cons.injEq, shown.image_eq_iff, ih, List.forall_mem_cons]

end MethodImage

/-! ## Classes -/

namespace ClassImage

variable {image : ClassImage} {file : ClassFile}

/-- Whether no flag of the class and of its methods is dropped. -/
def FlagsNamed (image : ClassImage) : Prop :=
  image.flags &&& classVocabulary.known = image.flags ∧
    ∀ method ∈ image.methods, method.FlagsNamed

instance (image : ClassImage) : Decidable image.FlagsNamed :=
  inferInstanceAs (Decidable (_ ∧ _))

/-- Whether all texts are written as their bytes are. -/
def TextsCanonical (image : ClassImage) : Prop :=
  ∀ entry ∈ image.constants.entries, entry.Canonical

instance (image : ClassImage) : Decidable image.TextsCanonical :=
  inferInstanceAs (Decidable (∀ entry ∈ image.constants.entries, entry.Canonical))

theorem Shows.consistent (shows_ : image.Shows file) : file.Consistent := by
  refine ⟨shows_.constants.sound, ?_⟩
  exact forall_of_forall₂ shows_.methods MethodImage.Shows.consistent

theorem Shows.fits_file (shows_ : image.Shows file) : file.Fits := by
  obtain ⟨-, interfaces, fields, methods, attributes⟩ := shows_.fits
  refine ⟨shows_.constants.fits, ?_, ?_, ⟨?_, ?_⟩, ?_⟩
  · rwa [shows_.interfaces]
  · rwa [shows_.fields]
  · rw [← shows_.methods.length_eq]
    exact methods.1
  · exact forall_of_forall₂ shows_.methods MethodImage.Shows.fits_method
  · rwa [shows_.attributes]

/-- Nothing is kept beside the constants of a class that was just read. -/
theorem Shows.justRead_eq (shows_ : image.Shows file) : file.justRead = file := by
  obtain ⟨constants, eq, -⟩ := shows_.constants.entries
  rw [ClassFile.justRead, eq, ConstantPool.justRead, ← eq]

/-- What is written of a class that was read can be read as an image. -/
theorem Shows.fits_image (shows_ : image.Shows file) : file.image.Fits := by
  have fits := shows_.fits_file
  have entriesFit : ∀ entry ∈ file.constants.image.entries, entry.Fits :=
    List.forall_mem_map.mpr fun entry mem =>
      ConstantImage.fits_ofConstant (fits.constants entry mem)
  have count := shows_.constants.count_image
  refine ⟨?_, fits.interfaces, fits.fields, ⟨?_, ?_⟩, fits.attributes⟩
  · show PoolImage.Fills file.constants.image.count.toNat 1 file.constants.image.entries
    rw [count]
    exact PoolImage.fills_stop entriesFit 1
  · show (file.methods.map Method.image).length ≤ 65535
    rw [List.length_map]
    exact fits.methods.1
  · exact List.forall_mem_map.mpr fun method mem => (fits.methods.2 method mem).attributes

theorem Shows.image_eq_iff (shows_ : image.Shows file) :
    file.image = image ↔ image.FlagsNamed ∧ image.TextsCanonical ∧ image.constants.CountExact ∧
      ∀ method ∈ image.methods, method.CodeKept file.constants := by
  have flags : file.flags.bits = image.flags ↔
      image.flags &&& classVocabulary.known = image.flags := by
    rw [shows_.flags, FlagSet.bits_ofBits]
  have methods := MethodImage.map_image_eq_iff shows_.methods
  have pool := shows_.constants.image_eq_iff
  constructor
  · intro same
    have sameFlags := flags.mp (congrArg ClassImage.flags same)
    have samePool := pool.mp (congrArg ClassImage.constants same)
    have sameMethods := methods.mp (congrArg ClassImage.methods same)
    exact ⟨⟨sameFlags, fun method mem => (sameMethods method mem).1⟩, samePool.1, samePool.2,
      fun method mem => (sameMethods method mem).2⟩
  · rintro ⟨⟨sameFlags, methodFlags⟩, texts, count, code⟩
    rw [ClassFile.image, shows_.minorVersion, shows_.majorVersion, pool.mpr ⟨texts, count⟩,
      flags.mpr sameFlags, shows_.thisClass, shows_.superClass, shows_.interfaces, shows_.fields,
      methods.mpr fun method mem => ⟨methodFlags method mem, code method mem⟩, shows_.attributes]

end ClassImage

namespace ClassFile

variable {input rest : Bytes} {file : ClassFile}

/-- A class that was read is consistent, fits into what it is written into, and keeps nothing beside
its constants. -/
theorem of_read (read : ClassFile.read.run input = .ok (file, rest)) :
    file.Consistent ∧ file.Fits ∧ file.justRead = file := by
  obtain ⟨image, shows_, -⟩ := takes_read input rest file read
  exact ⟨shows_.consistent, shows_.fits_file, shows_.justRead_eq⟩

/-- A class that was read is read again as the same class. -/
theorem reads_of_read (read : ClassFile.read.run input = .ok (file, rest)) :
    Reader.Reads ClassFile.read file.encode file := by
  obtain ⟨consistent, fits, same⟩ := of_read read
  have again := consistent.reads fits
  rwa [same] at again

end ClassFile

/-- What is written of a class that was read begins an input as its image does only if it is the
image. -/
theorem ClassImage.Shows.encode_append_eq_iff {image : ClassImage} {file : ClassFile}
    (shows_ : image.Shows file) (rest : Bytes) :
    image.encode ++ rest = file.encode ++ rest ↔ file.image = image := by
  have written := file.encode_image shows_.consistent.constants.next_le
  constructor
  · intro same
    have read := ClassImage.reads shows_.fits rest
    rw [same, ← written, ClassImage.reads shows_.fits_image rest] at read
    cases read
    rfl
  · rintro rfl
    rw [written]

namespace ClassFile

variable {input rest : Bytes} {file : ClassFile}

/-- Whatever a class was read from, it can be written with all lengths and counts as they are, and
is read again as the same class. All that was written is taken, whatever follows. -/
theorem read_encode_of_read (read : ClassFile.read.run input = .ok (file, rest)) :
    file.Fits ∧ file.constants.next ≤ 65535 ∧
      ∀ more, ClassFile.read.run (file.encode ++ more) = .ok (file, more) := by
  obtain ⟨consistent, fits, -⟩ := of_read read
  exact ⟨fits, consistent.constants.next_le, reads_of_read read⟩

/-- A class with one method. The last constant takes two indices. -/
def imageOfMethod (flags : UInt16) (name : Bytes) (count : UInt16) (attributes : List Attribute) :
    ClassImage where
  minorVersion := 0
  majorVersion := 52
  constants := ⟨count, [.text name, .text [0x28, 0x29, 0x56], .text [0x43, 0x6F, 0x64, 0x65],
    .other (.long 5)]⟩
  flags := 0x21
  thisClass := 0
  superClass := 0
  interfaces := []
  fields := []
  methods := [⟨flags, 1, 2, attributes⟩]
  attributes := []

/-- The code of a method that returns, and what comes behind it in the attribute. -/
def returnCode (behind : Bytes) : Attribute :=
  ⟨3, [0, 1, 0, 1, 0, 0, 0, 1, 0xB1, 0, 0, 0, 0] ++ behind⟩

/-- Unnamed flags, a name in too many bytes and with half of a pair, a last constant of which the
second index is not counted, and code with something behind it that comes after another
attribute. -/
theorem read_encode_of_untidy :
    let untidy := imageOfMethod 0xFFFF [0xC1, 0xA6, 0xED, 0xA0, 0x80] 5
      [⟨1, [7]⟩, returnCode [1, 2]]
    ∃ file, ClassFile.read.run (untidy.encode ++ [3]) = .ok (file, [3]) ∧
      file.encode ≠ untidy.encode ∧
      ∀ more, ClassFile.read.run (file.encode ++ more) = .ok (file, more) := by
  intro untidy
  have seen : (ClassFile.read.run (untidy.encode ++ [3])).map (fun found =>
      decide (found.2 = [3] ∧ found.1.encode ≠ untidy.encode)) = .ok true := by decide +kernel
  obtain ⟨file, rest, read, rfl, changed⟩ := Reader.exists_of_map_decide seen
  exact ⟨file, read, changed, (read_encode_of_read read).2.2⟩

/-- A class that was read is written as it was read if and only if no flag was dropped, every text
was written in the shortest way, the constants were counted up to the last index that they take, and
the code of a method, if it has any, was its first attribute and took up all of it. -/
theorem encode_eq_iff_of_read (read : ClassFile.read.run input = .ok (file, rest)) :
    ∃ image, ClassImage.read.run input = .ok (image, rest) ∧ input = image.encode ++ rest ∧
      (input = file.encode ++ rest ↔
        image.FlagsNamed ∧ image.TextsCanonical ∧ image.constants.CountExact ∧
          ∀ method ∈ image.methods, method.CodeKept file.constants) := by
  obtain ⟨image, shows_, rfl⟩ := takes_read input rest file read
  refine ⟨image, ClassImage.reads shows_.fits rest, rfl, ?_⟩
  rw [shows_.encode_append_eq_iff, shows_.image_eq_iff]

/-- A class whose method has code, and behind it another attribute and a second code. -/
theorem encode_eq_of_first_code :
    let tidy := imageOfMethod 9 [0x66] 6 [returnCode [], ⟨1, [7]⟩, returnCode [1]]
    ∃ file, ClassFile.read.run tidy.encode = .ok (file, []) ∧ tidy.encode = file.encode ∧
      ∀ method ∈ tidy.methods, method.CodeKept file.constants := by
  intro tidy
  have seen : (ClassFile.read.run tidy.encode).map (fun found =>
      decide (found.2 = [] ∧ tidy.encode = found.1.encode ++ [])) = .ok true := by decide +kernel
  obtain ⟨file, rest, read, rfl, same⟩ := Reader.exists_of_map_decide seen
  have readImage : ClassImage.read.run tidy.encode = .ok (tidy, []) := by decide +kernel
  obtain ⟨image, readAgain, -, iff⟩ := encode_eq_iff_of_read read
  cases readImage.symm.trans readAgain
  obtain ⟨-, -, -, kept⟩ := iff.mp same
  exact ⟨file, read, same.trans (List.append_nil _), kept⟩

/-- Whether an image in which all flags have names and all texts are in the shortest form is written
with other bytes after it was read. -/
def IsChanged (image : ClassImage) : Prop :=
  image.FlagsNamed ∧ image.TextsCanonical ∧ ClassImage.read.run image.encode = .ok (image, []) ∧
    ∃ file, ClassFile.read.run image.encode = .ok (file, []) ∧ file.encode ≠ image.encode

/-- Other bytes are written where the code is not the first attribute, where something is behind it,
and where the last constant is not counted as a whole. -/
theorem encode_ne_of_late_code :
    IsChanged (imageOfMethod 9 [0x66] 6 [⟨1, [7]⟩, returnCode []]) ∧
      IsChanged (imageOfMethod 9 [0x66] 6 [returnCode [1]]) ∧
      IsChanged (imageOfMethod 9 [0x66] 5 [returnCode []]) := by
  have seen : ∀ image ∈ [imageOfMethod 9 [0x66] 6 [⟨1, [7]⟩, returnCode []],
      imageOfMethod 9 [0x66] 6 [returnCode [1]], imageOfMethod 9 [0x66] 5 [returnCode []]],
      image.FlagsNamed ∧ image.TextsCanonical ∧ ClassImage.read.run image.encode = .ok (image, []) ∧
        (ClassFile.read.run image.encode).map (fun found =>
          decide (found.2 = [] ∧ found.1.encode ≠ image.encode)) = .ok true := by
    decide +kernel
  have each : ∀ image ∈ [imageOfMethod 9 [0x66] 6 [⟨1, [7]⟩, returnCode []],
      imageOfMethod 9 [0x66] 6 [returnCode [1]], imageOfMethod 9 [0x66] 5 [returnCode []]],
      IsChanged image := by
    intro image mem
    obtain ⟨flags, texts, readImage, changed⟩ := seen image mem
    obtain ⟨file, rest, read, rfl, different⟩ := Reader.exists_of_map_decide changed
    exact ⟨flags, texts, readImage, file, read, different⟩
  simpa using each

end ClassFile

end HotSwap
