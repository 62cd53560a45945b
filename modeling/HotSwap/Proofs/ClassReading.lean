import HotSwap.ClassFile.Reading
import HotSwap.ClassFile.Writing
import HotSwap.Proofs.PoolReading

/-! # Class files are read as they were written

Counts and lengths have a fixed number of bytes, so lists and blocks must not be too long.
The code of a method is written as its first attribute and is found again by its name; the
parameter slots are not written, and are found again from the flags and the descriptor. A
class in which these agree is read as it was written. -/

namespace HotSwap

open Reader (Reads)

variable {constants : ConstantPool}

theorem FlagSet.reads {vocabulary : FlagVocabulary} (flags : FlagSet vocabulary) :
    Reads FlagSet.read flags.encode flags := by
  have bits : Reads Reader.u16 flags.encode flags.bits := Reader.reads_word .u16 flags.bits
  have whole := bits.map fun word => (FlagSet.ofBits word : FlagSet vocabulary)
  rwa [FlagSet.ofBits_bits] at whole

/-! ## Attributes -/

/-- Whether the length of a block can be written in front of it. -/
def Bytes.FitsBlock (bytes : Bytes) : Prop :=
  bytes.length < 0x100000000

instance (bytes : Bytes) : Decidable bytes.FitsBlock :=
  inferInstanceAs (Decidable (_ < _))

/-- Whether the length of a list can be written in front of it, and all its items can be
written. -/
def FitsCounted {α : Type} (fits : α → Prop) (items : List α) : Prop :=
  items.length ≤ 65535 ∧ ∀ item ∈ items, fits item

instance {α : Type} (fits : α → Prop) [DecidablePred fits] (items : List α) :
    Decidable (FitsCounted fits items) :=
  inferInstanceAs (Decidable (_ ∧ _))

theorem Bytes.FitsBlock.reads_length {bytes : Bytes} (fits : bytes.FitsBlock) :
    Reads Reader.u32 (Bytes.ofNat 4 bytes.length) (UInt32.ofNat bytes.length) :=
  Reader.reads_ofNat .u32 fits

theorem Bytes.FitsBlock.reads {bytes : Bytes} (fits : bytes.FitsBlock) :
    Reads (Reader.block (UInt32.ofNat bytes.length).toNat) bytes bytes :=
  Reader.reads_block (UInt32.toNat_ofNat_of_lt' fits).symm

def Attribute.Fits (item : Attribute) : Prop :=
  item.info.FitsBlock

instance : DecidablePred Attribute.Fits := fun _ => inferInstanceAs (Decidable (_ < _))

theorem Attribute.reads {item : Attribute} (fits : item.Fits) :
    Reads Attribute.read item.encode item := by
  unfold Attribute.encode
  rw [List.append_assoc]
  refine (Reader.reads_word .u16 item.name).bind (fits.reads_length.bind ?_)
  exact fits.reads.map _

theorem Attribute.reads_counted {items : List Attribute} (fits : FitsCounted Attribute.Fits items) :
    Reads (Reader.counted Attribute.read) (Bytes.counted Attribute.encode items) items :=
  Reader.reads_counted fits.1 fun item mem => Attribute.reads (fits.2 item mem)

/-! ## Code -/

theorem Handler.reads (handler : Handler) : Reads Handler.read handler.encode handler := by
  have word := Reader.reads_word .u16
  unfold Handler.encode
  rw [List.append_assoc, List.append_assoc]
  exact (word handler.start).bind ((word handler.stop).bind
    ((word handler.target).bind ((word handler.catchType).map _)))

/-- Whether a body can be written. -/
@[mk_iff]
structure Body.Fits (body : Body) : Prop where
  code : body.code.FitsBlock
  handlers : body.handlers.length ≤ 65535
  attributes : FitsCounted Attribute.Fits body.attributes

instance : DecidablePred Body.Fits := fun body => decidable_of_iff' _ (Body.fits_iff body)

theorem Body.reads {body : Body} (fits : body.Fits) :
    Reads (Body.read body.entrySlots) body.encode body := by
  have handlers : Reads (Reader.counted Handler.read)
      (Bytes.counted Handler.encode body.handlers) body.handlers :=
    Reader.reads_counted fits.handlers fun handler _ => handler.reads
  unfold Body.encode
  repeat rw [List.append_assoc]
  refine (Reader.reads_word .u16 body.maxStack).bind
    ((Reader.reads_word .u16 body.maxLocals).bind (fits.code.reads_length.bind ?_))
  exact fits.code.reads.bind (handlers.bind ((Attribute.reads_counted fits.attributes).map _))

/-! ## Fields and methods -/

def Field.Fits (field : Field) : Prop :=
  FitsCounted Attribute.Fits field.attributes

instance : DecidablePred Field.Fits := fun _ => inferInstanceAs (Decidable (_ ∧ _))

theorem Field.reads {field : Field} (fits : field.Fits) : Reads Field.read field.encode field := by
  have word := Reader.reads_word .u16
  unfold Field.encode
  rw [List.append_assoc, List.append_assoc]
  exact (word field.flags).bind ((word field.name).bind ((word field.descriptor).bind
    ((Attribute.reads_counted fits).map _)))

/-- Whether a method can be written, and read with the given constants. -/
@[mk_iff]
structure Method.Fits (constants : ConstantPool) (method : Method) : Prop where
  attributes : FitsCounted Attribute.Fits method.allAttributes
  body : ∀ body ∈ method.body?, body.Fits
  /-- What is read as code was written as code. -/
  noCode : method.code = none → ∀ item ∈ method.attributes, item.isCode constants = false

instance (constants : ConstantPool) : DecidablePred (Method.Fits constants) := fun method =>
  decidable_of_iff' _ (Method.fits_iff constants method)

/-- Whether what is not written of a method agrees with what is. -/
structure Method.Consistent (constants : ConstantPool) (method : Method) : Prop where
  slots : ∃ descriptor slots, constants.text? method.descriptor = some descriptor ∧
    entrySlots method.flags descriptor = .ok slots ∧
    ∀ body ∈ method.body?, body.entrySlots = slots
  codeName : ∀ code ∈ method.code,
    constants.text? code.name = some CodeAttribute.attributeName

theorem CodeAttribute.ofAttribute_toAttribute {code : CodeAttribute} (fits : code.body.Fits) :
    ofAttribute code.body.entrySlots code.toAttribute = .ok code := by
  have read := Body.reads fits []
  rw [List.append_nil] at read
  have read' : Body.read code.body.entrySlots code.toAttribute.info = .ok (code.body, []) := read
  rw [ofAttribute, read']
  rfl

namespace Method

variable {method : Method} {slots : UInt16}

/-- The code is found among the attributes that are written. -/
theorem find_allAttributes (consistent : method.Consistent constants)
    (fits : method.Fits constants) (same : ∀ body ∈ method.body?, body.entrySlots = slots) :
    CodeAttribute.find constants slots method.allAttributes =
      .ok (method.code, method.attributes) := by
  unfold allAttributes CodeAttribute.find
  cases found : method.code with
  | none =>
      have none : method.attributes.find? (Attribute.isCode constants) = none := by
        rw [List.find?_eq_none]
        intro item mem
        rw [fits.noCode found item mem]
        exact Bool.false_ne_true
      simp [none]
  | some code =>
      have body : code.body ∈ method.body? := by
        rw [body?, found]
        rfl
      have isCode : code.toAttribute.isCode constants = true := by
        rw [Attribute.isCode, beq_iff_eq]
        exact consistent.codeName code found
      have read := CodeAttribute.ofAttribute_toAttribute (fits.body _ body)
      rw [same _ body] at read
      simp [isCode, read]

theorem reads (consistent : method.Consistent constants) (fits : method.Fits constants) :
    Reads (Method.read constants) method.encode method := by
  obtain ⟨descriptor, slots, text, found, same⟩ := consistent.slots
  have word := Reader.reads_word .u16
  unfold encode
  rw [List.append_assoc, List.append_assoc]
  refine method.flags.reads.bind ((word method.name).bind ((word method.descriptor).bind ?_))
  rw [text]
  have code := find_allAttributes consistent fits same
  refine (Reader.reads_lift found).bind ((Attribute.reads_counted fits.attributes).bind_nil ?_)
  exact (Reader.reads_lift code).bind_nil (Reader.reads_pure _)

/-- Methods are read with the entries of a pool alone. -/
theorem read_justRead (constants : ConstantPool) :
    Method.read constants.justRead = Method.read constants := rfl

end Method

/-! ## Classes -/

namespace ClassFile

variable {file : ClassFile}

/-- Whether a class can be written. -/
@[mk_iff]
structure Fits (file : ClassFile) : Prop where
  constants : file.constants.Fits
  interfaces : file.interfaces.length ≤ 65535
  fields : FitsCounted Field.Fits file.fields
  methods : FitsCounted (Method.Fits file.constants) file.methods
  attributes : FitsCounted Attribute.Fits file.attributes

instance : DecidablePred Fits := fun file => decidable_of_iff' _ (fits_iff file)

/-- Whether the pool of a class agrees with itself and with what is not written of the methods. -/
structure Consistent (file : ClassFile) : Prop where
  constants : file.constants.Sound
  methods : ∀ method ∈ file.methods, method.Consistent file.constants

/-- The class as it is when it was just read. -/
def justRead (file : ClassFile) : ClassFile :=
  { file with constants := file.constants.justRead }

theorem Consistent.reads (consistent : file.Consistent) (fits : file.Fits) :
    Reads ClassFile.read file.encode file.justRead := by
  have word := Reader.reads_word .u16
  have interfaces : Reads (Reader.counted Reader.u16)
      (Bytes.counted Word.u16.encode file.interfaces) file.interfaces :=
    Reader.reads_counted fits.interfaces fun index _ => word index
  have fields : Reads (Reader.counted Field.read)
      (Bytes.counted Field.encode file.fields) file.fields :=
    Reader.reads_counted fits.fields.1 fun field mem => Field.reads (fits.fields.2 field mem)
  have methods : Reads (Reader.counted (Method.read file.constants.justRead))
      (Bytes.counted Method.encode file.methods) file.methods := by
    rw [Method.read_justRead]
    exact Reader.reads_counted fits.methods.1 fun method mem =>
      Method.reads (consistent.methods method mem) (fits.methods.2 method mem)
  have attributes := Attribute.reads_counted fits.attributes
  unfold encode
  repeat rw [List.append_assoc]
  refine (Reader.reads_fixed (rfl : magic.length = 4)).bind ?_
  rw [if_neg (not_not.mpr rfl)]
  refine (word file.minorVersion).bind ((word file.majorVersion).bind ?_)
  refine (consistent.constants.reads fits.constants).bind (file.flags.reads.bind ?_)
  refine (word file.thisClass).bind ((word file.superClass).bind (interfaces.bind ?_))
  exact fields.bind (methods.bind (attributes.map _))

end ClassFile

end HotSwap
