import HotSwap.Proofs.ClassReading

/-! # Class files as they stand

An image of a class file holds what stands in its bytes, before anything is made of it: the
bytes of texts, all bits of the access flags, the count in front of the constants, and the
attributes of a method in their order, its code among them. No two images look alike: an
image is read as it was written. A class has an image too, and is written as this image. -/

namespace HotSwap

open Reader (Reads)

/-! ## Constants -/

/-- An entry of a constant pool, of which a text is not read. -/
inductive ConstantImage
  | text (content : Bytes)
  | other (constant : Constant)
  deriving DecidableEq, Repr

namespace ConstantImage

def ofConstant : Constant → ConstantImage
  | .utf8 content => .text (ModifiedUtf8.encode content)
  | constant => .other constant

/-- The constant that an entry stands for. -/
def constant? : ConstantImage → Option Constant
  | text content => (ModifiedUtf8.decode? content).map .utf8
  | other constant => some constant

def width : ConstantImage → Nat
  | text _ => 1
  | other constant => constant.width

def encode : ConstantImage → Bytes
  | text content => Word.u8.encode 1 ++ (Bytes.ofNat 2 content.length ++ content)
  | other constant => constant.encode

/-- The entry that is going to be at an index. -/
def read (index : Nat) : Reader ConstantImage := do
  let tag ← Reader.u8
  if tag = 1 then return text (← Reader.block (← Reader.u16).toNat)
  else return other (← Constant.readPayload index tag)

/-- Whether an entry can be written, and a text is not taken for something else. -/
def Fits : ConstantImage → Prop
  | text content => content.length ≤ 65535
  | other constant => constant.tag ≠ 1

variable {image : ConstantImage}

theorem width_pos (image : ConstantImage) : 0 < image.width := by
  cases image with
  | text content => exact Nat.one_pos
  | other constant => exact constant.width_pos

theorem reads (fits : image.Fits) (index : Nat) : Reads (read index) image.encode image := by
  cases image with
  | text content =>
      refine (Reader.reads_word .u8 1).bind ?_
      rw [if_pos rfl]
      refine Reader.reads_count fits ?_
      intro count eq
      exact (Reader.reads_block eq.symm).map text
  | other constant =>
      have short : constant.Fits := by
        cases constant with
        | utf8 content => exact absurd rfl fits
        | _ => trivial
      refine (Reader.reads_word .u8 constant.tag).bind ?_
      rw [if_neg fits]
      exact (Constant.reads_payload short index).map other

theorem encode_ofConstant (constant : Constant) :
    (ofConstant constant).encode = constant.encode := by
  cases constant <;> rfl

theorem width_ofConstant (constant : Constant) :
    (ofConstant constant).width = constant.width := by
  cases constant <;> rfl

theorem fits_ofConstant {constant : Constant} (fits : constant.Fits) :
    (ofConstant constant).Fits := by
  cases constant with
  | utf8 content => exact fits
  | member kind owner signature => cases kind <;> exact ne_of_beq_false rfl
  | _ => exact ne_of_beq_false rfl

end ConstantImage

/-! ## Constant pools -/

@[ext]
structure PoolImage where
  /-- The number in front of the entries. -/
  count : UInt16
  entries : List ConstantImage
  deriving DecidableEq, Repr

namespace PoolImage

/-- The index behind the last one that some entries take, of which the first one is at `next`. -/
def stop (next : Nat) (entries : List ConstantImage) : Nat :=
  entries.foldl (fun index entry => index + entry.width) next

def encode (image : PoolImage) : Bytes :=
  Bytes.ofNat 2 image.count.toNat ++ image.entries.flatMap ConstantImage.encode

/-- Read entries until the next index is not below `count` any more. -/
def readEntries (count next : Nat) : Reader (List ConstantImage) :=
  if next < count then do
    let entry ← ConstantImage.read next
    let entries ← readEntries count (next + entry.width)
    return entry :: entries
  else return []
termination_by count - next
decreasing_by
  have := entry.width_pos
  omega

def read : Reader PoolImage := do
  let count ← Reader.u16
  return ⟨count, ← readEntries count.toNat 1⟩

/-- Whether entries that can be written go on as long as the next index is below `count`, and no
longer. -/
inductive Fills (count : Nat) : Nat → List ConstantImage → Prop
  | reached {next : Nat} (reached : ¬next < count) : Fills count next []
  | entry {next : Nat} {entry : ConstantImage} {entries : List ConstantImage}
      (below : next < count) (fits : entry.Fits)
      (later : Fills count (next + entry.width) entries) : Fills count next (entry :: entries)

variable {count next : Nat} {entries : List ConstantImage} {image : PoolImage}

theorem Fills.reads (fills : Fills count next entries) :
    Reads (readEntries count next) (entries.flatMap ConstantImage.encode) entries := by
  induction fills with
  | reached reached =>
      rw [readEntries, if_neg reached]
      exact Reader.reads_pure []
  | entry below fits later ih =>
      rw [readEntries, if_pos below]
      exact (ConstantImage.reads fits _).bind (ih.map _)

theorem le_stop (next : Nat) (entries : List ConstantImage) : next ≤ stop next entries := by
  induction entries generalizing next with
  | nil => exact Nat.le_refl next
  | cons entry entries ih => exact Nat.le_trans (Nat.le_add_right _ _) (ih _)

/-- Entries go on up to the index behind them. -/
theorem fills_stop (fits : ∀ entry ∈ entries, entry.Fits) (next : Nat) :
    Fills (stop next entries) next entries := by
  induction entries generalizing next with
  | nil => exact .reached (Nat.lt_irrefl _)
  | cons entry entries ih =>
      rw [List.forall_mem_cons] at fits
      have positive := entry.width_pos
      have reached : next + entry.width ≤ stop next (entry :: entries) := le_stop _ _
      exact .entry (by omega) fits.1 (ih fits.2 _)

theorem reads (fills : Fills image.count.toNat 1 image.entries) : Reads read image.encode image :=
  (Reader.reads_word .u16 image.count).bind (fills.reads.map _)

end PoolImage

/-- A pool as it is written. -/
def ConstantPool.image (pool : ConstantPool) : PoolImage :=
  ⟨UInt16.ofNat pool.next, pool.entries.toList.map fun entry => .ofConstant entry.2⟩

/-! ## Methods and classes -/

structure MethodImage where
  flags : UInt16
  name : UInt16
  descriptor : UInt16
  /-- All attributes, with the code among them. -/
  attributes : List Attribute
  deriving DecidableEq, Repr

namespace MethodImage

def encode (image : MethodImage) : Bytes :=
  Word.u16.encode image.flags ++ Word.u16.encode image.name ++
    Word.u16.encode image.descriptor ++ Bytes.counted Attribute.encode image.attributes

def read : Reader MethodImage := do
  return ⟨← Reader.u16, ← Reader.u16, ← Reader.u16, ← Reader.counted Attribute.read⟩

def Fits (image : MethodImage) : Prop :=
  FitsCounted Attribute.Fits image.attributes

theorem reads {image : MethodImage} (fits : image.Fits) : Reads read image.encode image := by
  have word := Reader.reads_word .u16
  unfold encode
  rw [List.append_assoc, List.append_assoc]
  exact (word image.flags).bind ((word image.name).bind ((word image.descriptor).bind
    ((Attribute.reads_counted fits).map _)))

end MethodImage

/-- A method as it is written. -/
def Method.image (method : Method) : MethodImage :=
  ⟨method.flags.bits, method.name, method.descriptor, method.allAttributes⟩

structure ClassImage where
  minorVersion : UInt16
  majorVersion : UInt16
  constants : PoolImage
  flags : UInt16
  thisClass : UInt16
  superClass : UInt16
  interfaces : List UInt16
  fields : List Field
  methods : List MethodImage
  attributes : List Attribute
  deriving DecidableEq, Repr

namespace ClassImage

def encode (image : ClassImage) : Bytes :=
  ClassFile.magic ++ Word.u16.encode image.minorVersion ++ Word.u16.encode image.majorVersion ++
    image.constants.encode ++ Word.u16.encode image.flags ++ Word.u16.encode image.thisClass ++
    Word.u16.encode image.superClass ++ Bytes.counted Word.u16.encode image.interfaces ++
    Bytes.counted Field.encode image.fields ++ Bytes.counted MethodImage.encode image.methods ++
    Bytes.counted Attribute.encode image.attributes

def read : Reader ClassImage := do
  let found ← Reader.fixed 4
  if found ≠ ClassFile.magic then throw (.badMagic found)
  return {
    minorVersion := ← Reader.u16
    majorVersion := ← Reader.u16
    constants := ← PoolImage.read
    flags := ← Reader.u16
    thisClass := ← Reader.u16
    superClass := ← Reader.u16
    interfaces := ← Reader.counted Reader.u16
    fields := ← Reader.counted Field.read
    methods := ← Reader.counted MethodImage.read
    attributes := ← Reader.counted Attribute.read }

/-- Whether an image can be written, and the constants in it end where they are counted to. -/
structure Fits (image : ClassImage) : Prop where
  constants : PoolImage.Fills image.constants.count.toNat 1 image.constants.entries
  interfaces : image.interfaces.length ≤ 65535
  fields : FitsCounted Field.Fits image.fields
  methods : FitsCounted MethodImage.Fits image.methods
  attributes : FitsCounted Attribute.Fits image.attributes

theorem reads {image : ClassImage} (fits : image.Fits) : Reads read image.encode image := by
  have word := Reader.reads_word .u16
  have interfaces : Reads (Reader.counted Reader.u16)
      (Bytes.counted Word.u16.encode image.interfaces) image.interfaces :=
    Reader.reads_counted fits.interfaces fun index _ => word index
  have fields : Reads (Reader.counted Field.read)
      (Bytes.counted Field.encode image.fields) image.fields :=
    Reader.reads_counted fits.fields.1 fun field mem => Field.reads (fits.fields.2 field mem)
  have methods : Reads (Reader.counted MethodImage.read)
      (Bytes.counted MethodImage.encode image.methods) image.methods :=
    Reader.reads_counted fits.methods.1 fun method mem =>
      MethodImage.reads (fits.methods.2 method mem)
  unfold encode
  repeat rw [List.append_assoc]
  refine (Reader.reads_fixed (rfl : ClassFile.magic.length = 4)).bind ?_
  rw [if_neg (not_not.mpr rfl)]
  refine (word image.minorVersion).bind ((word image.majorVersion).bind ?_)
  refine (PoolImage.reads fits.constants).bind ((word image.flags).bind ?_)
  refine (word image.thisClass).bind ((word image.superClass).bind (interfaces.bind ?_))
  exact fields.bind (methods.bind ((Attribute.reads_counted fits.attributes).map _))

end ClassImage

namespace ClassFile

/-- A class as it is written. -/
def image (file : ClassFile) : ClassImage :=
  ⟨file.minorVersion, file.majorVersion, file.constants.image, file.flags.bits, file.thisClass,
    file.superClass, file.interfaces, file.fields, file.methods.map Method.image, file.attributes⟩

variable {file : ClassFile}

theorem encode_image (room : file.constants.next ≤ 65535) : file.image.encode = file.encode := by
  have entries : file.constants.image.entries.flatMap ConstantImage.encode =
      file.constants.entries.toList.flatMap fun entry => entry.2.encode := by
    simp only [ConstantPool.image, List.flatMap_map, ConstantImage.encode_ofConstant]
  have methods : Bytes.counted MethodImage.encode (file.methods.map Method.image) =
      Bytes.counted Method.encode file.methods := by
    rw [Bytes.counted, Bytes.counted, List.length_map, List.flatMap_map]
    rfl
  have constants : file.constants.image.encode = file.constants.encode := by
    have count : file.constants.image.count.toNat = file.constants.next :=
      UInt16.toNat_ofNat_of_lt' (Nat.lt_succ_of_le room)
    rw [PoolImage.encode, entries, count, ConstantPool.encode]
  simp only [ClassImage.encode, image, methods, constants, encode, FlagSet.encode]

end ClassFile

end HotSwap
