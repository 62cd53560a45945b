import HotSwap.Reader

/-! # Typed values in class files

The values of a class file are big-endian words and sequences that are preceded
by a two byte count. A `Format` names a type of such values; each format has a
printer `Format.encode` and a reader `Format.read`. Floating point numbers stand
for their bit patterns. -/

namespace HotSwap

/-- A word of fixed width. -/
inductive Word
  | u8 | i8 | u16 | i16 | u32 | i32 | u64 | i64 | f32 | f64
  deriving DecidableEq, Repr

namespace Word

/-- The width in bytes. -/
def width : Word → Nat
  | u8 | i8 => 1
  | u16 | i16 => 2
  | u32 | i32 | f32 => 4
  | u64 | i64 | f64 => 8

/-- The values of a word; those of a floating point word are its bit patterns. -/
abbrev Value : Word → Type
  | u8 => UInt8
  | i8 => Int8
  | u16 => UInt16
  | i16 => Int16
  | u32 | f32 => UInt32
  | i32 => Int32
  | u64 | f64 => UInt64
  | i64 => Int64

/-- The bits of a value, as a natural number below the capacity of the word. -/
def bits : (word : Word) → word.Value → Nat
  | u8, value => UInt8.toNat value
  | i8, value => (Int8.toUInt8 value).toNat
  | u16, value => UInt16.toNat value
  | i16, value => (Int16.toUInt16 value).toNat
  | u32, value | f32, value => UInt32.toNat value
  | i32, value => (Int32.toUInt32 value).toNat
  | u64, value | f64, value => UInt64.toNat value
  | i64, value => (Int64.toUInt64 value).toNat

/-- The value with the given bits. -/
def ofBits : (word : Word) → Nat → word.Value
  | u8, bits => UInt8.ofNat bits
  | i8, bits => (UInt8.ofNat bits).toInt8
  | u16, bits => UInt16.ofNat bits
  | i16, bits => (UInt16.ofNat bits).toInt16
  | u32, bits | f32, bits => UInt32.ofNat bits
  | i32, bits => (UInt32.ofNat bits).toInt32
  | u64, bits | f64, bits => UInt64.ofNat bits
  | i64, bits => (UInt64.ofNat bits).toInt64

def encode (word : Word) (value : word.Value) : Bytes :=
  Bytes.ofNat word.width (word.bits value)

def read (word : Word) : Reader word.Value :=
  return word.ofBits (← Reader.number word.width)

theorem bits_lt (word : Word) (value : word.Value) :
    word.bits value < Bytes.capacity word.width := by
  cases word
  case u8 | i8 => exact UInt8.toNat_lt _
  case u16 | i16 => exact UInt16.toNat_lt _
  case u32 | i32 | f32 => exact UInt32.toNat_lt _
  case u64 | i64 | f64 => exact UInt64.toNat_lt _

theorem ofBits_bits (word : Word) (value : word.Value) :
    word.ofBits (word.bits value) = value := by
  cases word <;> simp [ofBits, bits]

theorem bits_ofBits (word : Word) (bits : Nat) :
    word.bits (word.ofBits bits) = bits % Bytes.capacity word.width := by
  cases word <;> simp [Word.bits, ofBits, width, Bytes.capacity]

end Word

namespace Reader

def u8 : Reader UInt8 := Word.u8.read

def u16 : Reader UInt16 := Word.u16.read

def u32 : Reader UInt32 := Word.u32.read

/-- Items preceded by a two byte count of them. -/
def counted {α : Type} (item : Reader α) : Reader (List α) := do
  many item (← u16).toNat

end Reader

/-- The items of a list after their number, which is kept to two bytes. -/
def Bytes.counted {α : Type} (encode : α → Bytes) (items : List α) : Bytes :=
  Bytes.ofNat 2 items.length ++ items.flatMap encode

/-- A type of values that a class file can hold. -/
inductive Format
  | word (kind : Word)
  | sequence (item : Format)
  deriving DecidableEq, Repr

namespace Format

/-- The values of a format. -/
abbrev Value : Format → Type
  | word kind => kind.Value
  | sequence item => List item.Value

/-- The bytes of a value. -/
def encode : (format : Format) → format.Value → Bytes
  | word kind, value => kind.encode value
  | sequence item, values => Bytes.counted item.encode values

/-- Take a value from the front of the input. -/
def read : (format : Format) → Reader format.Value
  | word kind => kind.read
  | sequence item => Reader.counted item.read

end Format

end HotSwap
