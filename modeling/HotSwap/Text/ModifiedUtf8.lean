import HotSwap.Bytes
import HotSwap.Text.Utf16

/-! # The text encoding of class files

Each 16 bit code unit of a text is written as a group of one, two or three bytes.
Zero takes two bytes, so that no written text holds a zero byte. Reading accepts
every group of one of the three shapes, also one that is longer than its unit
needs, and fails at anything else. -/

namespace HotSwap.ModifiedUtf8

/-- The group of bytes of a code unit. -/
def encodeUnit (unit : UInt16) : Bytes :=
  let bits := unit.toNat
  if 0 < bits ∧ bits < 0x80 then [UInt8.ofNat bits]
  else if bits < 0x800 then
    [UInt8.ofNat (0xC0 + bits / 0x40), UInt8.ofNat (0x80 + bits % 0x40)]
  else
    [UInt8.ofNat (0xE0 + bits / 0x1000), UInt8.ofNat (0x80 + bits / 0x40 % 0x40),
      UInt8.ofNat (0x80 + bits % 0x40)]

def encode (text : String) : Bytes :=
  (Utf16.encode text.toList).flatMap encodeUnit

/-- A byte that is a group by itself. -/
def isSingle (byte : UInt8) : Bool :=
  0 < byte.toNat && byte.toNat < 0x80

/-- A byte that begins a group of two. -/
def isHeadOfTwo (byte : UInt8) : Bool :=
  0xC0 ≤ byte.toNat && byte.toNat < 0xE0

/-- A byte that begins a group of three. -/
def isHeadOfThree (byte : UInt8) : Bool :=
  0xE0 ≤ byte.toNat && byte.toNat < 0xF0

/-- A byte that continues a group. -/
def isContinuation (byte : UInt8) : Bool :=
  0x80 ≤ byte.toNat && byte.toNat < 0xC0

/-- The unit of a group of two bytes. -/
def ofTwo (head tail : UInt8) : UInt16 :=
  UInt16.ofNat (head.toNat % 0x20 * 0x40 + tail.toNat % 0x40)

/-- The unit of a group of three bytes. -/
def ofThree (head middle tail : UInt8) : UInt16 :=
  UInt16.ofNat (head.toNat % 0x10 * 0x1000 + middle.toNat % 0x40 * 0x40 + tail.toNat % 0x40)

/-- Read the groups after some units, of which the last one comes first. -/
def unitsAfter : List UInt16 → Bytes → Option (List UInt16)
  | units, [] => some units.reverse
  | units, head :: rest =>
      if isSingle head then unitsAfter (head.toUInt16 :: units) rest
      else if isHeadOfTwo head then
        match rest with
        | tail :: rest =>
            if isContinuation tail then unitsAfter (ofTwo head tail :: units) rest else none
        | [] => none
      else if isHeadOfThree head then
        match rest with
        | middle :: tail :: rest =>
            if isContinuation middle && isContinuation tail then
              unitsAfter (ofThree head middle tail :: units) rest
            else none
        | _ => none
      else none

/-- The code units of a written text. -/
def units? (bytes : Bytes) : Option (List UInt16) :=
  unitsAfter [] bytes

/-- The text that is written as the given bytes. -/
def decode? (bytes : Bytes) : Option String :=
  (units? bytes).map fun units => String.ofList (Utf16.decode units)

end HotSwap.ModifiedUtf8
