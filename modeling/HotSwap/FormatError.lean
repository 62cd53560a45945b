import HotSwap.Bytes

/-! # What can be wrong with a class file

Reading a class file, or adding to one, fails for one of a fixed set of causes.
The wording of a cause is in `FormatError.message` alone. -/

namespace HotSwap

/-- What an index into the constant pool was expected to point at. -/
inductive Referent
  | utf8
  | classOrString
  deriving DecidableEq, Repr

def Referent.text : Referent → String
  | .utf8 => "Utf8"
  | .classOrString => "Class or String"

/-- Why a class file cannot be read or extended. -/
inductive FormatError
  /-- The input ends inside a number. -/
  | endOfInput
  /-- The input ends inside a block of bytes whose length was given before it. -/
  | shortBlock (expected found : Nat)
  /-- A text is not in the class file encoding. -/
  | badText
  /-- No kind of method handle has this number. -/
  | badHandleKind (kind : UInt8)
  /-- The first four bytes are not those of a class file. -/
  | badMagic (found : Bytes)
  /-- No kind of constant has this tag. -/
  | badTag (index : Nat) (tag : UInt8)
  /-- The entry at an index is not of a kind that can be used there. -/
  | badIndex (index : UInt16) (expected : Referent)
  /-- A method descriptor does not follow the grammar. -/
  | badDescriptor (text : String)
  /-- A constant does not fit into the rest of the pool. -/
  | poolFull (offset : Nat)
  deriving DecidableEq, Repr

/-- The wording of a cause. -/
def FormatError.message : FormatError → String
  | .endOfInput => "failed to fill whole buffer"
  | .shortBlock expected found => s!"Expected {expected} bytes, found {found}"
  | .badText => "Invalid modified UTF-8"
  | .badHandleKind kind => s!"Invalid method handle kind {kind.toNat}"
  | .badMagic found => Bytes.toHex found
  | .badTag index tag => s!"index {index}, tag {tag.toNat}"
  | .badIndex index expected => s!"index {index.toNat}, expected {expected.text}"
  | .badDescriptor text => text
  | .poolFull offset => s!"offset {offset}"

end HotSwap
