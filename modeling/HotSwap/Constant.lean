import HotSwap.Text.ModifiedUtf8
import HotSwap.Wire

/-! # Constants

The entries of a constant pool. An entry refers to others by their indices in the
pool. In a class file it is a tag, which gives the kind of the entry, and what the
kind calls for. Floating point numbers stand for their bit patterns. -/

namespace HotSwap

/-- What a method handle does. -/
inductive ReferenceKind
  | getField
  | getStatic
  | putField
  | putStatic
  | invokeVirtual
  | invokeStatic
  | invokeSpecial
  | newInvokeSpecial
  | invokeInterface
  deriving DecidableEq, Repr

namespace ReferenceKind

/-- The number of a kind in a class file. -/
def number : ReferenceKind → UInt8
  | getField => 1
  | getStatic => 2
  | putField => 3
  | putStatic => 4
  | invokeVirtual => 5
  | invokeStatic => 6
  | invokeSpecial => 7
  | newInvokeSpecial => 8
  | invokeInterface => 9

/-- All kinds. -/
def all : List ReferenceKind :=
  [getField, getStatic, putField, putStatic, invokeVirtual, invokeStatic, invokeSpecial,
    newInvokeSpecial, invokeInterface]

/-- The kind with a number. -/
def ofNumber? (number : UInt8) : Option ReferenceKind :=
  all.find? fun kind => kind.number = number

def read : Reader ReferenceKind := do
  let number ← Reader.u8
  match ofNumber? number with
  | some kind => return kind
  | none => throw (.badHandleKind number)

end ReferenceKind

/-- What a class can have as a member. -/
inductive MemberKind
  | field
  | method
  | interfaceMethod
  deriving DecidableEq, Repr

/-- An entry of a constant pool. -/
inductive Constant
  | utf8 (text : String)
  | integer (value : Int32)
  | float (bits : UInt32)
  | long (value : Int64)
  | double (bits : UInt64)
  | classRef (name : UInt16)
  | string (text : UInt16)
  | member (kind : MemberKind) (owner signature : UInt16)
  | nameAndType (name descriptor : UInt16)
  | methodHandle (kind : ReferenceKind) (target : UInt16)
  | methodType (descriptor : UInt16)
  | dynamic (bootstrap signature : UInt16)
  | invokeDynamic (bootstrap signature : UInt16)
  | moduleName (name : UInt16)
  | packageName (name : UInt16)
  deriving DecidableEq, Repr

namespace Constant

/-- The number of the kind in a class file. -/
def tag : Constant → UInt8
  | utf8 _ => 1
  | integer _ => 3
  | float _ => 4
  | long _ => 5
  | double _ => 6
  | classRef _ => 7
  | string _ => 8
  | member .field _ _ => 9
  | member .method _ _ => 10
  | member .interfaceMethod _ _ => 11
  | nameAndType _ _ => 12
  | methodHandle _ _ => 15
  | methodType _ => 16
  | dynamic _ _ => 17
  | invokeDynamic _ _ => 18
  | moduleName _ => 19
  | packageName _ => 20

/-- The indices that an entry takes up. The second one of a number of eight bytes is not used. -/
def width : Constant → Nat
  | long _ | double _ => 2
  | _ => 1

theorem width_pos (constant : Constant) : 0 < constant.width := by
  cases constant <;> simp [width]

/-- What follows the tag. The length of a text is kept to two bytes. -/
def payload : Constant → Bytes
  | utf8 text =>
      let bytes := ModifiedUtf8.encode text
      Bytes.ofNat 2 bytes.length ++ bytes
  | integer value => Word.i32.encode value
  | float bits => Word.f32.encode bits
  | long value => Word.i64.encode value
  | double bits => Word.f64.encode bits
  | classRef index | string index | methodType index | moduleName index | packageName index =>
      Word.u16.encode index
  | member _ first second | nameAndType first second | dynamic first second
  | invokeDynamic first second => Word.u16.encode first ++ Word.u16.encode second
  | methodHandle kind target => Word.u8.encode kind.number ++ Word.u16.encode target

def encode (constant : Constant) : Bytes :=
  Word.u8.encode constant.tag ++ constant.payload

/-- A text with its length in front of it. -/
def readText : Reader String := do
  let bytes ← Reader.block (← Reader.u16).toNat
  match ModifiedUtf8.decode? bytes with
  | some text => return text
  | none => throw .badText

/-- What follows a tag. The index of the entry is for the case that there is no such tag. -/
def readPayload (index : Nat) (tag : UInt8) : Reader Constant :=
  match tag.toNat with
  | 1 => return utf8 (← readText)
  | 3 => return integer (← Word.i32.read)
  | 4 => return float (← Word.f32.read)
  | 5 => return long (← Word.i64.read)
  | 6 => return double (← Word.f64.read)
  | 7 => return classRef (← Reader.u16)
  | 8 => return string (← Reader.u16)
  | 9 => return member .field (← Reader.u16) (← Reader.u16)
  | 10 => return member .method (← Reader.u16) (← Reader.u16)
  | 11 => return member .interfaceMethod (← Reader.u16) (← Reader.u16)
  | 12 => return nameAndType (← Reader.u16) (← Reader.u16)
  | 15 => return methodHandle (← ReferenceKind.read) (← Reader.u16)
  | 16 => return methodType (← Reader.u16)
  | 17 => return dynamic (← Reader.u16) (← Reader.u16)
  | 18 => return invokeDynamic (← Reader.u16) (← Reader.u16)
  | 19 => return moduleName (← Reader.u16)
  | 20 => return packageName (← Reader.u16)
  | _ => throw (.badTag index tag)

/-- The entry that is going to be at an index. -/
def read (index : Nat) : Reader Constant := do
  readPayload index (← Reader.u8)

end Constant

end HotSwap
