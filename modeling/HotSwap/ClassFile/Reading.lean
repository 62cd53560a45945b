import HotSwap.ClassFile
import HotSwap.ClassFile.EntrySlots

/-! # Reading class files

A class file is read from front to back. Among the attributes of a method, the first
one with the right name is read as its code; bytes after the end of the code are left
out. -/

namespace HotSwap

def Attribute.read : Reader Attribute := do
  let name ← Reader.u16
  let length ← Reader.u32
  return ⟨name, ← Reader.block length.toNat⟩

def Handler.read : Reader Handler := do
  return ⟨← Reader.u16, ← Reader.u16, ← Reader.u16, ← Reader.u16⟩

/-- The content of a code attribute, in a method with the given parameter slots. -/
def Body.read (entrySlots : UInt16) : Reader Body := do
  let maxStack ← Reader.u16
  let maxLocals ← Reader.u16
  let length ← Reader.u32
  let code ← Reader.block length.toNat
  let handlers ← Reader.counted Handler.read
  let attributes ← Reader.counted Attribute.read
  return ⟨maxStack, maxLocals, entrySlots, code, handlers, attributes⟩

def Field.read : Reader Field := do
  return ⟨← Reader.u16, ← Reader.u16, ← Reader.u16, ← Reader.counted Attribute.read⟩

/-- Whether an attribute has the name of the code of a method. -/
def Attribute.isCode (constants : ConstantPool) (item : Attribute) : Bool :=
  constants.text? item.name == some CodeAttribute.attributeName

/-- Read an attribute as the code of a method. -/
def CodeAttribute.ofAttribute (entrySlots : UInt16) (item : Attribute) :
    Except FormatError CodeAttribute :=
  match Body.read entrySlots item.info with
  | .ok (body, _) => .ok ⟨item.name, body⟩
  | .error cause => .error cause

/-- Take the code out of the attributes of a method. -/
def CodeAttribute.find (constants : ConstantPool) (entrySlots : UInt16)
    (attributes : List Attribute) : Except FormatError (Option CodeAttribute × List Attribute) :=
  match attributes.find? (Attribute.isCode constants) with
  | none => .ok (none, attributes)
  | some item =>
      match ofAttribute entrySlots item with
      | .ok code => .ok (some code, attributes.eraseP (Attribute.isCode constants))
      | .error cause => .error cause

def Method.read (constants : ConstantPool) : Reader Method := do
  let flags ← FlagSet.read
  let name ← Reader.u16
  let descriptor ← Reader.u16
  match constants.text? descriptor with
  | none => throw (.badIndex descriptor .utf8)
  | some text =>
      let slots ← entrySlots flags text
      let attributes ← Reader.counted Attribute.read
      let (code, others) ← CodeAttribute.find constants slots attributes
      return ⟨flags, name, descriptor, code, others⟩

def ClassFile.read : Reader ClassFile := do
  let found ← Reader.fixed 4
  if found ≠ magic then throw (.badMagic found)
  let minorVersion ← Reader.u16
  let majorVersion ← Reader.u16
  let constants ← ConstantPool.read
  let flags ← FlagSet.read
  let thisClass ← Reader.u16
  let superClass ← Reader.u16
  let interfaces ← Reader.counted Reader.u16
  let fields ← Reader.counted Field.read
  let methods ← Reader.counted (Method.read constants)
  let attributes ← Reader.counted Attribute.read
  return {
    minorVersion, majorVersion, constants, flags, thisClass, superClass, interfaces, fields,
    methods, attributes }

end HotSwap
