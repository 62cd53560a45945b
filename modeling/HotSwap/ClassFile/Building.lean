import HotSwap.ClassFile
import HotSwap.ClassFile.EntrySlots

/-! # Building classes

A class begins as a public class without members. Adding to it can fail, and what was
added to the constant pool before a failure stays there. -/

namespace HotSwap

/-- A computation that changes a class. What was changed before a failure stays. -/
abbrev ClassM := ExceptT FormatError (StateM ClassFile)

namespace ClassFile

/-- A public class with a name and a superclass. -/
def create (name superName : String) : Except FormatError ClassFile :=
  let build : PoolM (UInt16 × UInt16) := do
    return (← PoolM.internClass name, ← PoolM.internClass superName)
  match build.run ConstantPool.empty with
  | (.error cause, _) => .error cause
  | (.ok (thisClass, superClass), constants) => .ok {
      minorVersion := 0
      majorVersion := 52
      constants
      flags := .publicSuper
      thisClass
      superClass
      interfaces := []
      fields := []
      methods := []
      attributes := [] }

end ClassFile

namespace ClassM

/-- Work on the constant pool of a class. -/
def onConstants {α : Type} (action : PoolM α) : ClassM α := fun file =>
  let (result, constants) := action.run file.constants
  (result, { file with constants })

/-- Add a method. The parameter slots of its body are set from its flags and descriptor. -/
def declareMethod (flags : MethodFlags) (name descriptor : String) (body : Option Body) :
    ClassM Unit := do
  let slots ← entrySlots flags descriptor
  let name ← onConstants (PoolM.internText name)
  let descriptor ← onConstants (PoolM.internText descriptor)
  let code ←
    match body with
    | none => pure none
    | some body =>
        let item ← onConstants (PoolM.internText CodeAttribute.attributeName)
        pure (some ⟨item, { body with entrySlots := slots }⟩)
  modify fun file =>
    { file with methods := file.methods ++ [⟨flags, name, descriptor, code, []⟩] }

end ClassM

end HotSwap
