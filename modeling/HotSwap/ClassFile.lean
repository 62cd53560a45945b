import HotSwap.FlagSet
import HotSwap.ConstantPool

/-! # Class files

A class file holds a constant pool, and the fields, methods and attributes of a
class. Only the code of methods has a structure here; fields and all other
attributes are kept as they are. -/

namespace HotSwap

/-- An attribute of a class, field, method or code, by the index of its name. -/
structure Attribute where
  name : UInt16
  info : Bytes
  deriving DecidableEq, Repr

/-- A range of code, and where it goes on when an exception of some class is thrown there. -/
structure Handler where
  start : UInt16
  stop : UInt16
  target : UInt16
  catchType : UInt16
  deriving DecidableEq, Repr

/-- The code of a method, and the sizes of the frame that it runs in. -/
structure Body where
  maxStack : UInt16
  maxLocals : UInt16
  /-- The local variable slots that are set at the start. They follow from the descriptor, and
  are not part of a class file. -/
  entrySlots : UInt16
  code : Bytes
  handlers : List Handler
  attributes : List Attribute
  deriving DecidableEq, Repr

structure Field where
  flags : UInt16
  name : UInt16
  descriptor : UInt16
  attributes : List Attribute
  deriving DecidableEq, Repr

/-- The attribute that holds the code of a method. -/
structure CodeAttribute where
  name : UInt16
  body : Body
  deriving DecidableEq, Repr

structure Method where
  flags : MethodFlags
  name : UInt16
  descriptor : UInt16
  /-- Abstract and native methods have no code. -/
  code : Option CodeAttribute
  /-- The attributes other than the code. -/
  attributes : List Attribute
  deriving DecidableEq, Repr

structure ClassFile where
  minorVersion : UInt16
  majorVersion : UInt16
  constants : ConstantPool
  flags : ClassFlags
  thisClass : UInt16
  /-- The index of the superclass, which is zero for the one class that has none. -/
  superClass : UInt16
  interfaces : List UInt16
  fields : List Field
  methods : List Method
  attributes : List Attribute
  deriving Repr

/-- The name of the attribute that holds the code of a method. -/
def CodeAttribute.attributeName : String := "Code"

/-- The body of a method that has code. -/
def Method.body? (method : Method) : Option Body :=
  method.code.map CodeAttribute.body

namespace ClassFile

/-- The first four bytes of every class file. -/
def magic : Bytes := [0xCA, 0xFE, 0xBA, 0xBE]

def name? (file : ClassFile) : Option String :=
  file.constants.className? file.thisClass

def methodName? (file : ClassFile) (method : Method) : Option String :=
  file.constants.text? method.name

def methodDescriptor? (file : ClassFile) (method : Method) : Option String :=
  file.constants.text? method.descriptor

/-- The first method with a name and a descriptor. -/
def method? (file : ClassFile) (name descriptor : String) : Option Method :=
  file.methods.find? fun method =>
    file.methodName? method == some name && file.methodDescriptor? method == some descriptor

end ClassFile

end HotSwap
