import HotSwap.Opcode.Table

/-! # Opcodes

An opcode is the place of an instruction in the table of the instruction set. The
layout of its operands gives the length of the instruction, and the group to which
it belongs. -/

namespace HotSwap

/-- An instruction of the instruction set. -/
structure Opcode where
  code : Fin 202
  deriving DecidableEq, Repr

/-- Opcodes by what they work on. -/
inductive OpcodeGroup
  | classes
  | members
  | constants
  | doubleConstants
  | byteValues
  | shortValues
  | slots
  | increments
  | jumps
  | ranges
  | cases
  | others
  deriving DecidableEq, Repr

def Shape.group : Shape → OpcodeGroup
  | classIndex | classDimensions => .classes
  | memberIndex | memberCount => .members
  | shortConstant | constant => .constants
  | doubleConstant => .doubleConstants
  | byte => .byteValues
  | short => .shortValues
  | slot => .slots
  | increment => .increments
  | jump | wideJump => .jumps
  | none | callSite | elementType => .others

def Layout.group : Layout → OpcodeGroup
  | fixed shape => shape.group
  | tableSwitch => .ranges
  | lookupSwitch => .cases
  | widePrefix => .others

namespace Opcode

/-- The opcode with a byte, if the instruction set has one. -/
def ofByte? (byte : UInt8) : Option Opcode :=
  if h : byte.toNat < 202 then some ⟨⟨byte.toNat, h⟩⟩ else none

def toByte (opcode : Opcode) : UInt8 := UInt8.ofNat opcode.code

def mnemonic (opcode : Opcode) : String := OpcodeTable.rows[opcode.code].1

def layout (opcode : Opcode) : Layout := OpcodeTable.rows[opcode.code].2

def group (opcode : Opcode) : OpcodeGroup := opcode.layout.group

/-- The length of an instruction with its opcode, if that is fixed. -/
def length? (opcode : Opcode) : Option Nat :=
  match opcode.layout with
  | .fixed shape => some (1 + shape.size)
  | _ => none

/-- The length of an instruction with its opcode and a wide prefix, if it can have one. -/
def wideLength? (opcode : Opcode) : Option Nat :=
  match opcode.layout with
  | .fixed shape => shape.wideSize?.map (2 + ·)
  | _ => none

def bipush : Opcode := ⟨0x10⟩
def sipush : Opcode := ⟨0x11⟩
def ldc : Opcode := ⟨0x12⟩
def ldcW : Opcode := ⟨0x13⟩
def iinc : Opcode := ⟨0x84⟩
def tableswitch : Opcode := ⟨0xaa⟩
def lookupswitch : Opcode := ⟨0xab⟩
def invokeinterface : Opcode := ⟨0xb9⟩
def invokedynamic : Opcode := ⟨0xba⟩
def newarray : Opcode := ⟨0xbc⟩
def wide : Opcode := ⟨0xc4⟩
def multianewarray : Opcode := ⟨0xc5⟩
def gotoW : Opcode := ⟨0xc8⟩
def jsrW : Opcode := ⟨0xc9⟩

theorem toNat_toByte (opcode : Opcode) : opcode.toByte.toNat = opcode.code := by
  have := opcode.code.isLt
  simp [toByte]
  omega

theorem ofByte?_toByte (opcode : Opcode) : ofByte? opcode.toByte = some opcode := by
  simp [ofByte?, toNat_toByte]

theorem toByte_of_ofByte? {byte : UInt8} {opcode : Opcode} (h : ofByte? byte = some opcode) :
    opcode.toByte = byte := by
  unfold ofByte? at h
  split at h
  · simp only [Option.some.injEq] at h
    subst h
    simp [toByte]
  · simp at h

end Opcode

end HotSwap
