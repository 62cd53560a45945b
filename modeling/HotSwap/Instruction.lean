import HotSwap.Bytes
import HotSwap.Opcode

/-! # Instructions

An instruction of a method has a position, an encoding, and operands that are read
from the encoding. A wide prefix is no instruction of its own: it is the first byte
of the instruction that it widens. -/

namespace HotSwap

/-- What an instruction works on. The offsets of jumps count from the instruction. -/
inductive Operands
  | none
  | classRef (index : UInt16)
  | arrayClass (index : UInt16) (dimensions : UInt8)
  | member (index : UInt16)
  | interfaceMember (index : UInt16) (count : UInt8)
  | callSite (index : UInt16)
  | constant (index : UInt16)
  | byte (value : Int)
  | short (value : Int)
  | elementType (code : UInt8)
  | slot (index : Nat)
  | increment (slot : Nat) (amount : Int)
  | jump (offset : Int)
  | tableSwitch (otherwise low high : Int) (offsets : List Int)
  | lookupSwitch (otherwise : Int) (cases : List (Int × Int))
  deriving DecidableEq, Repr

/-- The index into the constant pool among the operands. -/
def Operands.index? : Operands → Option UInt16
  | classRef index | arrayClass index _ | member index | interfaceMember index _
  | callSite index | constant index => some index
  | _ => Option.none

/-- An instruction at its place in the code of a method. -/
structure Instruction where
  opcode : Opcode
  position : Nat
  wide : Bool
  encoding : Bytes
  operands : Operands
  deriving DecidableEq, Repr

namespace Instruction

/-- The position after the instruction. -/
def next (instruction : Instruction) : Nat :=
  instruction.position + instruction.encoding.length

/-- The position at an offset, unless it is before the start of the code. -/
def target (instruction : Instruction) (offset : Int) : Option Nat :=
  let position := instruction.position + offset
  if 0 ≤ position then some position.toNat else none

theorem target_eq_some_iff {instruction : Instruction} {offset : Int} {place : Nat} :
    instruction.target offset = some place ↔ (place : Int) = instruction.position + offset := by
  unfold target
  dsimp only
  split
  · rw [Option.some.injEq]
    omega
  · simp only [reduceCtorEq, false_iff]
    omega

end Instruction

end HotSwap
