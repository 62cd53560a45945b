import HotSwap.ClassFile
import HotSwap.Instruction.Listing
import HotSwap.Symbols

/-! # Versions of a method

A version of a method is a body together with what the indices in its code stand for.
Before any code is read, the frames of two versions are compared: a frame of the one can
serve the other only if the sizes are the same. -/

namespace HotSwap

structure Version where
  body : Body
  symbols : Symbols

namespace Version

/-- A body in a class with the given constants. -/
def ofPool (body : Body) (constants : ConstantPool) : Version :=
  ⟨body, constants.symbols⟩

/-- The instructions of a version. -/
def listing (version : Version) : Listing :=
  Listing.ofCode version.body.code

end Version

/-- How much of a change between two versions is admitted. -/
inductive Mode
  /-- The constants may be numbered in another way. -/
  | exact
  /-- In addition, code may have been inserted. -/
  | switchable
  deriving DecidableEq, Repr

/-- Why two versions cannot be compared. -/
inductive Obstacle
  | maxStack
  | maxLocals
  | entrySlots
  | codeLength
  deriving DecidableEq, Repr

namespace Obstacle

def text : Obstacle → String
  | maxStack => "max stack differs"
  | maxLocals => "max locals differs"
  | entrySlots => "parameter slots differ"
  | codeLength => "code length is incompatible"

/-- What is said about the frames of two versions. -/
def describe : Option Obstacle → String
  | some obstacle => obstacle.text
  | none => "compatible"

end Obstacle

/-- Whether the lengths of two codes allow for the changes that a mode admits. -/
def Mode.admitsLengths (mode : Mode) (old new : Nat) : Bool :=
  match mode with
  | exact => old == new
  | switchable => old ≤ new

/-- The first thing that keeps two bodies from being compared. -/
def Mode.obstacle? (mode : Mode) (old new : Body) : Option Obstacle :=
  if old.maxStack ≠ new.maxStack then some .maxStack
  else if old.maxLocals ≠ new.maxLocals then some .maxLocals
  else if old.entrySlots ≠ new.entrySlots then some .entrySlots
  else if mode.admitsLengths old.code.length new.code.length then none
  else some .codeLength

end HotSwap
