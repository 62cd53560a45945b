import HotSwap.Redefinition.Deferred
import HotSwap.Redefinition.Equivalence

/-! # Instructions that can take each other's place

When code was inserted into a method, jumps have other offsets than before, but go to
corresponding places. A backward jump is checked against the insertions that are known
when it is met. The targets of forward jumps and of switches are put aside. -/

namespace HotSwap

/-- An insertion of which the end is being looked for. -/
structure Gap where
  /-- The position of the old instruction that the new code does not go on with. -/
  before : Nat
  /-- The position of the new instruction that is there instead. -/
  start : Nat
  deriving DecidableEq, Repr

/-- What is known when an old instruction is held against a new one. -/
structure Alignment where
  oldSymbols : Symbols
  newSymbols : Symbols
  relocation : Relocation
  gap : Option Gap

namespace Alignment

/-- The place to which an old position is expected to have moved, if a gap ends before the
instruction at `candidate`. -/
def expected (alignment : Alignment) (candidate position : Nat) : Nat :=
  let moved := alignment.relocation.toNew position
  match alignment.gap with
  | some gap => if gap.before ≤ position then moved + (candidate - gap.start) else moved
  | none => moved

/-- Put the targets of two jumps aside, unless one of them is before the start of the code. -/
def defer (old new : Instruction) (oldOffset newOffset : Int) : StateM Deferred Bool := do
  match old.target oldOffset, new.target newOffset with
  | some oldTarget, some newTarget =>
      modify (·.push oldTarget newTarget)
      return true
  | _, _ => return false

/-- Whether two jumps go to corresponding places, as far as that is known. -/
def sameJump (alignment : Alignment) (old new : Instruction) (oldOffset newOffset : Int) :
    StateM Deferred Bool := do
  if 0 < oldOffset ∧ 0 < newOffset then defer old new oldOffset newOffset
  else if oldOffset ≤ 0 ∧ newOffset ≤ 0 then
    match old.target oldOffset, new.target newOffset with
    | some oldTarget, some newTarget =>
        return alignment.expected new.position oldTarget == newTarget
    | _, _ => return false
  else return false

/-- Whether the distances of two switches go to corresponding places, one by one. -/
def sameDistances (old new : Instruction) : List Int → List Int → StateM Deferred Bool
  | oldOffset :: olds, newOffset :: news => do
      if ← defer old new oldOffset newOffset then sameDistances old new olds news
      else return false
  | _, _ => return true

/-- Whether the cases of two switches have the same keys and go to corresponding places. -/
def sameCases (old new : Instruction) :
    List (Int × Int) → List (Int × Int) → StateM Deferred Bool
  | (oldKey, oldOffset) :: olds, (newKey, newOffset) :: news => do
      if oldKey ≠ newKey then return false
      else if ← defer old new oldOffset newOffset then sameCases old new olds news
      else return false
  | _, _ => return true

/-- Whether the operands of two instructions mean the same in their places. -/
def sameOperands (alignment : Alignment) (old new : Instruction) : StateM Deferred Bool := do
  match old.operands, new.operands with
  | .jump oldOffset, .jump newOffset => alignment.sameJump old new oldOffset newOffset
  | .tableSwitch oldOtherwise oldLow oldHigh olds, .tableSwitch newOtherwise newLow newHigh news =>
      if ← defer old new oldOtherwise newOtherwise then
        if oldLow = newLow ∧ oldHigh = newHigh then sameDistances old new olds news
        else return false
      else return false
  | .lookupSwitch oldOtherwise olds, .lookupSwitch newOtherwise news =>
      if ← defer old new oldOtherwise newOtherwise then
        if olds.length = news.length then sameCases old new olds news else return false
      else return false
  | first, second => return first.sameMeaning alignment.oldSymbols alignment.newSymbols second

/-- Whether two instructions can take each other's place. What was put aside in deciding this is
kept only if they can. -/
def accepts (alignment : Alignment) (old new : Instruction) : StateM Deferred Bool := do
  let before := (← get).size
  let same ← if old.sameKind new then alignment.sameOperands old new else pure false
  if same then return true
  else
    modify (·.truncate before)
    return false

end Alignment

end HotSwap
