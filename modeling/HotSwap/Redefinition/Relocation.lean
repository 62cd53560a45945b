/-! # Where old code is in new code

When code is inserted into a method, the code after it moves. A relocation is the list
of the insertions, in order, and takes positions in the old code to positions in the
new code and back. The old instruction before which something was inserted is found
after the insertion. -/

namespace HotSwap

/-- Code in the new version without a counterpart in the old one. -/
structure Insertion where
  /-- The position of the old instruction that comes after the inserted code. -/
  before : Nat
  /-- Where the inserted code starts in the new code. -/
  start : Nat
  /-- Where the inserted code stops in the new code, which is where the old code goes on. -/
  stop : Nat
  deriving DecidableEq, Repr

namespace Insertion

def length (insertion : Insertion) : Nat :=
  insertion.stop - insertion.start

def isEmpty (insertion : Insertion) : Bool :=
  insertion.stop == insertion.start

def render (insertion : Insertion) : String :=
  s!"{insertion.before} -> {insertion.start}..{insertion.stop}"

end Insertion

/-- The insertions that lead from old code to new code, from front to back. -/
structure Relocation where
  insertions : Array Insertion
  deriving DecidableEq, Repr

namespace Relocation

/-- Nothing is inserted. -/
def empty : Relocation :=
  ⟨#[]⟩

def toList (relocation : Relocation) : List Insertion :=
  relocation.insertions.toList

/-- Add an insertion that comes after the others. -/
def add (relocation : Relocation) (insertion : Insertion) : Relocation :=
  ⟨relocation.insertions.push insertion⟩

def isEmpty (relocation : Relocation) : Bool :=
  relocation.insertions.isEmpty

/-- The number of bytes in some insertions. -/
def inserted (insertions : List Insertion) : Nat :=
  insertions.foldr (fun insertion total => insertion.length + total) 0

/-- The number of bytes in all the insertions. -/
def length (relocation : Relocation) : Nat :=
  inserted relocation.toList

/-- The position in the new code that corresponds to one in the old code. -/
def toNew (relocation : Relocation) (position : Nat) : Nat :=
  position + inserted (relocation.toList.takeWhile (·.before ≤ position))

/-- Take a position back through insertions, of which those before had `passed` bytes. -/
def backPast (passed position : Nat) : List Insertion → Option Nat
  | [] => some (position - passed)
  | insertion :: rest =>
      if position < insertion.start then some (position - passed)
      else if position < insertion.stop then none
      else backPast (passed + insertion.length) position rest

/-- The position in the old code that corresponds to one in the new code, unless that one is in
inserted code. -/
def toOld? (relocation : Relocation) (position : Nat) : Option Nat :=
  backPast 0 position relocation.toList

/-- Whether two positions correspond to each other. -/
def corresponds (relocation : Relocation) (old new : Nat) : Bool :=
  relocation.toNew old == new

def render (relocation : Relocation) : String :=
  "[" ++ ", ".intercalate (relocation.toList.map Insertion.render) ++ "]"

theorem toList_empty : empty.toList = [] := rfl

theorem toList_add (relocation : Relocation) (insertion : Insertion) :
    (relocation.add insertion).toList = relocation.toList ++ [insertion] := by
  simp [add, toList]

end Relocation

end HotSwap
