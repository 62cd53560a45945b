import HotSwap.Redefinition.Matching

/-! # Finding the insertions

The scan takes the old instructions in turn. As long as the next new instruction can
take the place of the old one, both go on. If it cannot, it begins an insertion, which
goes up to the first later instruction that can. What is left of the new code when the
old code is at its end does not matter. -/

namespace HotSwap

/-- How a scan ended. -/
inductive ScanEnd
  /-- All old instructions have their places in the new code. -/
  | complete
  /-- The new code ends before this old instruction. -/
  | newEnds (old : Instruction)
  /-- No further new instruction can take the place of this old one. -/
  | unmatched (old : Instruction)
  /-- Two jumps or switches go to places that do not correspond. -/
  | missed (old new : Nat)
  /-- There is no instruction at some position. -/
  | malformed (fault : Fault)
  deriving DecidableEq, Repr

/-- The insertions that were found, and how the scan ended. -/
structure Scan where
  relocation : Relocation
  result : ScanEnd
  deriving DecidableEq, Repr

/-- The two codes that are compared, apart from their instructions. -/
structure Comparison where
  oldSymbols : Symbols
  newSymbols : Symbols
  oldFault : Option Fault
  newFault : Option Fault

/-- The end of a code, which may be a fault. -/
def ScanEnd.atEnd (fault : Option Fault) (otherwise : ScanEnd) : ScanEnd :=
  match fault with
  | some fault => malformed fault
  | none => otherwise

namespace Comparison

/-- What is known about the next pair of instructions. -/
def alignment (comparison : Comparison) (relocation : Relocation) (gap : Option Gap) :
    Alignment :=
  ⟨comparison.oldSymbols, comparison.newSymbols, relocation, gap⟩

/-- Look for the new instruction that can take the place of an old one. Gives the position of that
instruction, and what comes after it. -/
def findEnd (alignment : Alignment) (old : Instruction) :
    List Instruction → StateM Deferred (Option (Nat × List Instruction))
  | [] => return none
  | candidate :: news => do
      if ← alignment.accepts old candidate then return some (candidate.position, news)
      else findEnd alignment old news

/-- What is to be checked when the old code is at its end. -/
def finish (relocation : Relocation) (deferred : Deferred) : ScanEnd :=
  match deferred.firstStray? relocation with
  | some (old, new) => .missed old new
  | none => .complete

/-- Scan the rest of two codes, with what was found before. -/
def scan (comparison : Comparison) (relocation : Relocation) (deferred : Deferred) :
    List Instruction → List Instruction → Scan
  | [], _ => ⟨relocation, .atEnd comparison.oldFault (finish relocation deferred)⟩
  | old :: _, [] => ⟨relocation, .atEnd comparison.newFault (.newEnds old)⟩
  | old :: olds, new :: news =>
      let (same, kept) := ((comparison.alignment relocation none).accepts old new).run deferred
      if same then scan comparison relocation kept olds news
      else
        let gap : Gap := ⟨old.position, new.position⟩
        match (findEnd (comparison.alignment relocation (some gap)) old news).run kept with
        | (some (stop, rest), kept) =>
            scan comparison (relocation.add ⟨gap.before, gap.start, stop⟩) kept olds rest
        | (none, _) => ⟨relocation, .atEnd comparison.newFault (.unmatched old)⟩

end Comparison

/-- The insertions, if they are all that differs. -/
def Scan.relocation? (scan : Scan) : Option Relocation :=
  if scan.result = .complete then some scan.relocation else none

namespace Version

/-- Scan the code of two versions. -/
def scan (old new : Version) : Scan :=
  let oldListing := old.listing
  let newListing := new.listing
  let comparison : Comparison :=
    ⟨old.symbols, new.symbols, oldListing.fault, newListing.fault⟩
  comparison.scan .empty .empty oldListing.instructions newListing.instructions

/-- The insertions that lead from one version to the other, if there is no other change. -/
def relocation? (old new : Version) : Option Relocation :=
  match Mode.switchable.obstacle? old.body new.body with
  | some _ => none
  | none => (old.scan new).relocation?

end Version

end HotSwap
