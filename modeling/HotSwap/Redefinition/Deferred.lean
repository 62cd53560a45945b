import HotSwap.Redefinition.Relocation

/-! # Targets that are checked later

Whether a forward jump goes to the same place in old and new code can be told only when
all insertions are known. Until then, the two targets are put aside. -/

namespace HotSwap

/-- Pairs of an old and a new target, in the order in which they were put aside. -/
structure Deferred where
  targets : Array (Nat × Nat)
  deriving DecidableEq, Repr

namespace Deferred

def empty : Deferred :=
  ⟨#[]⟩

def toList (deferred : Deferred) : List (Nat × Nat) :=
  deferred.targets.toList

def size (deferred : Deferred) : Nat :=
  deferred.targets.size

def push (deferred : Deferred) (old new : Nat) : Deferred :=
  ⟨deferred.targets.push (old, new)⟩

/-- Keep only the first `count` pairs. -/
def truncate (deferred : Deferred) (count : Nat) : Deferred :=
  ⟨deferred.targets.shrink count⟩

/-- The first pair of targets that do not correspond to each other. -/
def firstStray? (deferred : Deferred) (relocation : Relocation) : Option (Nat × Nat) :=
  deferred.toList.find? fun (old, new) => !relocation.corresponds old new

theorem toList_push (deferred : Deferred) (old new : Nat) :
    (deferred.push old new).toList = deferred.toList ++ [(old, new)] := by
  simp [push, toList]

theorem toList_truncate (deferred : Deferred) (count : Nat) :
    (deferred.truncate count).toList = deferred.toList.take count := by
  simp [truncate, toList]

end Deferred

end HotSwap
