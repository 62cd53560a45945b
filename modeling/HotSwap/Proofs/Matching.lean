import HotSwap.Proofs.Relocation
import HotSwap.Redefinition.Matching

/-! # Deciding on two instructions without a state

Whether two instructions can take each other's place depends on them and on where old
positions are expected alone. If they can, there is a list of targets that are still to be
compared; if they cannot, nothing that was put aside on the way is left. -/

namespace HotSwap

namespace Deferred

/-- Put further pairs aside. -/
def append (deferred : Deferred) (pairs : List (Nat × Nat)) : Deferred :=
  ⟨deferred.targets ++ pairs.toArray⟩

theorem append_nil (deferred : Deferred) : deferred.append [] = deferred := by
  simp [append]

theorem append_append (deferred : Deferred) (first second : List (Nat × Nat)) :
    (deferred.append first).append second = deferred.append (first ++ second) := by
  simp [append]

theorem push_eq_append (deferred : Deferred) (old new : Nat) :
    deferred.push old new = deferred.append [(old, new)] := by
  simp [append, push]

theorem truncate_append (deferred : Deferred) (pairs : List (Nat × Nat)) :
    (deferred.append pairs).truncate deferred.size = deferred := by
  simp [append, truncate, size]

theorem toList_append (deferred : Deferred) (pairs : List (Nat × Nat)) :
    (deferred.append pairs).toList = deferred.toList ++ pairs := by
  simp [append, toList]

end Deferred

namespace Instruction

/-- The targets of jumps with the given offsets, if none is before the start of the code. -/
def targetPairs? (old new : Instruction) : List (Int × Int) → Option (List (Nat × Nat))
  | [] => some []
  | (oldOffset, newOffset) :: rest => do
      let oldTarget ← old.target oldOffset
      let newTarget ← new.target newOffset
      return (oldTarget, newTarget) :: (← targetPairs? old new rest)

/-- The targets that are still to be compared if the operands of two instructions mean the same,
where each old position is expected at its `place`. There are none if they do not. -/
def fitOperands? (oldSymbols newSymbols : Symbols) (place : Nat → Nat) (old new : Instruction) :
    Option (List (Nat × Nat)) :=
  match old.operands, new.operands with
  | .jump oldOffset, .jump newOffset =>
      match old.target oldOffset, new.target newOffset with
      | some oldTarget, some newTarget =>
          if 0 < oldOffset ∧ 0 < newOffset then some [(oldTarget, newTarget)]
          else if oldOffset ≤ 0 ∧ newOffset ≤ 0 ∧ place oldTarget = newTarget then some []
          else none
      | _, _ => none
  | .tableSwitch oldOtherwise oldLow oldHigh olds,
      .tableSwitch newOtherwise newLow newHigh news =>
      if oldLow = newLow ∧ oldHigh = newHigh then
        targetPairs? old new ((oldOtherwise, newOtherwise) :: olds.zip news)
      else none
  | .lookupSwitch oldOtherwise olds, .lookupSwitch newOtherwise news =>
      if olds.map (·.1) = news.map (·.1) then
        targetPairs? old new
          ((oldOtherwise, newOtherwise) :: (olds.map (·.2)).zip (news.map (·.2)))
      else none
  | first, second => if first.sameMeaning oldSymbols newSymbols second then some [] else none

/-- The targets that are still to be compared if a new instruction takes the place of an old one.
There are none if it cannot. -/
def fit? (oldSymbols newSymbols : Symbols) (place : Nat → Nat) (old new : Instruction) :
    Option (List (Nat × Nat)) :=
  if old.sameKind new then fitOperands? oldSymbols newSymbols place old new else none

theorem targetPairs?_cons (old new : Instruction) (offsets : Int × Int)
    (rest : List (Int × Int)) :
    targetPairs? old new (offsets :: rest) =
      (do return (← targetPairs? old new [offsets]) ++ (← targetPairs? old new rest)) := by
  simp only [targetPairs?]
  cases old.target offsets.1 with
  | none => rfl
  | some oldTarget => cases new.target offsets.2 <;> rfl

end Instruction

/-- Whether a computation puts the given pairs aside, or else fails, having put aside anything. -/
def Yields (computation : StateM Deferred Bool) (result : Option (List (Nat × Nat))) : Prop :=
  ∀ deferred, ∃ pairs, computation.run deferred = (result.isSome, deferred.append pairs) ∧
    ∀ found, result = some found → pairs = found

namespace Yields

theorem pure_eq (value : Bool) : Yields (pure value) (if value then some [] else none) := by
  intro deferred
  refine ⟨[], ?_, ?_⟩
  · rw [Deferred.append_nil]
    cases value <;> rfl
  · intro found eq
    cases value with
    | true => exact Option.some.inj eq
    | false => cases eq

/-- One computation after another, which is made only if the first one succeeds. -/
theorem andThen {first second : StateM Deferred Bool} {result more : Option (List (Nat × Nat))}
    (h : Yields first result) (h' : Yields second more) :
    Yields (do if ← first then second else return false)
      (do return (← result) ++ (← more)) := by
  intro deferred
  obtain ⟨pairs, run, found⟩ := h deferred
  change ∃ _, (StateT.bind first _).run deferred = _ ∧ _
  simp only [StateT.run, StateT.bind] at run ⊢
  rw [run]
  cases result with
  | none => exact ⟨pairs, rfl, fun _ eq => by cases eq⟩
  | some _ =>
      cases found _ rfl
      obtain ⟨later, run', found'⟩ := h' (deferred.append pairs)
      refine ⟨pairs ++ later, ?_, ?_⟩
      · change second.run (deferred.append pairs) = _
        rw [run', Deferred.append_append]
        cases more <;> rfl
      · intro all eq
        cases more with
        | none => cases eq
        | some _ =>
            cases found' _ rfl
            exact Option.some.inj eq

end Yields

namespace Alignment

open Instruction

theorem yields_defer (old new : Instruction) (oldOffset newOffset : Int) :
    Yields (defer old new oldOffset newOffset) (targetPairs? old new [(oldOffset, newOffset)]) := by
  intro deferred
  unfold defer
  cases oldFound : old.target oldOffset with
  | none => exact ⟨[], by simp [targetPairs?, oldFound, Deferred.append_nil]; rfl, by
      simp [targetPairs?, oldFound]⟩
  | some oldTarget =>
      cases newFound : new.target newOffset with
      | none => exact ⟨[], by simp [targetPairs?, oldFound, newFound, Deferred.append_nil]; rfl, by
          simp [targetPairs?, oldFound, newFound]⟩
      | some newTarget =>
          refine ⟨[(oldTarget, newTarget)], ?_, ?_⟩
          · simp [targetPairs?, oldFound, newFound, ← Deferred.push_eq_append]
            rfl
          · intro found eq
            simpa [targetPairs?, oldFound, newFound] using eq

theorem yields_sameDistances (old new : Instruction) (olds news : List Int) :
    Yields (sameDistances old new olds news) (targetPairs? old new (olds.zip news)) := by
  induction olds generalizing news with
  | nil => exact .pure_eq true
  | cons oldOffset olds ih =>
      cases news with
      | nil => exact .pure_eq true
      | cons newOffset news =>
          rw [List.zip_cons_cons, targetPairs?_cons]
          exact (yields_defer old new oldOffset newOffset).andThen (ih news)

theorem yields_sameCases (old new : Instruction) (olds news : List (Int × Int))
    (sameLength : olds.length = news.length) :
    Yields (sameCases old new olds news)
      (if olds.map (·.1) = news.map (·.1) then
        targetPairs? old new ((olds.map (·.2)).zip (news.map (·.2)))
      else none) := by
  induction olds generalizing news with
  | nil =>
      cases news with
      | nil => exact .pure_eq true
      | cons => cases sameLength
  | cons first olds ih =>
      cases news with
      | nil => cases sameLength
      | cons second news =>
          simp only [sameCases, List.map_cons, List.zip_cons_cons, List.cons.injEq]
          by_cases sameKey : first.1 = second.1
          · simp only [sameKey, ne_eq, not_true_eq_false, if_false, true_and]
            have step := (yields_defer old new first.2 second.2).andThen
              (ih news (Nat.succ.inj sameLength))
            split at step
            · next same =>
              rw [if_pos same, targetPairs?_cons]
              exact step
            · next different =>
              rw [if_neg different]
              convert step using 1
              cases targetPairs? old new [(first.2, second.2)] <;> rfl
          · simp only [sameKey, ne_eq, not_false_eq_true, if_true, false_and, if_false]
            exact .pure_eq false

theorem yields_sameJump (alignment : Alignment) (old new : Instruction)
    (oldOffset newOffset : Int) :
    Yields (alignment.sameJump old new oldOffset newOffset)
      (match old.target oldOffset, new.target newOffset with
      | some oldTarget, some newTarget =>
          if 0 < oldOffset ∧ 0 < newOffset then some [(oldTarget, newTarget)]
          else if oldOffset ≤ 0 ∧ newOffset ≤ 0 ∧
            alignment.expected new.position oldTarget = newTarget then some []
          else none
      | _, _ => none) := by
  unfold sameJump
  by_cases forward : 0 < oldOffset ∧ 0 < newOffset
  · simp only [if_pos forward]
    have step := yields_defer old new oldOffset newOffset
    simp only [targetPairs?] at step
    split
    · next oldFound newFound =>
      simpa [oldFound, newFound] using step
    · next missing =>
      convert step using 1
      cases oldFound : old.target oldOffset with
      | none => rfl
      | some oldTarget =>
          cases newFound : new.target newOffset with
          | none => rfl
          | some newTarget => exact absurd newFound (missing _ _ oldFound)
  · simp only [if_neg forward]
    by_cases backward : oldOffset ≤ 0 ∧ newOffset ≤ 0
    · simp only [backward, true_and, and_self, if_true]
      cases old.target oldOffset with
      | none => exact .pure_eq false
      | some oldTarget =>
          cases new.target newOffset with
          | none => exact .pure_eq false
          | some newTarget =>
              have step := Yields.pure_eq
                (alignment.expected new.position oldTarget == newTarget)
              simpa only [beq_iff_eq] using step
    · simp only [if_neg backward]
      split
      · next oldTarget newTarget oldFound newFound =>
        rw [if_neg (fun both => backward ⟨both.1, both.2.1⟩)]
        exact .pure_eq false
      · exact .pure_eq false

theorem yields_sameOperands (alignment : Alignment) (old new : Instruction) :
    Yields (alignment.sameOperands old new)
      (fitOperands? alignment.oldSymbols alignment.newSymbols
        (alignment.expected new.position) old new) := by
  unfold fitOperands?
  split
  · next oldOffset newOffset oldIs newIs =>
    simp only [sameOperands, oldIs, newIs]
    exact yields_sameJump alignment old new oldOffset newOffset
  · next oldOtherwise oldLow oldHigh olds newOtherwise newLow newHigh news oldIs newIs =>
    simp only [sameOperands, oldIs, newIs]
    have default := yields_defer old new oldOtherwise newOtherwise
    by_cases sameBounds : oldLow = newLow ∧ oldHigh = newHigh
    · simp only [sameBounds, and_self, if_true]
      rw [targetPairs?_cons]
      exact default.andThen (yields_sameDistances old new olds news)
    · simp only [if_neg sameBounds]
      convert default.andThen (Yields.pure_eq false) using 1
      cases targetPairs? old new [(oldOtherwise, newOtherwise)] <;> rfl
  · next oldOtherwise olds newOtherwise news oldIs newIs =>
    simp only [sameOperands, oldIs, newIs]
    have default := yields_defer old new oldOtherwise newOtherwise
    by_cases sameLength : olds.length = news.length
    · simp only [if_pos sameLength]
      convert default.andThen (yields_sameCases old new olds news sameLength) using 1
      split
      · exact targetPairs?_cons old new _ _
      · cases targetPairs? old new [(oldOtherwise, newOtherwise)] <;> rfl
    · have keysDiffer : olds.map (·.1) ≠ news.map (·.1) := fun same =>
        sameLength (by simpa using congrArg List.length same)
      simp only [if_neg sameLength, if_neg keysDiffer]
      convert default.andThen (Yields.pure_eq false) using 1
      cases targetPairs? old new [(oldOtherwise, newOtherwise)] <;> rfl
  · next noJumps noRanges noLists =>
    unfold sameOperands
    split
    · next oldIs newIs => exact (noJumps _ _ oldIs newIs).elim
    · next oldIs newIs => exact (noRanges _ _ _ _ _ _ _ _ oldIs newIs).elim
    · next oldIs newIs => exact (noLists _ _ _ _ oldIs newIs).elim
    · exact .pure_eq _

/-- A computation of which nothing is left if it fails. -/
def undoing (computation : StateM Deferred Bool) : StateM Deferred Bool := do
  let before := (← get).size
  let same ← computation
  if same then return true
  else
    modify (·.truncate before)
    return false

theorem undoing_run (computation : StateM Deferred Bool) (deferred : Deferred) :
    (undoing computation).run deferred =
      match computation.run deferred with
      | (true, after) => (true, after)
      | (false, after) => (false, after.truncate deferred.size) := by
  change StateT.run (m := Id) (do
    let same ← computation
    if same then return true
    else
      modify (·.truncate deferred.size)
      return false) deferred = _
  simp only [StateT.run, bind, StateT.bind]
  cases computation deferred with
  | mk same after => cases same <;> rfl

theorem accepts_eq_undoing (alignment : Alignment) (old new : Instruction) :
    alignment.accepts old new =
      undoing (if old.sameKind new then alignment.sameOperands old new else pure false) := by
  unfold accepts
  split <;> rfl

/-- Deciding on two instructions puts the targets aside that are to be compared, and nothing if
the instructions cannot take each other's place. -/
theorem accepts_run (alignment : Alignment) (old new : Instruction) (deferred : Deferred) :
    (alignment.accepts old new).run deferred =
      match fit? alignment.oldSymbols alignment.newSymbols (alignment.expected new.position)
        old new with
      | some pairs => (true, deferred.append pairs)
      | none => (false, deferred) := by
  have decided : Yields
      (if old.sameKind new then alignment.sameOperands old new else pure false)
      (fit? alignment.oldSymbols alignment.newSymbols (alignment.expected new.position)
        old new) := by
    unfold fit?
    split
    · exact yields_sameOperands alignment old new
    · exact .pure_eq false
  obtain ⟨pairs, run, found⟩ := decided deferred
  rw [accepts_eq_undoing, undoing_run, run]
  cases result : fit? alignment.oldSymbols alignment.newSymbols
      (alignment.expected new.position) old new with
  | none => simp only [Option.isSome_none, Deferred.truncate_append]
  | some fits => simp only [Option.isSome_some, found fits result]

end Alignment

end HotSwap
