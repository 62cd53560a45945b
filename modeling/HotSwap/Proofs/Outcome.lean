import HotSwap.Proofs.Renumbering
import HotSwap.Redefinition.Change

/-! # What a comparison comes to

A comparison looks at the frames once, for its own mode, and before it walks through the code it
looks at nothing but the lengths. The two separate decisions look at the frames each for itself.
Both ways come to the same, because bodies that can be compared exactly can be compared in any
mode. -/

namespace HotSwap

/-- Bodies that can be compared exactly can be compared in any mode. -/
theorem Mode.obstacle?_eq_none_of_exact {old new : Body}
    (unobstructed : exact.obstacle? old new = none) (mode : Mode) :
    mode.obstacle? old new = none := by
  rw [obstacle?_eq_none_iff] at unobstructed ⊢
  obtain ⟨maxStack, maxLocals, entrySlots, lengths⟩ := unobstructed
  have same : old.code.length = new.code.length := by simpa [admitsLengths] using lengths
  refine ⟨maxStack, maxLocals, entrySlots, ?_⟩
  cases mode <;> simp [admitsLengths, same]

namespace Version

variable {mode : Mode} {old new : Version}

/-- When the frames are known to be the same, only the lengths are left to be looked at before the
walk. -/
theorem equivalent_eq_of_unobstructed (unobstructed : mode.obstacle? old.body new.body = none) :
    old.equivalent new = (old.sameLength new && old.walk new == .equivalent) := by
  have lengths : (Mode.exact.obstacle? old.body new.body).isNone = old.sameLength new := by
    obtain ⟨maxStack, maxLocals, entrySlots, -⟩ := Mode.obstacle?_eq_none_iff.mp unobstructed
    rw [Bool.eq_iff_iff, Option.isNone_iff_eq_none, Mode.obstacle?_eq_none_iff]
    simp [maxStack, maxLocals, entrySlots, Mode.admitsLengths, sameLength]
  rw [equivalent, lengths]

/-- An obstacle in any mode keeps versions from being equivalent. -/
theorem equivalent_eq_false_of_obstacle {obstacle : Obstacle}
    (obstructed : mode.obstacle? old.body new.body = some obstacle) :
    old.equivalent new = false := by
  cases exact : Mode.exact.obstacle? old.body new.body with
  | none =>
      have unobstructed := Mode.obstacle?_eq_none_of_exact exact mode
      rw [obstructed] at unobstructed
      cases unobstructed
  | some other => rw [equivalent, exact, Option.isNone_some, Bool.false_and]

/-- What a comparison comes to, by what the separate decisions come to. -/
theorem compare_cases (mode : Mode) (old new : Version) :
    (old.equivalent new = true ∧ compare mode old new = .equivalent) ∨
      (old.equivalent new = false ∧ mode = .switchable ∧
        ∃ relocation, old.relocation? new = some relocation ∧
          compare mode old new = .extended relocation) ∨
      (old.equivalent new = false ∧ (mode = .switchable → old.relocation? new = none) ∧
        compare mode old new = .different (mode.obstacle? old.body new.body)) := by
  unfold compare
  cases found : mode.obstacle? old.body new.body with
  | some obstacle =>
      refine .inr (.inr ⟨equivalent_eq_false_of_obstacle found, ?_, rfl⟩)
      rintro rfl
      rw [relocation?, found]
  | none =>
      dsimp only
      unfold compareCode
      rw [← equivalent_eq_of_unobstructed found]
      cases old.equivalent new with
      | true => exact .inl ⟨rfl, rfl⟩
      | false =>
          rw [if_neg Bool.false_ne_true]
          cases mode with
          | exact => exact .inr (.inr ⟨rfl, nofun, rfl⟩)
          | switchable =>
              dsimp only
              rw [relocation?, found]
              cases (old.scan new).relocation? with
              | some relocation => exact .inr (.inl ⟨rfl, rfl, relocation, rfl, rfl⟩)
              | none => exact .inr (.inr ⟨rfl, fun _ => rfl, rfl⟩)

theorem compare_eq_equivalent_iff (mode : Mode) (old new : Version) :
    compare mode old new = .equivalent ↔ old.equivalent new = true := by
  rcases compare_cases mode old new with
    ⟨same, result⟩ | ⟨distinct, -, _, -, result⟩ | ⟨distinct, -, result⟩
  · simp [same, result]
  · simp [distinct, result]
  · simp [distinct, result]

/-- A comparison finds versions equivalent, in either mode, if the decision on equivalence does. It
finds insertions if it is to look for them, the versions are not equivalent, and the decision on
insertions finds the same ones. Otherwise the versions differ, and it names the obstacle for its
mode. There is none exactly if the frames are the same and the mode admits the lengths. -/
theorem compare_iff_decisions (mode : Mode) (old new : Version) :
    (compare mode old new = .equivalent ↔ old.equivalent new = true) ∧
      (∀ relocation : Relocation, compare mode old new = .extended relocation ↔
        mode = .switchable ∧ old.equivalent new = false ∧
          old.relocation? new = some relocation) ∧
      (∀ obstacle : Option Obstacle, compare mode old new = .different obstacle ↔
        (old.equivalent new = false ∧ (mode = .switchable → old.relocation? new = none)) ∧
          obstacle = mode.obstacle? old.body new.body) ∧
      (mode.obstacle? old.body new.body = none ↔
        old.body.maxStack = new.body.maxStack ∧ old.body.maxLocals = new.body.maxLocals ∧
          old.body.entrySlots = new.body.entrySlots ∧
          match mode with
          | .exact => old.body.code.length = new.body.code.length
          | .switchable => old.body.code.length ≤ new.body.code.length) ∧
      ∀ other : Mode, compare mode old new = .equivalent ↔
        compare other old new = .equivalent := by
  refine ⟨compare_eq_equivalent_iff mode old new, ?_, ?_, ?_, ?_⟩
  · intro relocation
    rcases compare_cases mode old new with
      ⟨same, result⟩ | ⟨distinct, rfl, found, leads, result⟩ | ⟨distinct, missing, result⟩
    · simp [same, result]
    · simp [distinct, leads, result]
    · simp only [result, reduceCtorEq, false_iff, not_and]
      intro switchable _ leads
      rw [missing switchable] at leads
      cases leads
  · intro obstacle
    rcases compare_cases mode old new with
      ⟨same, result⟩ | ⟨distinct, rfl, found, leads, result⟩ | ⟨distinct, missing, result⟩
    · simp [same, result]
    · simp [leads, result]
    · rw [result, Change.different.injEq, eq_comm]
      exact ⟨fun eq => ⟨⟨distinct, missing⟩, eq⟩, fun holds => holds.2⟩
  · rw [Mode.obstacle?_eq_none_iff]
    cases mode <;> simp [Mode.admitsLengths]
  · intro other
    rw [compare_eq_equivalent_iff, compare_eq_equivalent_iff]

end Version

end HotSwap
