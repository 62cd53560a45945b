import HotSwap.Instruction
import HotSwap.Redefinition.Relocation
import Mathlib.Data.List.TakeWhile

/-! # Positions under a relocation

Only insertions at or before an old position move it. Insertions that are added behind
it leave the place where it is. What the insertions cover in the new code has no
counterpart in the old code; the other new instructions are kept. -/

namespace HotSwap

namespace Insertion

/-- Whether a new position is in the inserted code. -/
def covers (insertion : Insertion) (position : Nat) : Bool :=
  insertion.start ≤ position && position < insertion.stop

theorem covers_eq_true_iff {insertion : Insertion} {position : Nat} :
    insertion.covers position = true ↔
      insertion.start ≤ position ∧ position < insertion.stop := by
  simp [covers]

/-- No position is covered by insertions that start behind it. -/
theorem any_covers_eq_false {insertions : List Insertion} {position : Nat}
    (behind : ∀ insertion ∈ insertions, position < insertion.start) :
    insertions.any (·.covers position) = false := by
  rw [List.any_eq_false]
  intro insertion mem
  have := behind insertion mem
  rw [covers_eq_true_iff]
  omega

end Insertion

namespace Relocation

theorem eq_of_toList {first second : Relocation} (same : first.toList = second.toList) :
    first = second := by
  cases first
  cases second
  rw [mk.injEq]
  exact Array.toList_inj.mp same

theorem forall_mem_add {relocation : Relocation} {insertion : Insertion} {p : Insertion → Prop} :
    (∀ other ∈ (relocation.add insertion).toList, p other) ↔
      (∀ other ∈ relocation.toList, p other) ∧ p insertion := by
  rw [toList_add, List.forall_mem_append, List.forall_mem_singleton]

theorem inserted_append (earlier later : List Insertion) :
    inserted (earlier ++ later) = inserted earlier + inserted later := by
  induction earlier with
  | nil => simp [inserted]
  | cons insertion rest ih =>
      simp only [inserted, List.cons_append, List.foldr_cons] at ih ⊢
      rw [ih, Nat.add_assoc]

theorem length_add (relocation : Relocation) (insertion : Insertion) :
    (relocation.add insertion).length = relocation.length + insertion.length := by
  rw [length, toList_add, inserted_append]
  rfl

variable {relocation : Relocation} {position : Nat}

/-- Insertions behind a position do not move it. -/
theorem toNew_of_append {earlier : Relocation} {later : List Insertion}
    (extends_ : relocation.toList = earlier.toList ++ later)
    (behind : ∀ insertion ∈ later, position < insertion.before) :
    relocation.toNew position = earlier.toNew position := by
  rw [toNew, toNew, extends_]
  congr 2
  induction earlier.toList with
  | nil =>
      cases later with
      | nil => rfl
      | cons insertion rest =>
          have := behind insertion List.mem_cons_self
          simp only [List.nil_append, List.takeWhile_nil]
          rw [List.takeWhile_cons_of_neg (by simpa using this)]
  | cons insertion rest ih =>
      simp only [List.cons_append, List.takeWhile_cons, ih]

/-- Behind all insertions, positions are moved by all that was inserted. -/
theorem toNew_of_le (before : ∀ insertion ∈ relocation.toList, insertion.before ≤ position) :
    relocation.toNew position = position + relocation.length := by
  rw [toNew, length]
  congr 2
  rw [List.takeWhile_eq_self_iff]
  simpa using before

theorem inserted_takeWhile_le (insertions : List Insertion) {position later : Nat}
    (le : position ≤ later) :
    inserted (insertions.takeWhile (·.before ≤ position)) ≤
      inserted (insertions.takeWhile (·.before ≤ later)) := by
  induction insertions with
  | nil => exact Nat.le_refl _
  | cons insertion rest ih =>
      by_cases first : insertion.before ≤ position
      · have both := Nat.le_trans first le
        simp only [List.takeWhile_cons, first, both, decide_true, if_true]
        exact Nat.add_le_add_left ih _
      · rw [List.takeWhile_cons_of_neg (by simpa using first)]
        exact Nat.zero_le _

/-- Positions keep their order. -/
theorem toNew_lt_toNew (relocation : Relocation) {position later : Nat} (lt : position < later) :
    relocation.toNew position < relocation.toNew later :=
  Nat.add_lt_add_of_lt_of_le lt (inserted_takeWhile_le _ (Nat.le_of_lt lt))

/-- Whether a new position is in inserted code. -/
def covers (relocation : Relocation) (position : Nat) : Bool :=
  relocation.toList.any (·.covers position)

/-- The new instructions that are in none of the insertions. -/
def kept (relocation : Relocation) (instructions : List Instruction) : List Instruction :=
  instructions.filter fun instruction => !relocation.covers instruction.position

end Relocation

end HotSwap
