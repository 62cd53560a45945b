import HotSwap.Proofs.Return
import Mathlib.Order.Monotone.Defs

/-! # Relocations that are recorded in order

Insertions are recorded from front to back: none of them is empty, and each one comes after the
last one in both codes. Going back then never takes more off a position than there is. If moreover
each insertion begins where the insertions before it have moved its old instruction, the two
directions are inverse to each other, and new positions without an old one are those in inserted
code. -/

namespace HotSwap

namespace Relocation

/-- Whether an insertion can be recorded behind those of a relocation. Only the last one of these is
looked at. -/
structure Admits (relocation : Relocation) (insertion : Insertion) : Prop where
  nonempty : insertion.start < insertion.stop
  behind : ∀ last ∈ relocation.toList.getLast?,
    last.before < insertion.before ∧ last.stop ≤ insertion.start

/-- A relocation to which insertions were added only where they can be recorded. -/
inductive Recorded : Relocation → Prop
  | empty : Recorded empty
  | add {relocation : Relocation} {insertion : Insertion} (recorded : Recorded relocation)
      (admits : relocation.Admits insertion) : Recorded (relocation.add insertion)

/-- Whether no insertion is empty, and each one is before those that follow it in both codes. -/
structure InOrder (insertions : List Insertion) : Prop where
  nonempty : ∀ insertion ∈ insertions, insertion.start < insertion.stop
  apart : insertions.Pairwise fun first second =>
    first.before < second.before ∧ first.stop ≤ second.start

/-- Whether each insertion begins where the bytes that were inserted before it have moved its old
instruction. There are `passed` bytes before the first one. -/
def Aligned (passed : Nat) : List Insertion → Prop
  | [] => True
  | insertion :: rest =>
      insertion.start = insertion.before + passed ∧ Aligned (passed + insertion.length) rest

/-- The number of bytes that are taken off a position on the way back, after `passed` bytes. There
is none in inserted code. -/
def takenOff? (passed position : Nat) : List Insertion → Option Nat
  | [] => some passed
  | insertion :: rest =>
      if position < insertion.start then some passed
      else if position < insertion.stop then none
      else takenOff? (passed + insertion.length) position rest

variable {relocation : Relocation} {insertion : Insertion} {insertions rest : List Insertion}
  {passed position old new : Nat}

namespace InOrder

theorem head (inOrder : InOrder (insertion :: rest)) :
    insertion.stop = insertion.start + insertion.length := by
  have := inOrder.nonempty insertion List.mem_cons_self
  rw [Insertion.length]
  omega

theorem tail (inOrder : InOrder (insertion :: rest)) : InOrder rest :=
  ⟨fun later mem => inOrder.nonempty later (List.mem_cons_of_mem _ mem), inOrder.apart.tail⟩

theorem before_lt (inOrder : InOrder (insertion :: rest)) {later : Insertion}
    (mem : later ∈ rest) : insertion.before < later.before :=
  (List.rel_of_pairwise_cons inOrder.apart mem).1

theorem stop_le (inOrder : InOrder (insertion :: rest)) {later : Insertion}
    (mem : later ∈ rest) : insertion.stop ≤ later.start :=
  (List.rel_of_pairwise_cons inOrder.apart mem).2

theorem ordered (inOrder : InOrder insertions) : Ordered insertions :=
  ⟨fun insertion mem => Nat.le_of_lt (inOrder.nonempty insertion mem),
    inOrder.apart.imp fun both => both.2⟩

/-- An insertion that comes after the last one comes after all the others. -/
theorem behind_all (inOrder : InOrder insertions)
    (behind : ∀ last ∈ insertions.getLast?,
      last.before < insertion.before ∧ last.stop ≤ insertion.start) :
    ∀ other ∈ insertions, other.before < insertion.before ∧ other.stop ≤ insertion.start := by
  intro other mem
  have nonempty : insertions ≠ [] := List.ne_nil_of_mem mem
  have last := behind _ (List.getLast?_eq_some_getLast nonempty)
  have lastNonempty := inOrder.nonempty _ (List.getLast_mem nonempty)
  rw [← List.dropLast_append_getLast nonempty] at mem
  have apart := inOrder.apart
  rw [← List.dropLast_append_getLast nonempty, List.pairwise_append] at apart
  rcases List.mem_append.mp mem with earlier | isLast
  · have := apart.2.2 other earlier _ List.mem_cons_self
    omega
  · rw [List.mem_singleton.mp isLast]
    exact last

end InOrder

theorem Recorded.inOrder (recorded : relocation.Recorded) : InOrder relocation.toList := by
  induction recorded with
  | empty => exact ⟨List.forall_mem_nil _, .nil⟩
  | @add relocation insertion recorded admits ih =>
      refine ⟨forall_mem_add.mpr ⟨ih.nonempty, admits.nonempty⟩, ?_⟩
      rw [toList_add, List.pairwise_append]
      refine ⟨ih.apart, List.pairwise_singleton _ _, ?_⟩
      intro other mem last isLast
      rw [List.mem_singleton.mp isLast]
      exact ih.behind_all admits.behind other mem

/-! ## What is taken off -/

theorem backPast_eq_map_takenOff? (passed position : Nat) (insertions : List Insertion) :
    backPast passed position insertions =
      (takenOff? passed position insertions).map (position - ·) := by
  induction insertions generalizing passed with
  | nil => rfl
  | cons insertion rest ih =>
      rw [backPast, takenOff?]
      split
      · rfl
      · split
        · rfl
        · exact ih _

/-- Not more is taken off than there is: what was passed lies before the next insertion. -/
theorem InOrder.takenOff?_le (inOrder : InOrder insertions) {amount : Nat}
    (room : passed ≤ position) (early : ∀ insertion ∈ insertions, passed ≤ insertion.start)
    (found : takenOff? passed position insertions = some amount) : amount ≤ position := by
  induction insertions generalizing passed with
  | nil =>
      cases found
      exact room
  | cons insertion rest ih =>
      have stop := inOrder.head
      have first := early insertion List.mem_cons_self
      rw [takenOff?] at found
      split at found
      · cases found
        exact room
      · split at found
        · cases found
        · refine ih inOrder.tail (by omega) ?_ found
          intro later mem
          have := inOrder.stop_le mem
          omega

/-! ## There and back -/

/-- What is taken to the new code is taken back to where it was. -/
theorem Aligned.backPast_toNew (aligned : Aligned passed insertions) (inOrder : InOrder insertions)
    (old : Nat) :
    backPast passed (old + passed + inserted (insertions.takeWhile (·.before ≤ old)))
      insertions = some old := by
  induction insertions generalizing passed with
  | nil => simp [backPast, inserted]
  | cons insertion rest ih =>
      obtain ⟨start, alignedRest⟩ := aligned
      have stop := inOrder.head
      by_cases reached : insertion.before ≤ old
      · have moved : old + passed +
            inserted ((insertion :: rest).takeWhile (·.before ≤ old)) =
              old + (passed + insertion.length) +
                inserted (rest.takeWhile (·.before ≤ old)) := by
          rw [List.takeWhile_cons_of_pos (by simpa using reached)]
          simp only [inserted, List.foldr_cons]
          omega
        rw [moved, backPast, if_neg (by omega), if_neg (by omega)]
        exact ih alignedRest inOrder.tail
      · have unmoved : (insertion :: rest).takeWhile (·.before ≤ old) = [] :=
          List.takeWhile_cons_of_neg (by simpa using reached)
        rw [unmoved, backPast, if_pos (by simp only [inserted, List.foldr_nil]; omega)]
        simp [inserted]

/-- What is taken back is taken to the new code where it was. -/
theorem Aligned.add_inserted_eq (aligned : Aligned passed insertions)
    (inOrder : InOrder insertions) (room : passed ≤ new)
    (back : backPast passed new insertions = some old) :
    old + passed + inserted (insertions.takeWhile (·.before ≤ old)) = new := by
  induction insertions generalizing passed with
  | nil =>
      cases back
      simp only [List.takeWhile_nil, inserted, List.foldr_nil]
      omega
  | cons insertion rest ih =>
      obtain ⟨start, alignedRest⟩ := aligned
      have stop := inOrder.head
      rw [backPast] at back
      split at back
      · cases back
        rw [List.takeWhile_cons_of_neg (by simp only [decide_eq_true_eq]; omega)]
        simp only [inserted, List.foldr_nil]
        omega
      · split at back
        · cases back
        · have eq := ih alignedRest inOrder.tail (by omega) back
          -- the position is behind the insertion: it is behind a later one, or not moved by any
          have reached : insertion.before ≤ old := by
            cases rest with
            | nil =>
                simp only [List.takeWhile_nil, inserted, List.foldr_nil] at eq
                omega
            | cons next rest =>
                have := inOrder.before_lt List.mem_cons_self
                by_cases nextReached : next.before ≤ old
                · omega
                · rw [List.takeWhile_cons_of_neg (by simpa using nextReached)] at eq
                  simp only [inserted, List.foldr_nil] at eq
                  omega
          rw [List.takeWhile_cons_of_pos (by simpa using reached)]
          simp only [inserted, List.foldr_cons] at eq ⊢
          omega

/-- The old instruction before which something was inserted is found behind the insertion. -/
theorem Aligned.add_inserted_before (aligned : Aligned passed insertions)
    (inOrder : InOrder insertions) (mem : insertion ∈ insertions) :
    insertion.before + passed +
      inserted (insertions.takeWhile (·.before ≤ insertion.before)) = insertion.stop := by
  induction insertions generalizing passed with
  | nil => cases mem
  | cons first rest ih =>
      obtain ⟨start, alignedRest⟩ := aligned
      rcases List.mem_cons.mp mem with rfl | later
      · have stop := inOrder.head
        have alone : (insertion :: rest).takeWhile (·.before ≤ insertion.before) =
            [insertion] := by
          rw [List.takeWhile_cons_of_pos (by simp)]
          cases rest with
          | nil => rfl
          | cons next rest =>
              have := inOrder.before_lt List.mem_cons_self
              rw [List.takeWhile_cons_of_neg (by simpa using this)]
        rw [alone]
        simp only [inserted, List.foldr_cons, List.foldr_nil]
        omega
      · have eq := ih alignedRest inOrder.tail later
        have reached := Nat.le_of_lt (inOrder.before_lt later)
        rw [List.takeWhile_cons_of_pos (by simpa using reached)]
        simp only [inserted, List.foldr_cons] at eq ⊢
        omega

/-- Old positions keep their order on the way to the new code. On the way back, a recorded
relocation never takes more off a position than there is, and nothing comes back of the positions in
its insertions, and of no others. If each insertion begins where those before it have moved its old
instruction, either way undoes the other, and each insertion stops at its old instruction. -/
theorem Recorded.inverse_outside_insertions (recorded : relocation.Recorded) :
    StrictMono relocation.toNew ∧
    (∀ position,
      relocation.toOld? position =
        (takenOff? 0 position relocation.toList).map (position - ·) ∧
      ∀ amount ∈ takenOff? 0 position relocation.toList, amount ≤ position) ∧
    (∀ position, relocation.toOld? position = none ↔
      ∃ insertion ∈ relocation.toList,
        insertion.start ≤ position ∧ position < insertion.stop) ∧
    (Aligned 0 relocation.toList →
      (∀ old, relocation.toOld? (relocation.toNew old) = some old) ∧
      (∀ old new, relocation.toOld? new = some old → relocation.toNew old = new) ∧
      ∀ insertion ∈ relocation.toList, relocation.toNew insertion.before = insertion.stop) := by
  have inOrder := recorded.inOrder
  refine ⟨fun _ _ lt => relocation.toNew_lt_toNew lt, ?_, ?_, ?_⟩
  · intro position
    refine ⟨backPast_eq_map_takenOff? 0 position relocation.toList, ?_⟩
    intro amount found
    exact inOrder.takenOff?_le (Nat.zero_le _) (fun _ _ => Nat.zero_le _) found
  · intro position
    rw [toOld?_eq_none_iff inOrder.ordered, covers, List.any_eq_true]
    simp only [Insertion.covers_eq_true_iff]
  · intro aligned
    refine ⟨?_, ?_, ?_⟩
    · exact fun old => aligned.backPast_toNew inOrder old
    · exact fun old new back => aligned.add_inserted_eq inOrder (Nat.zero_le _) back
    · exact fun insertion mem => aligned.add_inserted_before inOrder mem

/-- Two bytes are inserted before position 5, and three before position 10. -/
theorem inverse_of_two_insertions :
    let relocation := (empty.add ⟨5, 5, 7⟩).add ⟨10, 12, 15⟩
    relocation.Recorded ∧ Aligned 0 relocation.toList ∧ relocation.toOld? 13 = none ∧
      takenOff? 0 15 relocation.toList = some 5 ∧ relocation.toOld? (relocation.toNew 9) = some 9 ∧
      relocation.toNew 10 = 15 := by
  intro relocation
  have recorded : relocation.Recorded := by
    refine .add (.add .empty ⟨by decide, ?_⟩) ⟨by decide, ?_⟩
    · simp [empty, toList]
    · simp [empty, add, toList]
  have aligned : Aligned 0 relocation.toList := ⟨rfl, rfl, trivial⟩
  obtain ⟨-, -, uncovered, inverse⟩ := recorded.inverse_outside_insertions
  obtain ⟨thereAndBack, -, stops⟩ := inverse aligned
  refine ⟨recorded, aligned, (uncovered 13).mpr ⟨⟨10, 12, 15⟩, ?_⟩, rfl, thereAndBack 9, ?_⟩
  · decide
  · exact stops ⟨10, 12, 15⟩ (by decide)

end Relocation

end HotSwap
