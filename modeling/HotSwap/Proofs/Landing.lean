import HotSwap.Proofs.Correspondence

/-! # Where counterparts are found

A relocation takes the position of an old instruction to that of its counterpart as long
as the tables of switches have the same padding in both codes. The padding of a switch
changes if the number of bytes that were inserted before it is no multiple of four, and
then the instructions after it are not where the relocation takes their positions. -/

namespace HotSwap

namespace Instruction

/-- The padding of some instructions together. -/
def paddings : List Instruction → Nat
  | [] => 0
  | instruction :: rest => instruction.padding + paddings rest

theorem paddings_take_succ {instructions : List Instruction} {index : Nat}
    {instruction : Instruction} (found : instructions[index]? = some instruction) :
    paddings (instructions.take (index + 1)) =
      paddings (instructions.take index) + instruction.padding := by
  induction instructions generalizing index with
  | nil => cases found
  | cons first rest ih =>
      cases index with
      | zero =>
          cases found
          exact Nat.add_comm _ _
      | succ index =>
          have later := ih found
          simp only [List.take_succ_cons, paddings] at later ⊢
          omega

/-- A table that is moved by a multiple of four has the padding that it had before. -/
theorem tablePadding_eq_iff {position moved : Nat} (le : position ≤ moved) :
    tablePadding moved = tablePadding position ↔ 4 ∣ moved - position := by
  unfold tablePadding
  omega

variable {oldSymbols newSymbols : Symbols} {place : Nat → Nat} {old new : Instruction}

/-- Counterparts are padded in the same way if they have no table or it is moved by a multiple
of four. -/
theorem Counterpart.padding_eq_iff (counterpart : Counterpart oldSymbols newSymbols place old new)
    (le : old.position ≤ new.position) :
    old.padding = new.padding ↔
      (old.operands.hasTable = true → 4 ∣ new.position - old.position) := by
  rw [padding, padding, ← counterpart.operands.hasTable_eq]
  split
  · next table =>
    rw [eq_comm, tablePadding_eq_iff le]
    exact ⟨fun divides _ => divides, fun divides => divides table⟩
  · next noTable => simp [noTable]

end Instruction

namespace Relocation

theorem le_toNew (relocation : Relocation) (position : Nat) :
    position ≤ relocation.toNew position :=
  Nat.le_add_right _ _

/-- Whether the instructions that are kept are where a relocation takes the old instructions. -/
def Locates (relocation : Relocation) (olds news : List Instruction) : Prop :=
  ∀ (index : Nat) (old : Instruction), olds[index]? = some old →
    ∃ new, (relocation.kept news)[index]? = some new ∧
      new.position = relocation.toNew old.position

end Relocation

namespace Pairing

open Instruction (paddings)

/-- Whether the counterparts are where their instructions have moved, up to the padding in front
of them. The instructions to be paired begin at the given positions, after some insertions. -/
def Drifts (pairing : Pairing) (relocation : Relocation) (oldStart newStart : Nat) : Prop :=
  ∀ (index : Nat) (old new : Instruction), pairing.pairs[index]? = some (old, new) →
    new.position + (oldStart + relocation.length +
        paddings ((pairing.pairs.map (·.1)).take index)) =
      pairing.relocation.toNew old.position +
        (newStart + paddings ((pairing.pairs.map (·.2)).take index))

variable {oldSymbols newSymbols : Symbols} {relocation : Relocation} {old new : Instruction}
  {olds news : List Instruction} {pairing : Pairing} {oldStart newStart : Nat}

theorem Drifts.cons {targets : List (Nat × Nat)}
    (drifts : pairing.Drifts relocation old.next new.next)
    (consecutive : Consecutive oldStart (old :: olds))
    (newConsecutive : Consecutive newStart (new :: news))
    (moved : pairing.relocation.toNew old.position = old.position + relocation.length)
    (sameLength : old.bareLength = new.bareLength) :
    (pairing.cons old new targets).Drifts relocation oldStart newStart := by
  have position := consecutive.position_head
  have newPosition := newConsecutive.position_head
  intro index first second found
  cases index with
  | zero =>
      cases found
      simp only [Pairing.cons, List.take_zero, moved]
      omega
  | succ index =>
      have step := drifts index first second found
      rw [consecutive.next_head, newConsecutive.next_head] at step
      simp only [Pairing.cons, List.map_cons, List.take_succ_cons, paddings] at step ⊢
      omega

/-- The bytes of an insertion may be counted as inserted or as passed in the new code. -/
theorem Drifts.of_add {gap : Insertion}
    (drifts : pairing.Drifts (relocation.add gap) oldStart gap.stop)
    (le : gap.start ≤ gap.stop) : pairing.Drifts relocation oldStart gap.start := by
  intro index first second found
  have step := drifts index first second found
  rw [Relocation.length_add, Insertion.length] at step
  omega

/-- An instruction is moved by the insertions that are known when it is paired. -/
theorem Built.toNew_position (rest : Built oldSymbols newSymbols relocation olds news pairing)
    (consecutive : Consecutive oldStart (old :: olds))
    (before : ∀ insertion ∈ relocation.toList, insertion.before ≤ old.position) :
    pairing.relocation.toNew old.position = old.position + relocation.length := by
  rw [rest.toNew_eq consecutive.tail consecutive.lt_next, Relocation.toNew_of_le before]

/-- A counterpart is off the place of its instruction by what the switches before it have gained
or lost in padding. -/
theorem Built.drifts (built : Built oldSymbols newSymbols relocation olds news pairing)
    (consecutive : Consecutive oldStart olds) (newConsecutive : Consecutive newStart news)
    (before : ∀ insertion ∈ relocation.toList, insertion.before < oldStart)
    (sameLength : ∀ pair ∈ pairing.pairs, pair.1.bareLength = pair.2.bareLength) :
    pairing.Drifts relocation oldStart newStart := by
  induction built generalizing oldStart newStart with
  | done =>
      intro index first second found
      cases found
  | @straight relocation old new olds news targets pairing fits rest ih =>
      have early := consecutive.before_le_position before
      rw [cons, List.forall_mem_cons] at sameLength
      have drifts := ih consecutive.tail newConsecutive.tail (consecutive.before_lt_next early)
        sameLength.2
      have moved := rest.toNew_position consecutive early
      exact drifts.cons consecutive newConsecutive moved sameLength.1
  | @inserted relocation gap old first found olds skipped news targets pairing gapIs fits rest ih =>
      have early : ∀ insertion ∈ (relocation.add gap).toList,
          insertion.before ≤ old.position := by
        rw [Relocation.forall_mem_add, gapIs]
        exact ⟨consecutive.before_le_position before, Nat.le_refl _⟩
      obtain ⟨middle, reached, newConsecutive'⟩ := newConsecutive.tail.drop_append
      have starts : gap.start = newStart := by
        rw [gapIs]
        exact newConsecutive.position_head
      have stops : gap.stop = middle := by
        rw [gapIs]
        exact newConsecutive'.position_head
      have first := newConsecutive.position_head
      have next := newConsecutive.lt_next
      rw [cons, List.forall_mem_cons] at sameLength
      have drifts := ih consecutive.tail newConsecutive'.tail (consecutive.before_lt_next early)
        sameLength.2
      -- with the gap among the insertions, the counterpart is at the front
      rw [← starts]
      apply Drifts.of_add _ (by omega)
      rw [stops]
      have moved := rest.toNew_position consecutive early
      exact drifts.cons consecutive newConsecutive' moved sameLength.1

end Pairing

namespace Version

open Instruction (paddings)

variable {old new : Version} {relocation : Relocation}

/-- The counterpart of an instruction is where the relocation takes it, up to the difference of
the paddings before it. -/
theorem exists_position_add_paddings (h : old.relocation? new = some relocation) {index : Nat}
    {first : Instruction} (found : old.listing.instructions[index]? = some first) :
    ∃ second, (relocation.kept new.listing.instructions)[index]? = some second ∧
      first.Counterpart old.symbols new.symbols relocation.toNew second ∧
      second.position + paddings (old.listing.instructions.take index) =
        relocation.toNew first.position +
          paddings ((relocation.kept new.listing.instructions).take index) := by
  obtain ⟨-, pairing, built, settled, rfl⟩ := exists_built h
  have counterparts :=
    built.counterpart old.consecutive_listing new.consecutive_listing settled
  obtain ⟨second, pair, kept⟩ := built.exists_pair new.consecutive_listing found
  obtain ⟨trailing, split⟩ := built.exists_kept new.consecutive_listing
  have drift := built.drifts old.consecutive_listing new.consecutive_listing
    (List.forall_mem_nil _) (fun pair mem => (counterparts pair mem).bareLength_eq) index first
    second pair
  have inside := (List.getElem?_eq_some_iff.mp pair).1
  rw [built.pairs_fst] at drift
  refine ⟨second, kept, counterparts _ (List.mem_of_getElem? pair), ?_⟩
  rw [split, List.take_append_of_le_length (by rw [List.length_map]; omega)]
  simpa [Relocation.length, Relocation.toList_empty, Relocation.inserted] using drift

/-- Where an instruction is found, the padding of its counterpart is its own if it has no table
that is moved by anything but a multiple of four. -/
theorem paddings_take_succ_eq_iff (h : old.relocation? new = some relocation) {index : Nat}
    {first : Instruction} (found : old.listing.instructions[index]? = some first)
    (same : paddings (old.listing.instructions.take index) =
      paddings ((relocation.kept new.listing.instructions).take index)) :
    paddings (old.listing.instructions.take (index + 1)) =
        paddings ((relocation.kept new.listing.instructions).take (index + 1)) ↔
      (first.operands.hasTable = true →
        4 ∣ relocation.toNew first.position - first.position) := by
  obtain ⟨second, kept, counterpart, drift⟩ := exists_position_add_paddings h found
  have landed : second.position = relocation.toNew first.position := by omega
  have le : first.position ≤ second.position := by
    rw [landed]
    exact relocation.le_toNew first.position
  rw [Instruction.paddings_take_succ found, Instruction.paddings_take_succ kept, same,
    Nat.add_left_cancel_iff, counterpart.padding_eq_iff le, landed]

/-- If all switches among the first instructions are moved by multiples of four, the padding of
these instructions does not change. -/
theorem paddings_take_eq_of_moved (h : old.relocation? new = some relocation) {index : Nat}
    (inside : index ≤ old.listing.instructions.length)
    (moved : ∀ switch ∈ old.listing.instructions.take index, switch.operands.hasTable = true →
      4 ∣ relocation.toNew switch.position - switch.position) :
    paddings (old.listing.instructions.take index) =
      paddings ((relocation.kept new.listing.instructions).take index) := by
  induction index with
  | zero => rfl
  | succ index ih =>
      have found := List.getElem?_eq_getElem inside
      rw [List.take_succ_eq_append_getElem inside, List.forall_mem_append,
        List.forall_mem_singleton] at moved
      rw [paddings_take_succ_eq_iff h found (ih (Nat.le_of_lt inside) moved.1)]
      exact moved.2

/-- If all switches but one at the end are moved by multiples of four, no padding changes. -/
theorem paddings_take_eq (h : old.relocation? new = some relocation)
    (moved : ∀ switch ∈ old.listing.instructions.dropLast, switch.operands.hasTable = true →
      4 ∣ relocation.toNew switch.position - switch.position)
    {index : Nat} (inside : index < old.listing.instructions.length) :
    paddings (old.listing.instructions.take index) =
      paddings ((relocation.kept new.listing.instructions).take index) := by
  apply paddings_take_eq_of_moved h (Nat.le_of_lt inside)
  intro switch mem
  apply moved
  rw [List.dropLast_eq_take]
  exact (List.take_sublist_take_left (Nat.le_sub_one_of_lt inside)).subset mem

/-- A relocation says where each counterpart is, except for the padding before it: the counterpart
is there if the instructions before it have as much padding in both codes. This is so for all
instructions if and only if every switch with something after it is moved by a multiple of
four. -/
theorem locates_iff_of_relocation? (h : old.relocation? new = some relocation) :
    (∀ (index : Nat) (first : Instruction), old.listing.instructions[index]? = some first →
      ∃ second, (relocation.kept new.listing.instructions)[index]? = some second ∧
        first.Counterpart old.symbols new.symbols relocation.toNew second ∧
        (second.position = relocation.toNew first.position ↔
          paddings (old.listing.instructions.take index) =
            paddings ((relocation.kept new.listing.instructions).take index))) ∧
    (relocation.Locates old.listing.instructions new.listing.instructions ↔
      ∀ switch ∈ old.listing.instructions.dropLast, switch.operands.hasTable = true →
        4 ∣ relocation.toNew switch.position - switch.position) := by
  refine ⟨?_, ?_, ?_⟩
  · intro index first found
    obtain ⟨second, kept, counterpart, drift⟩ := exists_position_add_paddings h found
    refine ⟨second, kept, counterpart, ?_⟩
    omega
  · intro located switch mem
    -- a switch with something after it: both are in place, so the padding between is the same
    have same {index : Nat} {first : Instruction}
        (found : old.listing.instructions[index]? = some first) :
        paddings (old.listing.instructions.take index) =
          paddings ((relocation.kept new.listing.instructions).take index) := by
      obtain ⟨second, kept, -, drift⟩ := exists_position_add_paddings h found
      obtain ⟨second', kept', landed⟩ := located index first found
      cases kept.symm.trans kept'
      omega
    obtain ⟨index, inside, found⟩ := List.getElem_of_mem mem
    rw [List.length_dropLast] at inside
    rw [List.getElem_dropLast] at found
    have found' := List.getElem?_eq_some_iff.mpr ⟨_, found⟩
    have next := List.getElem?_eq_getElem (Nat.add_lt_of_lt_sub inside)
    exact (paddings_take_succ_eq_iff h found' (same found')).mp (same next)
  · intro moved index first found
    obtain ⟨second, kept, -, drift⟩ := exists_position_add_paddings h found
    have same := paddings_take_eq h moved (List.getElem?_eq_some_iff.mp found).1
    exact ⟨second, kept, by omega⟩

/-- A switch that is moved by four bytes has the padding that it had before. -/
theorem locates_of_moved_by_four :
    let old := ofCode [0x1a, 0xaa, 0, 0, 0xff, 0xff, 0xff, 0xff, 0, 0, 0, 0, 0, 0, 0, 0,
      0xff, 0xff, 0xff, 0xff, 0xb1]
    let new := ofCode [0, 0, 0, 0, 0x1a, 0xaa, 0, 0, 0xff, 0xff, 0xff, 0xff, 0, 0, 0, 0, 0, 0, 0, 0,
      0xff, 0xff, 0xff, 0xff, 0xb1]
    let relocation : Relocation := ⟨#[⟨0, 0, 4⟩]⟩
    old.relocation? new = some relocation ∧
      relocation.Locates old.listing.instructions new.listing.instructions := by
  intro old new relocation
  have h : old.relocation? new = some relocation := by decide +kernel
  refine ⟨h, (locates_iff_of_relocation? h).2.mpr ?_⟩
  decide +kernel

/-- A switch that is moved by one byte loses a byte of padding. The instruction after it stays
where it was, but the relocation takes its position one byte further, where there is none. -/
theorem not_locates_of_moved_by_one :
    let old := ofCode [0x1a, 0xaa, 0, 0, 0xff, 0xff, 0xff, 0xff, 0, 0, 0, 0, 0, 0, 0, 0,
      0xff, 0xff, 0xff, 0xff, 0xb1]
    let new := ofCode [0, 0x1a, 0xaa, 0, 0xff, 0xff, 0xff, 0xff, 0, 0, 0, 0, 0, 0, 0, 0,
      0xff, 0xff, 0xff, 0xff, 0xb1]
    let relocation : Relocation := ⟨#[⟨0, 0, 1⟩]⟩
    old.relocation? new = some relocation ∧
      ∃ first ∈ old.listing.instructions, ∀ second ∈ new.listing.instructions,
        second.position ≠ relocation.toNew first.position := by
  decide +kernel

end Version

end HotSwap
