import HotSwap.Proofs.Landing

/-! # The way back

A relocation also takes positions in the new code back. It leads nowhere from inserted
code, and it leads from a counterpart to its instruction, as long as the counterpart is
where the relocation takes the instruction. The new code that comes after the last
counterpart is not an insertion: from there, the way leads behind the end of the old code. -/

namespace HotSwap

/-- Every instruction ends before those that follow it. -/
theorem Consecutive.pairwise_next_le {start : Nat} {instructions : List Instruction}
    (h : Consecutive start instructions) :
    instructions.Pairwise fun first second => first.next ≤ second.position := by
  induction h with
  | nil => exact .nil
  | cons read tail ih => exact .cons (fun later mem => tail.le_position mem) ih

theorem Consecutive.next_eq {start : Nat} {instructions : List Instruction}
    (h : Consecutive start instructions) {instruction : Instruction}
    (mem : instruction ∈ instructions) :
    instruction.next = instruction.position + instruction.padding + instruction.bareLength := by
  obtain ⟨position, input, read⟩ := h.exists_decode mem
  rw [Instruction.next, Instruction.length_encoding_eq read, Nat.add_assoc]

/-- The last instruction of a complete listing ends where the code ends. -/
theorem Cursor.Lists.next_getLast {cursor : Cursor} {listing : Listing} (h : cursor.Lists listing)
    (complete : listing.fault = none) {last : Instruction}
    (found : listing.instructions.getLast? = some last) :
    last.next = cursor.position + cursor.rest.length := by
  induction h with
  | atEnd => cases found
  | fault => cases complete
  | @step position input instruction listing read tail ih =>
      have bound := Instruction.length_encoding read
      have start := Instruction.position_decode read
      have code := tail.flatMap_encoding complete
      dsimp only at found complete code ih ⊢
      cases remaining : listing.instructions with
      | nil =>
          rw [remaining] at found code
          rw [List.getLast?_singleton] at found
          cases found
          have := congrArg List.length code
          rw [List.flatMap_nil, List.length_nil, List.length_drop] at this
          rw [Instruction.next]
          omega
      | cons first rest =>
          rw [remaining] at found ih
          rw [ih complete (by rwa [List.getLast?_cons_cons] at found), Instruction.next,
            List.length_drop]
          omega

namespace Relocation

/-- Whether insertions follow each other in the new code, and none of them stops before it
starts. -/
structure Ordered (insertions : List Insertion) : Prop where
  start_le_stop : ∀ insertion ∈ insertions, insertion.start ≤ insertion.stop
  apart : insertions.Pairwise fun first second => first.stop ≤ second.start

variable {insertions : List Insertion} {insertion : Insertion} {position : Nat}

theorem Ordered.cons (ordered : Ordered insertions) (le : insertion.start ≤ insertion.stop)
    (behind : ∀ later ∈ insertions, insertion.stop ≤ later.start) :
    Ordered (insertion :: insertions) :=
  ⟨List.forall_mem_cons.mpr ⟨le, ordered.start_le_stop⟩, .cons behind ordered.apart⟩

theorem Ordered.tail (ordered : Ordered (insertion :: insertions)) : Ordered insertions :=
  ⟨fun later mem => ordered.start_le_stop later (List.mem_cons_of_mem _ mem),
    ordered.apart.tail⟩

/-- On the way back, inserted code leads nowhere, and other positions lose what was inserted before
them. -/
theorem Ordered.backPast_eq (ordered : Ordered insertions) (passed : Nat) :
    backPast passed position insertions =
      if insertions.any (·.covers position) then none
      else some (position - (passed + inserted (insertions.takeWhile (·.stop ≤ position)))) := by
  induction insertions generalizing passed with
  | nil => rfl
  | cons insertion rest ih =>
      have le := ordered.start_le_stop insertion List.mem_cons_self
      have behind := (List.pairwise_cons.mp ordered.apart).1
      rw [backPast, List.any_cons]
      split
      · next early =>
        have uncovered : insertion.covers position = false := by
          rw [← Bool.not_eq_true, Insertion.covers_eq_true_iff]
          omega
        have uncoveredRest : rest.any (·.covers position) = false := by
          apply Insertion.any_covers_eq_false
          intro later mem
          have := behind later mem
          omega
        have none : (insertion :: rest).takeWhile (·.stop ≤ position) = [] := by
          rw [List.takeWhile_cons_of_neg]
          simpa using (by omega : position < insertion.stop)
        simp [uncovered, uncoveredRest, none, inserted]
      · next started =>
        split
        · next inside =>
          have covered : insertion.covers position = true :=
            Insertion.covers_eq_true_iff.mpr ⟨by omega, inside⟩
          simp [covered]
        · next past =>
          have uncovered : insertion.covers position = false := by
            rw [← Bool.not_eq_true, Insertion.covers_eq_true_iff]
            omega
          have first : (insertion :: rest).takeWhile (·.stop ≤ position) =
              insertion :: rest.takeWhile (·.stop ≤ position) := by
            rw [List.takeWhile_cons_of_pos]
            simpa using Nat.le_of_not_lt past
          have total : inserted (insertion :: rest.takeWhile (·.stop ≤ position)) =
              insertion.length + inserted (rest.takeWhile (·.stop ≤ position)) := rfl
          rw [ih ordered.tail, uncovered, Bool.false_or, first, total, Nat.add_assoc]

end Relocation

namespace Pairing

/-- How insertions lie between pairs: each one ends at the counterpart of the instruction before
which it is recorded, and is passed by the old and the new instruction of a pair together. -/
structure Threads (oldStart newStart : Nat) (insertions : List Insertion)
    (pairs : List (Instruction × Instruction)) : Prop where
  ordered : Relocation.Ordered insertions
  starts : ∀ insertion ∈ insertions,
    oldStart ≤ insertion.before ∧ newStart ≤ insertion.start
  ends : ∀ insertion ∈ insertions, ∃ pair ∈ pairs,
    insertion.before = pair.1.position ∧ insertion.stop = pair.2.position
  beside : ∀ pair ∈ pairs, ∀ insertion ∈ insertions,
    (insertion.before ≤ pair.1.position ↔ insertion.stop ≤ pair.2.position)

namespace Threads

variable {oldStart newStart : Nat} {insertions : List Insertion}
  {pairs : List (Instruction × Instruction)} {old new : Instruction}
  {olds news : List Instruction}

theorem straight (threads : Threads old.next new.next insertions pairs)
    (consecutive : Consecutive oldStart (old :: olds))
    (newConsecutive : Consecutive newStart (new :: news)) :
    Threads oldStart newStart insertions ((old, new) :: pairs) := by
  have position := consecutive.position_head
  have newPosition := newConsecutive.position_head
  have next := consecutive.lt_next
  have newNext := newConsecutive.lt_next
  refine ⟨threads.ordered, ?_, ?_, ?_⟩
  · intro insertion mem
    have := threads.starts insertion mem
    omega
  · intro insertion mem
    obtain ⟨pair, pairMem, ends⟩ := threads.ends insertion mem
    exact ⟨pair, List.mem_cons_of_mem _ pairMem, ends⟩
  · rw [List.forall_mem_cons]
    refine ⟨?_, threads.beside⟩
    intro insertion mem
    have := threads.starts insertion mem
    have := threads.ordered.start_le_stop insertion mem
    dsimp only
    omega

theorem inserted {gap : Insertion} (threads : Threads oldStart gap.stop insertions pairs)
    (le : gap.start ≤ gap.stop) (before : gap.before = oldStart)
    (ends : ∃ pair ∈ pairs, gap.before = pair.1.position ∧ gap.stop = pair.2.position)
    (behind : ∀ pair ∈ pairs, gap.before ≤ pair.1.position ∧ gap.stop ≤ pair.2.position) :
    Threads oldStart gap.start (gap :: insertions) pairs := by
  refine ⟨threads.ordered.cons le fun later mem => (threads.starts later mem).2, ?_, ?_, ?_⟩
  · rw [List.forall_mem_cons]
    refine ⟨⟨Nat.le_of_eq before.symm, Nat.le_refl _⟩, ?_⟩
    intro insertion mem
    have := threads.starts insertion mem
    omega
  · exact List.forall_mem_cons.mpr ⟨ends, threads.ends⟩
  · intro pair mem
    rw [List.forall_mem_cons]
    exact ⟨iff_of_true (behind pair mem).1 (behind pair mem).2, threads.beside pair mem⟩

end Threads

namespace Built

variable {oldSymbols newSymbols : Symbols} {relocation : Relocation}
  {olds news : List Instruction} {pairing : Pairing} {oldStart newStart : Nat}

theorem mem_of_mem_pairs (built : Built oldSymbols newSymbols relocation olds news pairing)
    {pair : Instruction × Instruction} (mem : pair ∈ pairing.pairs) :
    pair.1 ∈ olds ∧ pair.2 ∈ news := by
  constructor
  · rw [← built.pairs_fst]
    exact List.mem_map_of_mem mem
  · exact built.pairs_snd_sublist.subset (List.mem_map_of_mem mem)

theorem exists_threads (built : Built oldSymbols newSymbols relocation olds news pairing)
    (consecutive : Consecutive oldStart olds) (newConsecutive : Consecutive newStart news) :
    ∃ later, pairing.relocation.toList = relocation.toList ++ later ∧
      Threads oldStart newStart later pairing.pairs := by
  induction built generalizing oldStart newStart with
  | done relocation news =>
      refine ⟨[], (List.append_nil _).symm, ⟨List.forall_mem_nil _, .nil⟩, ?_, ?_, ?_⟩
      · exact List.forall_mem_nil _
      · exact List.forall_mem_nil _
      · exact List.forall_mem_nil _
  | straight fits rest ih =>
      obtain ⟨later, eq, threads⟩ := ih consecutive.tail newConsecutive.tail
      exact ⟨later, eq, threads.straight consecutive newConsecutive⟩
  | @inserted relocation gap old first found olds skipped news targets pairing gapIs fits rest ih =>
      obtain ⟨middle, reached, newConsecutive'⟩ := newConsecutive.tail.drop_append
      obtain ⟨later, eq, threads⟩ := ih consecutive.tail newConsecutive'.tail
      have before : gap.before = old.position := by rw [gapIs]
      have starts : gap.start = newStart := by rw [gapIs, ← newConsecutive.position_head]
      have stops : gap.stop = found.position := by rw [gapIs]
      have middleIs := newConsecutive'.position_head
      have position := consecutive.position_head
      have firstPosition := newConsecutive.position_head
      have firstNext := newConsecutive.lt_next
      have whole := threads.straight consecutive newConsecutive'
      rw [Relocation.toList_add, List.append_assoc, List.singleton_append] at eq
      refine ⟨gap :: later, eq, ?_⟩
      rw [← middleIs, ← stops] at whole
      rw [← starts]
      refine whole.inserted (by omega) (by omega) ⟨_, List.mem_cons_self, before, stops⟩ ?_
      rw [before, stops, List.forall_mem_cons]
      refine ⟨⟨Nat.le_refl _, Nat.le_refl _⟩, ?_⟩
      intro pair mem
      obtain ⟨oldMem, newMem⟩ := rest.mem_of_mem_pairs mem
      exact ⟨Nat.le_of_lt (consecutive.position_lt oldMem),
        Nat.le_of_lt (newConsecutive'.position_lt newMem)⟩

/-- What is kept behind the counterparts comes after all of them. -/
theorem next_le_of_kept (built : Built oldSymbols newSymbols .empty olds news pairing)
    (newConsecutive : Consecutive newStart news) {index : Nat} {new : Instruction}
    (behind : olds.length ≤ index) (kept : (pairing.relocation.kept news)[index]? = some new) :
    ∀ pair ∈ pairing.pairs, pair.2.next ≤ new.position := by
  obtain ⟨trailing, split⟩ := built.exists_kept newConsecutive
  have inOrder : (pairing.relocation.kept news).Pairwise
      fun first second => first.next ≤ second.position :=
    newConsecutive.pairwise_next_le.sublist List.filter_sublist
  have count : (pairing.pairs.map (·.2)).length = olds.length := by
    rw [← built.pairs_fst, List.length_map, List.length_map]
  rw [split, List.getElem?_append_right (by omega)] at kept
  rw [split, List.pairwise_append] at inOrder
  intro pair mem
  exact inOrder.2.2 _ (List.mem_map_of_mem mem) new (List.mem_of_getElem? kept)

end Built

end Pairing

namespace Relocation

variable {relocation : Relocation} {position : Nat}

theorem toOld?_eq (ordered : Ordered relocation.toList) (position : Nat) :
    relocation.toOld? position =
      if relocation.covers position then none
      else some (position - inserted (relocation.toList.takeWhile (·.stop ≤ position))) := by
  rw [toOld?, ordered.backPast_eq, Nat.zero_add]
  rfl

/-- What is kept is not in inserted code. -/
theorem covers_of_getElem?_kept {news : List Instruction} {index : Nat} {new : Instruction}
    (kept : (relocation.kept news)[index]? = some new) :
    relocation.covers new.position = false := by
  have mem := List.mem_of_getElem? kept
  rw [Relocation.kept, List.mem_filter, Bool.not_eq_true'] at mem
  exact mem.2

theorem toOld?_eq_none_iff (ordered : Ordered relocation.toList) :
    relocation.toOld? position = none ↔ relocation.covers position = true := by
  rw [toOld?_eq ordered]
  split
  · next covered => simp [covered]
  · next uncovered => simp [uncovered]

end Relocation

namespace Pairing.Threads

variable {relocation : Relocation} {pairs : List (Instruction × Instruction)}
  {pair : Instruction × Instruction}

/-- As many bytes are inserted before a counterpart as its instruction is moved by. -/
theorem toNew_eq (threads : Threads 0 0 relocation.toList pairs) (mem : pair ∈ pairs) :
    relocation.toNew pair.1.position = pair.1.position +
      Relocation.inserted (relocation.toList.takeWhile (·.stop ≤ pair.2.position)) := by
  have beside := threads.beside pair mem
  rw [Relocation.toNew]
  congr 2
  generalize relocation.toList = insertions at beside ⊢
  induction insertions with
  | nil => rfl
  | cons insertion rest ih =>
      rw [List.forall_mem_cons] at beside
      rw [List.takeWhile_cons, List.takeWhile_cons, ih beside.2, decide_eq_decide.mpr beside.1]

end Pairing.Threads

namespace Version

open Instruction (paddings)

variable {old new : Version} {relocation : Relocation}

/-- The insertions of a relocation lie between pairs of instructions and their counterparts, and
what is kept behind the counterparts comes after all of these. -/
theorem exists_threads (h : old.relocation? new = some relocation) :
    ∃ pairs, Pairing.Threads 0 0 relocation.toList pairs ∧
      (∀ pair ∈ pairs, pair.1 ∈ old.listing.instructions) ∧
      (∀ (index : Nat) (first second : Instruction),
        old.listing.instructions[index]? = some first →
        (relocation.kept new.listing.instructions)[index]? = some second →
          (first, second) ∈ pairs) ∧
      ∀ (index : Nat) (second : Instruction), old.listing.instructions.length ≤ index →
        (relocation.kept new.listing.instructions)[index]? = some second →
          ∀ pair ∈ pairs, pair.2.next ≤ second.position := by
  obtain ⟨-, pairing, built, -, rfl⟩ := exists_built h
  obtain ⟨later, eq, threads⟩ :=
    built.exists_threads old.consecutive_listing new.consecutive_listing
  rw [Relocation.toList_empty, List.nil_append] at eq
  subst eq
  refine ⟨pairing.pairs, threads, fun pair mem => (built.mem_of_mem_pairs mem).1, ?_, ?_⟩
  · intro index first second found kept
    obtain ⟨second', pair, kept'⟩ := built.exists_pair new.consecutive_listing found
    cases kept.symm.trans kept'
    exact List.mem_of_getElem? pair
  · exact fun index second behind kept =>
      built.next_le_of_kept new.consecutive_listing behind kept

/-- Nothing is inserted into code without instructions. -/
theorem toList_eq_nil_of_nil (h : old.relocation? new = some relocation)
    (empty : old.listing.instructions = []) : relocation.toList = [] := by
  obtain ⟨pairs, threads, inOld, -⟩ := exists_threads h
  rw [List.eq_nil_iff_forall_not_mem]
  intro insertion mem
  obtain ⟨pair, pairMem, -⟩ := threads.ends insertion mem
  have inside := inOld pair pairMem
  rw [empty] at inside
  cases inside

/-- All insertions are before the last instruction. -/
theorem toNew_last (h : old.relocation? new = some relocation) {front : List Instruction}
    {last : Instruction} (split : old.listing.instructions = front ++ [last]) :
    relocation.toNew last.position = last.position + relocation.length := by
  obtain ⟨pairs, threads, inOld, -⟩ := exists_threads h
  have inOrder := old.consecutive_listing
  rw [split] at inOrder inOld
  apply Relocation.toNew_of_le
  intro insertion mem
  obtain ⟨pair, pairMem, before, -⟩ := threads.ends insertion mem
  rw [before]
  rcases List.mem_append.mp (inOld pair pairMem) with inFront | isLast
  · exact Nat.le_of_lt (inOrder.position_lt_of_append inFront)
  · rw [List.mem_singleton.mp isLast]

/-- If the padding of the old code does not change, what is kept behind its counterparts is also
behind the place to which the end of the code is moved. -/
theorem length_code_add_le (h : old.relocation? new = some relocation) {index : Nat}
    {second : Instruction} (behind : old.listing.instructions.length ≤ index)
    (kept : (relocation.kept new.listing.instructions)[index]? = some second)
    (same : paddings old.listing.instructions =
      paddings ((relocation.kept new.listing.instructions).take
        old.listing.instructions.length)) :
    old.body.code.length + relocation.length ≤ second.position := by
  obtain ⟨pairs, -, -, paired, after⟩ := exists_threads h
  have complete : old.listing.fault = none := Option.isNone_iff_eq_none.mp (exists_built h).1
  have lists : (Cursor.start old.body.code).Lists old.listing := Cursor.lists_list _
  cases found : old.listing.instructions.getLast? with
  | none =>
      have empty := List.getLast?_eq_none_iff.mp found
      have code : old.listing.instructions.flatMap (·.encoding) = old.body.code :=
        lists.flatMap_encoding complete
      rw [empty, List.flatMap_nil] at code
      rw [← code, Relocation.length, toList_eq_nil_of_nil h empty]
      exact Nat.zero_le _
  | some last =>
      have ends : last.next = 0 + old.body.code.length := lists.next_getLast complete found
      obtain ⟨front, split⟩ := List.getLast?_eq_some_iff.mp found
      have moved := toNew_last h split
      have count : old.listing.instructions.length = front.length + 1 := by
        rw [split, List.length_append, List.length_singleton]
      have atEnd : old.listing.instructions[front.length]? = some last := by
        rw [split, List.getElem?_concat_length]
      obtain ⟨last', kept', counterpart, drift⟩ := exists_position_add_paddings h atEnd
      have size := old.consecutive_listing.next_eq (List.mem_of_getElem? atEnd)
      have size' := new.consecutive_listing.next_eq
        (List.mem_of_mem_filter (List.mem_of_getElem? kept'))
      have sameBare := counterpart.bareLength_eq
      have reached : last'.next ≤ second.position :=
        after index second behind kept _ (paired _ _ _ atEnd kept')
      have padding := Instruction.paddings_take_succ atEnd
      have padding' := Instruction.paddings_take_succ kept'
      rw [← count, List.take_length] at padding
      rw [← count] at padding'
      omega

/-- From inserted code, a relocation leads back nowhere. From the counterpart of an instruction it
leads back to that instruction, if the instructions before it have as much padding in both codes,
which is the case if all switches among them are moved by multiples of four. What comes after the
last counterpart is not taken for inserted code: the way back from there is that of the last
counterpart, and leads behind the old code if no padding changes. -/
theorem toOld?_of_relocation? (h : old.relocation? new = some relocation) :
    (∀ position, relocation.toOld? position = none ↔ relocation.covers position = true) ∧
    (∀ (index : Nat) (first : Instruction), old.listing.instructions[index]? = some first →
      ∃ second, (relocation.kept new.listing.instructions)[index]? = some second ∧
        first.Counterpart old.symbols new.symbols relocation.toNew second ∧
        (paddings (old.listing.instructions.take index) =
            paddings ((relocation.kept new.listing.instructions).take index) →
          relocation.toOld? second.position = some first.position)) ∧
    (∀ (index : Nat) (second : Instruction), old.listing.instructions.length ≤ index →
      (relocation.kept new.listing.instructions)[index]? = some second →
        relocation.toOld? second.position = some (second.position - relocation.length) ∧
        (paddings old.listing.instructions =
            paddings ((relocation.kept new.listing.instructions).take
              old.listing.instructions.length) →
          old.body.code.length ≤ second.position - relocation.length)) ∧
    ∀ index ≤ old.listing.instructions.length,
      (∀ switch ∈ old.listing.instructions.take index, switch.operands.hasTable = true →
        4 ∣ relocation.toNew switch.position - switch.position) →
      paddings (old.listing.instructions.take index) =
        paddings ((relocation.kept new.listing.instructions).take index) := by
  obtain ⟨pairs, threads, -, paired, after⟩ := exists_threads h
  have ordered := threads.ordered
  refine ⟨fun _ => Relocation.toOld?_eq_none_iff ordered, ?_, ?_, ?_⟩
  · intro index first found
    obtain ⟨second, kept, counterpart, drift⟩ := exists_position_add_paddings h found
    have moved := threads.toNew_eq (paired index first second found kept)
    refine ⟨second, kept, counterpart, ?_⟩
    intro same
    rw [Relocation.toOld?_eq ordered, Relocation.covers_of_getElem?_kept kept,
      if_neg Bool.false_ne_true]
    congr 1
    dsimp only at moved
    omega
  · intro index second behind kept
    have passed : ∀ insertion ∈ relocation.toList, insertion.stop ≤ second.position := by
      intro insertion mem
      obtain ⟨pair, pairMem, -, stop⟩ := threads.ends insertion mem
      have := after index second behind kept pair pairMem
      rw [Instruction.next] at this
      omega
    have all : relocation.toList.takeWhile (·.stop ≤ second.position) = relocation.toList :=
      List.takeWhile_eq_self_iff.mpr (by simpa using passed)
    constructor
    · rw [Relocation.toOld?_eq ordered, Relocation.covers_of_getElem?_kept kept,
        if_neg Bool.false_ne_true, all, Relocation.length]
    · intro same
      exact Nat.le_sub_of_add_le (length_code_add_le h behind kept same)
  · exact fun index inside moved => paddings_take_eq_of_moved h inside moved

/-- Four bytes are inserted in front of a switch, and two instructions come after the last
counterpart. -/
theorem toOld?_of_moved_by_four :
    let old := ofCode [0x1a, 0xaa, 0, 0, 0xff, 0xff, 0xff, 0xff, 0, 0, 0, 0, 0, 0, 0, 0,
      0xff, 0xff, 0xff, 0xff, 0xb1]
    let new := ofCode [0, 0, 0, 0, 0x1a, 0xaa, 0, 0, 0xff, 0xff, 0xff, 0xff, 0, 0, 0, 0, 0, 0, 0, 0,
      0xff, 0xff, 0xff, 0xff, 0xb1, 0, 0xb1]
    let relocation : Relocation := ⟨#[⟨0, 0, 4⟩]⟩
    old.relocation? new = some relocation ∧ relocation.toOld? 3 = none ∧
      relocation.toOld? 24 = some 20 ∧ relocation.toOld? 25 = some 21 ∧
      old.body.code.length ≤ 21 := by
  intro old new relocation
  have h : old.relocation? new = some relocation := by decide +kernel
  obtain ⟨uncovered, counterparts, trailing, samePadding⟩ := toOld?_of_relocation? h
  have found : old.listing.instructions[2]? = some ⟨⟨0xb1⟩, 20, false, [0xb1], .none⟩ := by
    decide +kernel
  have kept : (relocation.kept new.listing.instructions)[2]? =
      some ⟨⟨0xb1⟩, 24, false, [0xb1], .none⟩ := by
    decide +kernel
  have keptBehind : (relocation.kept new.listing.instructions)[3]? =
      some ⟨⟨0⟩, 25, false, [0], .none⟩ := by
    decide +kernel
  have count : old.listing.instructions.length = 3 := by decide +kernel
  obtain ⟨second, kept', -, back⟩ := counterparts 2 _ found
  cases kept.symm.trans kept'
  obtain ⟨behind, reached⟩ := trailing 3 _ (Nat.le_of_eq count) keptBehind
  refine ⟨h, (uncovered 3).mpr rfl, back ?_, behind, reached ?_⟩
  · exact samePadding 2 (by omega) (by decide +kernel)
  · have all := samePadding _ (Nat.le_refl _) (by decide +kernel)
    rwa [List.take_length] at all

/-- Behind the last counterpart, an instruction without counterpart is not taken for inserted code.
Behind a switch that loses a byte of padding, a counterpart does not lead back to its
instruction. -/
theorem toOld?_of_trailing_nop :
    (let old := ofCode [0xb1]
     let new := ofCode [0xb1, 0, 0xb1]
     let counterparts := (Relocation.empty.kept new.listing.instructions).take
      old.listing.instructions.length
     old.relocation? new = some .empty ∧
      ∃ second ∈ new.listing.instructions,
        second ∉ counterparts ∧ Relocation.empty.toOld? second.position = some 1) ∧
    let old := ofCode [0x1a, 0xaa, 0, 0, 0xff, 0xff, 0xff, 0xff, 0, 0, 0, 0, 0, 0, 0, 0,
      0xff, 0xff, 0xff, 0xff, 0xb1]
    let new := ofCode [0, 0x1a, 0xaa, 0, 0xff, 0xff, 0xff, 0xff, 0, 0, 0, 0, 0, 0, 0, 0,
      0xff, 0xff, 0xff, 0xff, 0xb1]
    let relocation : Relocation := ⟨#[⟨0, 0, 1⟩]⟩
    old.relocation? new = some relocation ∧
      old.listing.instructions[2]?.map (·.position) = some 20 ∧
      (relocation.kept new.listing.instructions)[2]?.map (relocation.toOld? ·.position) =
        some (some 19) := by
  decide +kernel

end Version

end HotSwap
