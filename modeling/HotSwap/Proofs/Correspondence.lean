import HotSwap.Proofs.Counterpart
import HotSwap.Proofs.Pairing

/-! # What a relocation says about two versions

A relocation between two versions comes from a pairing, in which every old instruction has
a counterpart. The counterparts are the new instructions that no insertion covers, in
their order. Backward jumps are decided early, but the insertions that are found later are
behind them and do not move their targets. -/

namespace HotSwap

namespace Consecutive

variable {start : Nat} {instruction : Instruction} {front back : List Instruction}
  {later : List Insertion}

/-- Insertions behind an instruction do not cover it. -/
theorem filter_cons (h : Consecutive start (instruction :: back))
    (behind : ∀ insertion ∈ later, instruction.next ≤ insertion.start) :
    (instruction :: back).filter (fun new => !later.any (·.covers new.position)) =
      instruction :: back.filter (fun new => !later.any (·.covers new.position)) := by
  have uncovered : later.any (·.covers instruction.position) = false :=
    Insertion.any_covers_eq_false fun insertion mem =>
      Nat.lt_of_lt_of_le h.lt_next (behind insertion mem)
  exact List.filter_cons_of_pos (by rw [uncovered]; rfl)

/-- An insertion from the start up to an instruction covers what is before that one. -/
theorem filter_append {gap : Insertion} (h : Consecutive start (front ++ instruction :: back))
    (starts : gap.start = start) (stops : gap.stop = instruction.position) :
    (front ++ instruction :: back).filter
        (fun new => !(gap :: later).any (·.covers new.position)) =
      (instruction :: back).filter (fun new => !later.any (·.covers new.position)) := by
  obtain ⟨middle, -, rest⟩ := h.drop_append
  have covered : front.filter (fun new => !(gap :: later).any (·.covers new.position)) = [] := by
    rw [List.filter_eq_nil_iff]
    intro new mem
    have inGap : gap.covers new.position = true := by
      rw [Insertion.covers_eq_true_iff, starts, stops]
      exact ⟨h.le_position (List.mem_append_left _ mem), h.position_lt_of_append mem⟩
    simp [inGap]
  rw [List.filter_append, covered, List.nil_append]
  apply List.filter_congr
  intro new mem
  have reached : instruction.position ≤ new.position := by
    rcases List.mem_cons.mp mem with rfl | mem
    · exact Nat.le_refl _
    · exact Nat.le_of_lt (rest.position_lt mem)
  have passed : gap.covers new.position = false := by
    rw [← Bool.not_eq_true, Insertion.covers_eq_true_iff, stops]
    omega
  rw [List.any_cons, passed, Bool.false_or]

end Consecutive

namespace Pairing

/-- Whether all pairs fit under all the insertions, and lead to targets of the pairing. -/
def Fits (oldSymbols newSymbols : Symbols) (pairing : Pairing) : Prop :=
  ∀ pair ∈ pairing.pairs, ∃ targets,
    pair.1.fit? oldSymbols newSymbols pairing.relocation.toNew pair.2 = some targets ∧
      ∀ target ∈ targets, target ∈ pairing.targets

theorem Fits.cons {oldSymbols newSymbols : Symbols} {pairing : Pairing} {old new : Instruction}
    {targets : List (Nat × Nat)} (rest : pairing.Fits oldSymbols newSymbols)
    (fits : old.fit? oldSymbols newSymbols pairing.relocation.toNew new = some targets) :
    (pairing.cons old new targets).Fits oldSymbols newSymbols := by
  intro pair mem
  rcases List.mem_cons.mp mem with rfl | mem
  · refine ⟨targets, fits, ?_⟩
    intro target mem
    exact List.mem_append_left _ mem
  · obtain ⟨found, fits, subset⟩ := rest pair mem
    refine ⟨found, fits, ?_⟩
    intro target mem
    exact List.mem_append_right _ (subset target mem)

end Pairing

namespace Pairing.Built

variable {oldSymbols newSymbols : Symbols} {relocation : Relocation}
  {olds news : List Instruction} {pairing : Pairing} {start : Nat}

theorem pairs_fst (built : Built oldSymbols newSymbols relocation olds news pairing) :
    pairing.pairs.map (·.1) = olds := by
  induction built with
  | done => rfl
  | straight fits rest ih => exact congrArg _ ih
  | inserted gapIs fits rest ih => exact congrArg _ ih

/-- The counterparts are new instructions in their order. -/
theorem pairs_snd_sublist (built : Built oldSymbols newSymbols relocation olds news pairing) :
    (pairing.pairs.map (·.2)).Sublist news := by
  induction built with
  | done => exact List.nil_sublist _
  | straight fits rest ih => exact ih.cons_cons _
  | @inserted _ _ _ first _ _ skipped _ _ _ gapIs fits rest ih =>
      exact ((ih.cons_cons _).trans (List.sublist_append_right skipped _)).cons first

/-- The insertions that are found are before instructions that were still to be paired. -/
theorem exists_later (built : Built oldSymbols newSymbols relocation olds news pairing)
    (consecutive : Consecutive start olds) :
    ∃ later, pairing.relocation.toList = relocation.toList ++ later ∧
      ∀ insertion ∈ later, start ≤ insertion.before := by
  induction built generalizing start with
  | done relocation news =>
      exact ⟨[], (List.append_nil _).symm, List.forall_mem_nil _⟩
  | straight fits rest ih =>
      obtain ⟨later, eq, behind⟩ := ih consecutive.tail
      have position := consecutive.position_head
      have next := consecutive.lt_next
      refine ⟨later, eq, ?_⟩
      intro insertion mem
      have := behind insertion mem
      omega
  | inserted gapIs fits rest ih =>
      obtain ⟨later, eq, behind⟩ := ih consecutive.tail
      have position := consecutive.position_head
      have next := consecutive.lt_next
      rw [Relocation.toList_add, List.append_assoc] at eq
      refine ⟨_, eq, ?_⟩
      intro insertion mem
      rcases List.mem_cons.mp mem with rfl | mem
      · rw [gapIs]
        exact Nat.le_of_eq position.symm
      · have := behind insertion mem
        omega

/-- Positions before the instructions that were still to be paired have their final places. -/
theorem toNew_eq (built : Built oldSymbols newSymbols relocation olds news pairing)
    (consecutive : Consecutive start olds) {position : Nat} (before : position < start) :
    pairing.relocation.toNew position = relocation.toNew position := by
  obtain ⟨later, eq, behind⟩ := built.exists_later consecutive
  exact Relocation.toNew_of_append eq
    (fun insertion mem => Nat.lt_of_lt_of_le before (behind insertion mem))

/-- How an instruction fits does not change while those after it are paired. -/
theorem fit?_eq {old : Instruction}
    (rest : Built oldSymbols newSymbols relocation olds news pairing)
    (consecutive : Consecutive start (old :: olds)) (new : Instruction) :
    old.fit? oldSymbols newSymbols pairing.relocation.toNew new =
      old.fit? oldSymbols newSymbols relocation.toNew new := by
  apply Instruction.fit?_congr
  intro position le
  exact rest.toNew_eq consecutive.tail (Nat.lt_of_le_of_lt le consecutive.lt_next)

/-- What fitted when it was paired fits under all the insertions, with the same targets. -/
theorem fits (built : Built oldSymbols newSymbols relocation olds news pairing)
    (consecutive : Consecutive start olds) : pairing.Fits oldSymbols newSymbols := by
  induction built generalizing start with
  | done => exact List.forall_mem_nil _
  | straight fits rest ih =>
      rw [← rest.fit?_eq consecutive] at fits
      exact (ih consecutive.tail).cons fits
  | inserted gapIs fits rest ih =>
      rw [← rest.fit?_eq consecutive] at fits
      exact (ih consecutive.tail).cons fits

/-- The insertions that are found cover all the new instructions but the counterparts and what
comes after them. -/
theorem exists_trailing (built : Built oldSymbols newSymbols relocation olds news pairing)
    (consecutive : Consecutive start news) :
    ∃ later trailing, pairing.relocation.toList = relocation.toList ++ later ∧
      (∀ insertion ∈ later, start ≤ insertion.start) ∧
      news.filter (fun new => !later.any (·.covers new.position)) =
        pairing.pairs.map (·.2) ++ trailing := by
  induction built generalizing start with
  | done relocation news =>
      refine ⟨[], news, (List.append_nil _).symm, List.forall_mem_nil _, ?_⟩
      exact List.filter_eq_self.mpr fun _ _ => rfl
  | straight fits rest ih =>
      obtain ⟨later, trailing, eq, behind, kept⟩ := ih consecutive.tail
      have position := consecutive.position_head
      have next := consecutive.lt_next
      refine ⟨later, trailing, eq, ?_, ?_⟩
      · intro insertion mem
        have := behind insertion mem
        omega
      · rw [consecutive.filter_cons behind, kept]
        rfl
  | @inserted relocation gap old first found olds skipped news targets pairing gapIs fits rest ih =>
      have position := consecutive.position_head
      obtain ⟨middle, after, consecutive'⟩ := consecutive.tail.drop_append
      obtain ⟨later, trailing, eq, behind, kept⟩ := ih consecutive'.tail
      rw [Relocation.toList_add, List.append_assoc, List.singleton_append] at eq
      refine ⟨gap :: later, trailing, eq, ?_, ?_⟩
      · intro insertion mem
        rcases List.mem_cons.mp mem with rfl | mem
        · rw [gapIs]
          exact Nat.le_of_eq position.symm
        · have := behind insertion mem
          have := consecutive'.lt_next
          have := consecutive'.position_head
          have := consecutive.lt_next
          omega
      · rw [← List.cons_append] at consecutive ⊢
        rw [consecutive.filter_append (by rw [gapIs]; exact position) (by rw [gapIs]),
          consecutive'.filter_cons behind, kept]
        rfl

/-- The counterparts are the first instructions that are kept. -/
theorem exists_kept (built : Built oldSymbols newSymbols .empty olds news pairing)
    (consecutive : Consecutive start news) :
    ∃ trailing, pairing.relocation.kept news = pairing.pairs.map (·.2) ++ trailing := by
  obtain ⟨later, trailing, eq, -, kept⟩ := built.exists_trailing consecutive
  refine ⟨trailing, ?_⟩
  rw [← kept, Relocation.kept]
  simp only [Relocation.covers, eq, Relocation.toList_empty, List.nil_append]

/-- Every old instruction is paired with the new instruction that is kept in its place. -/
theorem exists_pair (built : Built oldSymbols newSymbols .empty olds news pairing)
    (consecutive : Consecutive start news) {index : Nat} {old : Instruction}
    (found : olds[index]? = some old) :
    ∃ new, pairing.pairs[index]? = some (old, new) ∧
      (pairing.relocation.kept news)[index]? = some new := by
  obtain ⟨trailing, kept⟩ := built.exists_kept consecutive
  rw [← built.pairs_fst, List.getElem?_map, Option.map_eq_some_iff] at found
  obtain ⟨⟨_, new⟩, pair, rfl⟩ := found
  refine ⟨new, pair, ?_⟩
  have inside := (List.getElem?_eq_some_iff.mp pair).1
  rw [kept, List.getElem?_append_left (by rwa [List.length_map]), List.getElem?_map, pair]
  rfl

/-- The two instructions of a pair are counterparts if all targets correspond to each other. -/
theorem counterpart (built : Built oldSymbols newSymbols relocation olds news pairing)
    {newStart : Nat} (consecutive : Consecutive start olds)
    (newConsecutive : Consecutive newStart news) (settled : pairing.isSettled = true) :
    ∀ pair ∈ pairing.pairs,
      pair.1.Counterpart oldSymbols newSymbols pairing.relocation.toNew pair.2 := by
  intro pair mem
  obtain ⟨targets, fits, subset⟩ := built.fits consecutive pair mem
  apply Instruction.counterpart_of_fit? fits
  · intro target mem
    exact isSettled_iff.mp settled target (subset target mem)
  · intro _ _ _ _ _ _ oldIs newIs
    have oldMem : pair.1 ∈ olds := by
      rw [← built.pairs_fst]
      exact List.mem_map_of_mem mem
    have newMem : pair.2 ∈ news := built.pairs_snd_sublist.subset (List.mem_map_of_mem mem)
    obtain ⟨_, _, oldRead⟩ := consecutive.exists_decode oldMem
    obtain ⟨_, _, newRead⟩ := newConsecutive.exists_decode newMem
    rw [(Instruction.length_offsets oldRead oldIs).2, (Instruction.length_offsets newRead newIs).2]

end Pairing.Built

namespace Version

variable {old new : Version} {relocation : Relocation}

/-- A relocation between two versions comes from a pairing of all the old instructions. -/
theorem exists_built (h : old.relocation? new = some relocation) :
    old.listing.isComplete = true ∧ ∃ pairing,
      Pairing.Built old.symbols new.symbols .empty old.listing.instructions
        new.listing.instructions pairing ∧
      pairing.isSettled = true ∧ pairing.relocation = relocation := by
  obtain ⟨-, pairing, found, settled, eq⟩ := relocation?_eq_some_iff.mp h
  unfold pairing? at found
  split at found
  · next complete => exact ⟨complete, pairing, Pairing.built_of_pairUp? found, settled, eq⟩
  · cases found

/-- If a relocation leads from one version to another, the old code has instructions up to its end,
and each of them has its counterpart among the new instructions outside the insertions. All jumps
go to corresponding places under all the insertions, whenever they were decided. -/
theorem counterpart_of_relocation? (h : old.relocation? new = some relocation) :
    old.listing.isComplete = true ∧
      ∀ (index : Nat) (first : Instruction), old.listing.instructions[index]? = some first →
        ∃ second, (relocation.kept new.listing.instructions)[index]? = some second ∧
          first.Counterpart old.symbols new.symbols relocation.toNew second := by
  obtain ⟨complete, pairing, built, settled, rfl⟩ := exists_built h
  refine ⟨complete, ?_⟩
  intro index first found
  obtain ⟨second, pair, kept⟩ := built.exists_pair new.consecutive_listing found
  exact ⟨second, kept, built.counterpart old.consecutive_listing new.consecutive_listing settled
    _ (List.mem_of_getElem? pair)⟩

/-- A version of a method with one local variable that is set at the start, without constants. -/
def ofCode (code : Bytes) : Version :=
  ⟨⟨1, 1, 1, code, [], []⟩, ConstantPool.empty.symbols⟩

/-- A loop that counts down, and the same loop with an instruction in front of it and one in its
body. The jump out of the loop and the jump back have other offsets in it. -/
theorem counterpart_of_countdown :
    let old := ofCode [0x1a, 0x99, 0, 9, 0x84, 0, 0xff, 0xa7, 0xff, 0xf9, 0xb1]
    let new := ofCode [0, 0x1a, 0x99, 0, 10, 0, 0x84, 0, 0xff, 0xa7, 0xff, 0xf8, 0xb1]
    let relocation : Relocation := ⟨#[⟨0, 0, 1⟩, ⟨4, 5, 6⟩]⟩
    old.relocation? new = some relocation ∧ old.listing.isComplete = true ∧
      ∀ (index : Nat) (first : Instruction), old.listing.instructions[index]? = some first →
        ∃ second, (relocation.kept new.listing.instructions)[index]? = some second ∧
          first.Counterpart old.symbols new.symbols relocation.toNew second := by
  intro old new relocation
  have h : old.relocation? new = some relocation := by decide +kernel
  exact ⟨h, counterpart_of_relocation? h⟩

end Version

end HotSwap
