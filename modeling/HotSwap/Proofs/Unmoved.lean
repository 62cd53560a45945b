import HotSwap.Proofs.Correspondence
import HotSwap.Proofs.Interchange

/-! # Scanning equivalent versions

For equivalent versions the scan has nothing to look for: every instruction fits into its own
place, and no position moves. The one thing that the walk does not see and the scan does is
where jumps go. A jump to before the start of the code fits nowhere, not even in the same
code. -/

namespace HotSwap

theorem exists_of_forall₂ {α β : Type} {relation : α → β → Prop} {firsts : List α}
    {seconds : List β} (related : List.Forall₂ relation firsts seconds) :
    ∀ first ∈ firsts, ∃ second, relation first second := by
  induction related with
  | nil => exact List.forall_mem_nil _
  | cons head tail ih => exact List.forall_mem_cons.mpr ⟨⟨_, head⟩, ih⟩

namespace Operands

/-- The offsets of a jump or a switch. -/
def offsets : Operands → List Int
  | jump offset => [offset]
  | tableSwitch otherwise _ _ offsets => otherwise :: offsets
  | lookupSwitch otherwise cases => otherwise :: cases.map (·.2)
  | _ => []

variable {oldSymbols newSymbols : Symbols} {lands : Int → Int → Prop} {old new : Operands}

/-- Each offset lands somewhere. -/
theorem Alike.exists_lands (alike : Alike oldSymbols newSymbols lands old new) :
    ∀ offset ∈ old.offsets, ∃ landing, lands offset landing := by
  cases alike with
  | jump goes => exact List.forall_mem_singleton.mpr ⟨_, goes⟩
  | tableSwitch low high otherwise cases =>
      exact List.forall_mem_cons.mpr ⟨⟨_, otherwise⟩, exists_of_forall₂ cases⟩
  | lookupSwitch otherwise cases =>
      refine List.forall_mem_cons.mpr ⟨⟨_, otherwise⟩, List.forall_mem_map.mpr ?_⟩
      intro case mem
      obtain ⟨landing, -, goes⟩ := exists_of_forall₂ cases case mem
      exact ⟨landing.2, goes⟩
  | _ => exact List.forall_mem_nil _

/-- The operands of a jump or a switch are like themselves if each offset lands on itself. -/
theorem alike_self (hasOffsets : old.hasOffsets = true)
    (landsOnItself : ∀ offset ∈ old.offsets, lands offset offset) :
    Alike oldSymbols newSymbols lands old old := by
  cases old with
  | jump offset => exact .jump (landsOnItself offset List.mem_cons_self)
  | tableSwitch otherwise low high offsets =>
      obtain ⟨first, rest⟩ := List.forall_mem_cons.mp landsOnItself
      exact .tableSwitch low high first (List.forall₂_same.mpr rest)
  | lookupSwitch otherwise cases =>
      obtain ⟨first, rest⟩ := List.forall_mem_cons.mp landsOnItself
      refine .lookupSwitch first (List.forall₂_same.mpr ?_)
      intro case mem
      exact ⟨rfl, rest case.2 (List.mem_map_of_mem mem)⟩
  | _ => cases hasOffsets

end Operands

namespace Instruction

/-- Whether all offsets lead to positions that are not before the start of the code. -/
def StaysInside (instruction : Instruction) : Prop :=
  ∀ offset ∈ instruction.operands.offsets, 0 ≤ (instruction.position : Int) + offset

instance (instruction : Instruction) : Decidable instruction.StaysInside :=
  inferInstanceAs (Decidable (∀ offset ∈ instruction.operands.offsets, _))

variable {oldSymbols newSymbols : Symbols} {place : Nat → Nat} {old new : Instruction}

theorem Counterpart.staysInside (counterpart : Counterpart oldSymbols newSymbols place old new) :
    old.StaysInside := by
  intro offset mem
  obtain ⟨landing, target, found, -⟩ := counterpart.operands.exists_lands offset mem
  have := target_eq_some_iff.mp found
  omega

/-- An instruction that is equivalent to itself fits in its own place, if all its offsets stay
inside the code. -/
theorem exists_fit?_self {symbols : Symbols} {instruction : Instruction}
    (same : instruction.equivalent symbols symbols instruction = true)
    (inside : instruction.StaysInside) :
    ∃ targets, instruction.fit? symbols symbols Relocation.empty.toNew instruction = some targets ∧
      ∀ pair ∈ targets, Relocation.empty.toNew pair.1 = pair.2 := by
  cases hasOffsets : instruction.operands.hasOffsets with
  | true =>
      have alike : Operands.Alike symbols symbols
          (Lands Relocation.empty.toNew instruction instruction) instruction.operands
          instruction.operands := by
        apply Operands.alike_self hasOffsets
        intro offset mem
        have reached : instruction.target offset =
            some (instruction.position + offset).toNat :=
          target_eq_some_iff.mpr (Int.toNat_of_nonneg (inside offset mem))
        exact ⟨_, reached, reached⟩
      apply fit?_of_counterpart ⟨rfl, rfl, alike⟩
      intro oldOffset newOffset oldIs newIs
      cases oldIs.symm.trans newIs
      exact Iff.rfl
  | false =>
      rw [fit?_of_noOffsets (by rw [hasOffsets, Bool.false_and]), if_pos same]
      exact ⟨[], rfl, List.forall_mem_nil _⟩

end Instruction

/-- Instructions that fit in their own places are paired with themselves, and nothing is
inserted. -/
theorem Pairing.exists_pairUp?_self {symbols : Symbols} {instructions : List Instruction}
    (same : ∀ instruction ∈ instructions,
      instruction.equivalent symbols symbols instruction = true)
    (inside : ∀ instruction ∈ instructions, instruction.StaysInside) :
    ∃ pairing, pairUp? symbols symbols .empty instructions instructions = some pairing ∧
      pairing.relocation = .empty ∧
      ∀ pair ∈ pairing.targets, Relocation.empty.toNew pair.1 = pair.2 := by
  induction instructions with
  | nil => exact ⟨_, rfl, rfl, List.forall_mem_nil _⟩
  | cons instruction rest ih =>
      rw [List.forall_mem_cons] at same inside
      obtain ⟨targets, fits, settled⟩ := Instruction.exists_fit?_self same.1 inside.1
      obtain ⟨pairing, found, unmoved, settledLater⟩ := ih same.2 inside.2
      refine ⟨pairing.cons instruction instruction targets, ?_, unmoved, ?_⟩
      · simp only [pairUp?, fits, found, Option.map_some]
      · exact List.forall_mem_append.mpr ⟨settled, settledLater⟩

namespace Version

variable {old new version : Version} {relocation : Relocation}

/-- Where a relocation leads to another version, no jump leads to before the start of the code. -/
theorem staysInside_of_relocation? (h : old.relocation? new = some relocation) :
    ∀ instruction ∈ old.listing.instructions, instruction.StaysInside := by
  obtain ⟨-, pairing, built, settled, -⟩ := exists_built h
  have counterparts :=
    built.counterpart old.consecutive_listing new.consecutive_listing settled
  intro instruction mem
  rw [← built.pairs_fst] at mem
  obtain ⟨pair, pairMem, rfl⟩ := List.mem_map.mp mem
  exact (counterparts pair pairMem).staysInside

/-- No relocation is needed from a version that is equivalent to itself to this version. -/
theorem relocation?_self (same : version.equivalent version = true)
    (inside : ∀ instruction ∈ version.listing.instructions, instruction.StaysInside) :
    version.relocation? version = some .empty := by
  rw [equivalent, Bool.and_eq_true, beq_iff_eq, walk_eq_equivalent_iff, List.forall₂_same] at same
  obtain ⟨-, complete, -, equivalent⟩ := same
  obtain ⟨pairing, found, unmoved, settled⟩ := Pairing.exists_pairUp?_self equivalent inside
  refine relocation?_eq_some_iff.mpr ⟨?_, pairing, ?_, ?_, unmoved⟩
  · simp [Mode.obstacle?_eq_none_iff, Mode.admitsLengths]
  · rw [pairing?, if_pos complete, found]
  · rw [Pairing.isSettled_iff, unmoved]
    exact settled

/-- From a version to an equivalent one the scan finds no insertions, unless a jump or a switch of
the old version leads to before the start of the code. Then it finds that the versions differ. -/
theorem relocation?_of_equivalent (h : old.equivalent new = true) :
    old.relocation? new =
      if ∀ instruction ∈ old.listing.instructions, instruction.StaysInside then some .empty
      else none := by
  have same := interchangeable_of_equivalent h
  have unchanged : old.relocation? new = old.relocation? old :=
    (Interchangeable.refl old).relocation?_eq same.symm
  have reflexive : old.equivalent old = true := by
    rw [(Interchangeable.refl old).equivalent_eq same, h]
  rw [unchanged]
  split
  · next inside => exact relocation?_self reflexive inside
  · next outside =>
    rw [Option.eq_none_iff_forall_ne_some]
    intro relocation found
    exact outside (staysInside_of_relocation? found)

/-- A loop that ends in a switch with a jump back to its start needs no relocation. If the jump
leads to before the start of the code, there is none. -/
theorem relocation?_of_equivalent_loop :
    let loop (front : List Constant) (back : UInt8) : Version :=
      ofHandle front fun handle =>
        [0x12, handle, 0x57, 0x1a, 0xab, 0, 0, 0, 0, 0, 0, 20, 0, 0, 0, 1, 0, 0, 0, 7, 0xff, 0xff,
          0xff, back, 0xb1]
    let inside := loop [] 0xfc
    let inside' := loop [.integer 1] 0xfc
    let outside := loop [] 0xfb
    let outside' := loop [.integer 1] 0xfb
    inside.equivalent inside' = true ∧ inside.relocation? inside' = some .empty ∧
      outside.equivalent outside' = true ∧ outside.relocation? outside' = none := by
  intro loop inside inside' outside outside'
  have same : inside.equivalent inside' = true := by decide +kernel
  have same' : outside.equivalent outside' = true := by decide +kernel
  refine ⟨same, ?_, same', ?_⟩
  · rw [relocation?_of_equivalent same, if_pos (by decide +kernel)]
  · rw [relocation?_of_equivalent same', if_neg (by decide +kernel)]

end Version

end HotSwap
