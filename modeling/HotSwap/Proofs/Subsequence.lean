import HotSwap.Proofs.Correspondence
import HotSwap.Proofs.Interchange

/-! # Code without jumps

Whether an instruction without offsets fits depends on the two instructions alone. Then to look
for insertions is to look for the old code as a subsequence of the new code, and the scan always
takes the first instruction that fits. Nothing is lost by this: if the old code is found in another
way, its instructions have their places there or later, and what follows them follows here too. -/

namespace HotSwap

/-- Whether new instructions, in their order, are the counterparts of the old ones, one of each. -/
structure TakePlaces (alike : Instruction → Instruction → Prop)
    (olds news counterparts : List Instruction) : Prop where
  inOrder : counterparts.Sublist news
  alike : List.Forall₂ alike olds counterparts

/-- Whether each old instruction, in turn, has the first of the remaining new ones that is like
it. -/
inductive TakeFirst (alike : Instruction → Instruction → Prop) :
    List Instruction → List Instruction → List Instruction → Prop
  | nil (news : List Instruction) : TakeFirst alike [] news []
  | cons {old found : Instruction} {olds skipped news counterparts : List Instruction}
      (unlike : ∀ new ∈ skipped, ¬alike old new) (like : alike old found)
      (rest : TakeFirst alike olds news counterparts) :
      TakeFirst alike (old :: olds) (skipped ++ found :: news) (found :: counterparts)

/-- What lies in front of counterparts in the new code from a position on, if there is anything:
each insertion is before the instruction with the counterpart at which it stops. -/
def Pairing.gaps : Nat → List (Instruction × Instruction) → List Insertion
  | _, [] => []
  | start, (old, new) :: rest =>
      if start < new.position then ⟨old.position, start, new.position⟩ :: gaps new.next rest
      else gaps new.next rest

variable {alike : Instruction → Instruction → Prop} {old found other : Instruction}
  {olds news skipped counterparts others : List Instruction} {start : Nat}

namespace TakePlaces

/-- What is not like the first old instruction is not needed in front. -/
theorem of_append (places : TakePlaces alike (old :: olds) (skipped ++ news) others)
    (unlike : ∀ new ∈ skipped, ¬alike old new) : TakePlaces alike (old :: olds) news others := by
  induction skipped with
  | nil => exact places
  | cons first skipped ih =>
      obtain ⟨inOrder, pairs⟩ := places
      rw [List.forall_mem_cons] at unlike
      refine ih ⟨?_, pairs⟩ unlike.2
      cases pairs with
      | cons like pairs =>
          cases inOrder with
          | cons _ inOrder => exact inOrder
          | cons_cons _ inOrder => exact absurd like unlike.1

/-- What remains after the first counterpart is behind the first instruction. -/
theorem tail (places : TakePlaces alike (old :: olds) (found :: news) (other :: others)) :
    TakePlaces alike olds news others := by
  obtain ⟨inOrder, pairs⟩ := places
  exact ⟨inOrder.tail, (List.forall₂_cons.mp pairs).2⟩

end TakePlaces

/-- If anything in a list has a property, there is a first such thing. -/
theorem exists_first_of_mem (property : Instruction → Prop) (mem : other ∈ news)
    (holds : property other) :
    ∃ skipped found rest, news = skipped ++ found :: rest ∧
      (∀ new ∈ skipped, ¬property new) ∧ property found := by
  classical
  have anything : (news.find? fun new => decide (property new)).isSome = true :=
    List.find?_isSome.mpr ⟨other, mem, decide_eq_true holds⟩
  obtain ⟨found, isFirst⟩ := Option.isSome_iff_exists.mp anything
  obtain ⟨like, skipped, rest, eq, unlike⟩ := List.find?_eq_some_iff_append.mp isFirst
  exact ⟨skipped, found, rest, eq, by simpa using unlike, of_decide_eq_true like⟩

namespace TakeFirst

theorem takePlaces (first : TakeFirst alike olds news counterparts) :
    TakePlaces alike olds news counterparts := by
  induction first with
  | nil news => exact ⟨List.nil_sublist _, .nil⟩
  | @cons old found olds skipped news counterparts unlike like rest ih =>
      refine ⟨?_, .cons like ih.alike⟩
      exact (ih.inOrder.cons_cons found).trans (List.sublist_append_right skipped _)

/-- If the old code is a subsequence at all, it is found by taking the first instruction in each
case: what follows another choice follows the first one too. -/
theorem exists_of_takePlaces (places : TakePlaces alike olds news others) :
    ∃ counterparts, TakeFirst alike olds news counterparts := by
  induction olds generalizing news others with
  | nil => exact ⟨[], .nil news⟩
  | cons old olds ih =>
      cases others with
      | nil => cases places.alike
      | cons other others =>
          have mem : other ∈ news := places.inOrder.subset List.mem_cons_self
          have like : alike old other := (List.forall₂_cons.mp places.alike).1
          obtain ⟨skipped, found, rest, rfl, unlike, like⟩ :=
            exists_first_of_mem (alike old) mem like
          obtain ⟨counterparts, later⟩ := ih (places.of_append unlike).tail
          exact ⟨found :: counterparts, .cons unlike like later⟩

/-- No other counterpart is earlier than the first ones. -/
theorem position_le (first : TakeFirst alike olds news counterparts)
    (consecutive : Consecutive start news) (places : TakePlaces alike olds news others) :
    List.Forall₂ (fun new new' => new.position ≤ new'.position) counterparts others := by
  induction first generalizing start others with
  | nil news =>
      cases places.alike
      exact .nil
  | @cons old found olds skipped news counterparts unlike like rest ih =>
      cases others with
      | nil => cases places.alike
      | cons other others =>
          obtain ⟨middle, -, consecutive'⟩ := consecutive.drop_append
          have remaining := places.of_append unlike
          refine .cons ?_ (ih consecutive'.tail remaining.tail)
          have mem : other ∈ found :: news := remaining.inOrder.subset List.mem_cons_self
          rcases List.mem_cons.mp mem with rfl | later
          · exact Nat.le_refl _
          · exact Nat.le_of_lt (consecutive'.position_lt later)

end TakeFirst

namespace Instruction

variable {oldSymbols newSymbols : Symbols} {place : Nat → Nat} {new : Instruction}

/-- Without offsets, to be a counterpart is to be equivalent, wherever positions have moved. -/
theorem counterpart_iff_equivalent (noOffsets : old.operands.hasOffsets = false) :
    old.Counterpart oldSymbols newSymbols place new ↔
      old.equivalent oldSymbols newSymbols new = true := by
  have fits : old.fit? oldSymbols newSymbols place new = _ :=
    fit?_of_noOffsets (by rw [noOffsets, Bool.false_and])
  constructor
  · intro counterpart
    obtain ⟨targets, found, -⟩ := fit?_of_counterpart counterpart (by
      intro oldOffset newOffset oldIs newIs
      rw [oldIs] at noOffsets
      cases noOffsets)
    rw [fits] at found
    split at found
    · assumption
    · cases found
  · intro same
    rw [if_pos same] at fits
    apply counterpart_of_fit? fits (List.forall_mem_nil _)
    intro _ _ _ _ _ _ oldIs
    rw [oldIs] at noOffsets
    cases noOffsets

theorem fit?_of_counterpart_of_noOffsets (noOffsets : old.operands.hasOffsets = false)
    (counterpart : old.Counterpart oldSymbols newSymbols place new) (place' : Nat → Nat) :
    old.fit? oldSymbols newSymbols place' new = some [] := by
  rw [fit?_of_noOffsets (by rw [noOffsets, Bool.false_and]),
    if_pos ((counterpart_iff_equivalent noOffsets).mp counterpart)]

theorem fit?_of_not_counterpart (noOffsets : old.operands.hasOffsets = false)
    (different : ¬old.Counterpart oldSymbols newSymbols place new) (place' : Nat → Nat) :
    old.fit? oldSymbols newSymbols place' new = none := by
  rw [fit?_of_noOffsets (by rw [noOffsets, Bool.false_and]),
    if_neg fun same => different ((counterpart_iff_equivalent noOffsets).mpr same)]

end Instruction

namespace Pairing

variable {oldSymbols newSymbols : Symbols} {relocation : Relocation} {place : Nat → Nat}
  {pairing : Pairing}

/-- The insertions of the pairing that starts with a counterpart after some other instructions. -/
theorem gaps_append (consecutive : Consecutive start (skipped ++ found :: news))
    (rest : List (Instruction × Instruction)) :
    gaps start ((old, found) :: rest) =
      match skipped with
      | [] => gaps found.next rest
      | first :: _ => ⟨old.position, first.position, found.position⟩ :: gaps found.next rest := by
  cases skipped with
  | nil =>
      have position : found.position = start := consecutive.position_head
      rw [gaps, if_neg (by omega)]
  | cons first skipped =>
      have position := consecutive.position_head
      have behind : first.position < found.position :=
        consecutive.position_lt (List.mem_append_right _ List.mem_cons_self)
      rw [gaps, if_pos (by omega)]
      simp only [position]

/-- Without offsets, the old instructions are paired with the first ones that are like them, and
what is skipped are the insertions. -/
theorem exists_of_takeFirst (relocation : Relocation)
    (first : TakeFirst (Instruction.Counterpart oldSymbols newSymbols place) olds news counterparts)
    (noOffsets : ∀ old ∈ olds, old.operands.hasOffsets = false)
    (consecutive : Consecutive start news) :
    ∃ pairing, pairUp? oldSymbols newSymbols relocation olds news = some pairing ∧
      pairing.targets = [] ∧
      pairing.relocation.toList = relocation.toList ++ gaps start (olds.zip counterparts) := by
  induction first generalizing relocation start with
  | nil news => exact ⟨⟨relocation, [], []⟩, rfl, rfl, (List.append_nil _).symm⟩
  | @cons old found olds skipped news counterparts unlike like rest ih =>
      rw [List.forall_mem_cons] at noOffsets
      have fits := Instruction.fit?_of_counterpart_of_noOffsets noOffsets.1 like
      have unfit : ∀ new ∈ skipped, ∀ place,
          old.fit? oldSymbols newSymbols place new = none := by
        intro new mem
        exact Instruction.fit?_of_not_counterpart noOffsets.1 (unlike new mem)
      obtain ⟨middle, -, consecutive'⟩ := consecutive.drop_append
      rw [List.zip_cons_cons, gaps_append consecutive]
      cases skipped with
      | nil =>
          obtain ⟨pairing, paired, settled, eq⟩ := ih relocation noOffsets.2 consecutive'.tail
          refine ⟨pairing.cons old found [], ?_, settled, eq⟩
          rw [List.nil_append, pairUp?_cons (fits _), paired]
          rfl
      | cons first skipped =>
          obtain ⟨pairing, paired, settled, eq⟩ :=
            ih (relocation.add ⟨old.position, first.position, found.position⟩) noOffsets.2
              consecutive'.tail
          refine ⟨pairing.cons old found [], ?_, settled, ?_⟩
          · rw [List.cons_append, pairUp?_append unfit (fits _), paired]
            rfl
          · rw [Relocation.toList_add, List.append_assoc, List.singleton_append] at eq
            exact eq

/-- The counterparts of a pairing take the places of the old instructions. -/
theorem Built.takePlaces (built : Built oldSymbols newSymbols relocation olds news pairing)
    (counterparts : ∀ pair ∈ pairing.pairs,
      pair.1.Counterpart oldSymbols newSymbols place pair.2) :
    TakePlaces (Instruction.Counterpart oldSymbols newSymbols place) olds news
      (pairing.pairs.map (·.2)) := by
  refine ⟨built.pairs_snd_sublist, ?_⟩
  rw [← built.pairs_fst, List.forall₂_map_left_iff, List.forall₂_map_right_iff,
    List.forall₂_same]
  exact counterparts

end Pairing

namespace Version

variable {old new : Version} {relocation : Relocation} {place : Nat → Nat}

/-- Whether no instruction of a version is a jump or a switch. -/
def NoJumps (version : Version) : Prop :=
  ∀ instruction ∈ version.listing.instructions,
    instruction.opcode.group ∉ [OpcodeGroup.jumps, .ranges, .cases]

theorem NoJumps.hasOffsets_eq_false {version : Version} (noJumps : version.NoJumps) :
    ∀ instruction ∈ version.listing.instructions, instruction.operands.hasOffsets = false := by
  intro instruction mem
  rw [← Bool.not_eq_true, (version.consecutive_listing.encoded instruction mem).hasOffsets_iff]
  exact noJumps instruction mem

/-- Where a relocation leads to another version, the old code is a subsequence of the new one. -/
theorem exists_takePlaces (h : old.relocation? new = some relocation) (noJumps : old.NoJumps)
    (place : Nat → Nat) :
    ∃ counterparts, TakePlaces (Instruction.Counterpart old.symbols new.symbols place)
      old.listing.instructions new.listing.instructions counterparts := by
  obtain ⟨-, pairing, built, settled, -⟩ := exists_built h
  have counterparts :=
    built.counterpart old.consecutive_listing new.consecutive_listing settled
  refine ⟨_, built.takePlaces ?_⟩
  intro pair mem
  have noOffsets : pair.1.operands.hasOffsets = false := by
    apply noJumps.hasOffsets_eq_false
    rw [← built.pairs_fst]
    exact List.mem_map_of_mem mem
  rw [Instruction.counterpart_iff_equivalent noOffsets]
  exact (Instruction.counterpart_iff_equivalent noOffsets).mp (counterparts pair mem)

/-- Where the old code is a subsequence of the new one, the insertions are what lies in front of the
first counterparts. -/
theorem relocation?_of_takeFirst {counterparts : List Instruction}
    (compatible : Mode.switchable.obstacle? old.body new.body = none) (noJumps : old.NoJumps)
    (complete : old.listing.isComplete = true)
    (first : TakeFirst (Instruction.Counterpart old.symbols new.symbols place)
      old.listing.instructions new.listing.instructions counterparts) :
    ∃ relocation, old.relocation? new = some relocation ∧
      relocation.toList = Pairing.gaps 0 (old.listing.instructions.zip counterparts) := by
  obtain ⟨pairing, paired, targets, eq⟩ :=
    Pairing.exists_of_takeFirst .empty first noJumps.hasOffsets_eq_false new.consecutive_listing
  refine ⟨pairing.relocation, ?_, eq⟩
  refine relocation?_eq_some_iff.mpr ⟨compatible, pairing, ?_, ?_, rfl⟩
  · rw [pairing?, if_pos complete, paired]
  · rw [Pairing.isSettled_iff, targets]
    exact List.forall_mem_nil _

/-- Without jumps in the old code, there is a relocation if and only if the old code can be read up
to its end and is a subsequence of what can be read of the new code. The insertions are then what
lies in front of the earliest counterparts. Where positions have moved makes no difference to what
is a counterpart. -/
theorem relocation?_iff_subsequence (place : Nat → Nat)
    (compatible : Mode.switchable.obstacle? old.body new.body = none) (noJumps : old.NoJumps) :
    ((old.relocation? new).isSome = true ↔
      old.listing.isComplete = true ∧
        ∃ counterparts, TakePlaces (Instruction.Counterpart old.symbols new.symbols place)
          old.listing.instructions new.listing.instructions counterparts) ∧
    ∀ relocation, old.relocation? new = some relocation →
      ∃ counterparts,
        TakePlaces (Instruction.Counterpart old.symbols new.symbols place)
          old.listing.instructions new.listing.instructions counterparts ∧
        (∀ others, TakePlaces (Instruction.Counterpart old.symbols new.symbols place)
            old.listing.instructions new.listing.instructions others →
          List.Forall₂ (fun first second => first.position ≤ second.position) counterparts
            others) ∧
        relocation.toList = Pairing.gaps 0 (old.listing.instructions.zip counterparts) := by
  refine ⟨⟨?_, ?_⟩, ?_⟩
  · intro isSome
    obtain ⟨relocation, h⟩ := Option.isSome_iff_exists.mp isSome
    exact ⟨(exists_built h).1, exists_takePlaces h noJumps place⟩
  · rintro ⟨complete, others, places⟩
    obtain ⟨counterparts, first⟩ := TakeFirst.exists_of_takePlaces places
    obtain ⟨relocation, h, -⟩ := relocation?_of_takeFirst compatible noJumps complete first
    exact Option.isSome_iff_exists.mpr ⟨relocation, h⟩
  · intro relocation h
    obtain ⟨others, places⟩ := exists_takePlaces h noJumps place
    obtain ⟨counterparts, first⟩ := TakeFirst.exists_of_takePlaces places
    obtain ⟨relocation', h', eq⟩ :=
      relocation?_of_takeFirst compatible noJumps (exists_built h).1 first
    cases h.symm.trans h'
    exact ⟨counterparts, first.takePlaces,
      fun _ places => first.position_le new.consecutive_listing places, eq⟩

/-- The second load would do as well as the first one. After the return is something that cannot be
read. -/
theorem relocation?_iff_subsequence_of_two_loads :
    let old := ofCode [0x1a, 0x57, 0xb1]
    let new := ofCode [0, 0x1a, 0x1a, 0, 0x57, 0xb1, 0xff]
    let places := TakePlaces (Instruction.Counterpart old.symbols new.symbols id)
      old.listing.instructions new.listing.instructions
    let second : List Instruction := [⟨⟨0x1a⟩, 2, false, [0x1a], .none⟩,
      ⟨⟨0x57⟩, 4, false, [0x57], .none⟩, ⟨⟨0xb1⟩, 5, false, [0xb1], .none⟩]
    Mode.switchable.obstacle? old.body new.body = none ∧ old.NoJumps ∧ places second ∧
      ∃ relocation, old.relocation? new = some relocation ∧
        relocation.toList = [⟨0, 0, 1⟩, ⟨1, 2, 4⟩] ∧
        ∃ counterparts, places counterparts ∧
          List.Forall₂ (fun first second => first.position ≤ second.position) counterparts
            second ∧
          relocation.toList = Pairing.gaps 0 (old.listing.instructions.zip counterparts) := by
  intro old new places second
  have compatible : Mode.switchable.obstacle? old.body new.body = none := by decide +kernel
  have noJumps : old.NoJumps := by
    unfold NoJumps
    decide +kernel
  have olds : old.listing.instructions = [⟨⟨0x1a⟩, 0, false, [0x1a], .none⟩,
      ⟨⟨0x57⟩, 1, false, [0x57], .none⟩, ⟨⟨0xb1⟩, 2, false, [0xb1], .none⟩] := by
    decide +kernel
  have found : places second := by
    refine ⟨by decide +kernel, ?_⟩
    rw [olds]
    exact .cons ⟨rfl, rfl, .none⟩ (.cons ⟨rfl, rfl, .none⟩ (.cons ⟨rfl, rfl, .none⟩ .nil))
  obtain ⟨decides, earliest⟩ := relocation?_iff_subsequence id compatible noJumps
  have complete : old.listing.isComplete = true := by decide +kernel
  obtain ⟨relocation, h⟩ :=
    Option.isSome_iff_exists.mp (decides.mpr ⟨complete, second, found⟩)
  obtain ⟨counterparts, taken, first, eq⟩ := earliest relocation h
  have earlier := first second found
  refine ⟨compatible, noJumps, found, relocation, h, ?_, counterparts, taken, earlier, eq⟩
  have value : old.relocation? new = some ⟨#[⟨0, 0, 1⟩, ⟨1, 2, 4⟩]⟩ := by decide +kernel
  cases h.symm.trans value
  rfl

end Version

end HotSwap
