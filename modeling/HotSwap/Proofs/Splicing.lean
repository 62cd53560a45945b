import HotSwap.Proofs.Landing

/-! # Code that was spliced in

New code can come from old code by splices: in front of each old instruction some code is
inserted, and its jumps are made to go to where their targets have moved. The scan finds
all the insertions, however many there are, unless an insertion has an instruction with
the opcode of the old one before which it was made. -/

namespace HotSwap

/-- An old instruction with its counterpart and the code that was inserted in front of it. -/
structure Splice where
  inserted : Bytes
  old : Instruction
  new : Instruction

namespace Splice

/-- The new code. -/
def code (splices : List Splice) : Bytes :=
  splices.flatMap fun splice => splice.inserted ++ splice.new.encoding

/-- The number of bytes that were inserted in front of old positions up to the given one. -/
def insertedUpTo : List Splice → Nat → Nat
  | [], _ => 0
  | splice :: rest, position =>
      (if splice.old.position ≤ position then splice.inserted.length else 0) +
        insertedUpTo rest position

/-- Where an old position has moved. -/
def moved (splices : List Splice) (position : Nat) : Nat :=
  position + insertedUpTo splices position

/-- What is inserted, if the code of the splice starts at the given position. -/
def listing (splice : Splice) (start : Nat) : Listing :=
  Cursor.list ⟨start, splice.inserted⟩

/-- The new instructions from a position on. -/
def instructions : Nat → List Splice → List Instruction
  | _, [] => []
  | start, splice :: rest =>
      (splice.listing start).instructions ++ splice.new :: instructions splice.new.next rest

/-- The insertions from a new position on, without the empty ones. -/
def insertions : Nat → List Splice → List Insertion
  | _, [] => []
  | start, splice :: rest =>
      if splice.inserted = [] then insertions splice.new.next rest
      else
        ⟨splice.old.position, start, start + splice.inserted.length⟩ ::
          insertions splice.new.next rest

/-- Splices one after the other. What they insert consists of instructions with other opcodes than
that of the old instruction, whose counterpart comes after them. -/
inductive Chain (oldSymbols newSymbols : Symbols) (place : Nat → Nat) : Nat → List Splice → Prop
  | nil (start : Nat) : Chain oldSymbols newSymbols place start []
  | cons {start : Nat} {splice : Splice} {rest : List Splice}
      (complete : (splice.listing start).isComplete = true)
      (different : ∀ instruction ∈ (splice.listing start).instructions,
        instruction.opcode ≠ splice.old.opcode)
      (read : Instruction.decode (start + splice.inserted.length) splice.new.encoding =
        .ok splice.new)
      (counterpart : splice.old.Counterpart oldSymbols newSymbols place splice.new)
      (tail : Chain oldSymbols newSymbols place splice.new.next rest) :
      Chain oldSymbols newSymbols place start (splice :: rest)

variable {oldSymbols newSymbols : Symbols} {place : Nat → Nat} {start oldStart : Nat}
  {splice : Splice} {splices rest : List Splice}

theorem exists_mem_insertions {insertion : Insertion} (mem : insertion ∈ insertions start splices) :
    ∃ splice ∈ splices, insertion.before = splice.old.position := by
  induction splices generalizing start with
  | nil => cases mem
  | cons splice rest ih =>
      have later (mem : insertion ∈ insertions splice.new.next rest) :
          ∃ other ∈ splice :: rest, insertion.before = other.old.position := by
        obtain ⟨other, inRest, eq⟩ := ih mem
        exact ⟨other, List.mem_cons_of_mem _ inRest, eq⟩
      rw [insertions] at mem
      split at mem
      · exact later mem
      · rcases List.mem_cons.mp mem with rfl | mem
        · exact ⟨splice, List.mem_cons_self, rfl⟩
        · exact later mem

/-- The insertions after a splice are behind its old instruction. -/
theorem lt_before (consecutive : Consecutive oldStart ((splice :: rest).map (·.old)))
    {insertion : Insertion} (mem : insertion ∈ insertions start rest) :
    splice.old.position < insertion.before := by
  obtain ⟨other, inRest, eq⟩ := exists_mem_insertions mem
  rw [eq]
  exact consecutive.position_lt (List.mem_map_of_mem inRest)

theorem insertedUpTo_eq_zero {position : Nat}
    (behind : ∀ splice ∈ splices, position < splice.old.position) :
    insertedUpTo splices position = 0 := by
  induction splices with
  | nil => rfl
  | cons splice rest ih =>
      rw [List.forall_mem_cons] at behind
      rw [insertedUpTo, if_neg (Nat.not_le_of_lt behind.1), ih behind.2]

/-- The insertions up to a position have all the bytes that were inserted there. -/
theorem inserted_takeWhile_insertions (consecutive : Consecutive oldStart (splices.map (·.old)))
    (position : Nat) :
    Relocation.inserted ((insertions start splices).takeWhile (·.before ≤ position)) =
      insertedUpTo splices position := by
  induction splices generalizing start oldStart with
  | nil => rfl
  | cons splice rest ih =>
      have later : Relocation.inserted ((insertions splice.new.next rest).takeWhile
          (·.before ≤ position)) = insertedUpTo rest position := ih consecutive.tail
      rw [insertions]
      by_cases reached : splice.old.position ≤ position
      · have first : insertedUpTo (splice :: rest) position =
            splice.inserted.length + insertedUpTo rest position := by
          simp [insertedUpTo, reached]
        rw [first, ← later]
        split
        · next empty => simp [empty]
        · rw [List.takeWhile_cons_of_pos (by simpa using reached)]
          simp [Relocation.inserted, Insertion.length]
      · have first : insertedUpTo (splice :: rest) position = insertedUpTo rest position := by
          simp [insertedUpTo, reached]
        rw [first]
        split
        · exact later
        · have behind : ∀ other ∈ rest, position < other.old.position := by
            intro other mem
            apply Nat.lt_trans (Nat.lt_of_not_le reached)
            exact consecutive.position_lt (List.mem_map_of_mem mem)
          rw [List.takeWhile_cons_of_neg (by simpa using reached), insertedUpTo_eq_zero behind]
          rfl

/-- The insertions up to a splice, if the code of the splice starts at the given position. -/
def record (known : Relocation) (start : Nat) (splice : Splice) : Relocation :=
  if splice.inserted = [] then known
  else known.add ⟨splice.old.position, start, start + splice.inserted.length⟩

theorem toList_record_append (known : Relocation) :
    (record known start splice).toList ++ insertions splice.new.next rest =
      known.toList ++ insertions start (splice :: rest) := by
  rw [record, insertions]
  split
  · rfl
  · rw [Relocation.toList_add, List.append_assoc, List.singleton_append]

theorem length_record (known : Relocation) :
    (record known start splice).length = known.length + splice.inserted.length := by
  rw [record]
  split
  · next empty => rw [empty, List.length_nil, Nat.add_zero]
  · rw [Relocation.length_add, Insertion.length, Nat.add_sub_cancel_left]

theorem before_le_of_mem_record {known : Relocation}
    (before : ∀ insertion ∈ known.toList, insertion.before ≤ splice.old.position) :
    ∀ insertion ∈ (record known start splice).toList,
      insertion.before ≤ splice.old.position := by
  rw [record]
  split
  · exact before
  · rw [Relocation.forall_mem_add]
    exact ⟨before, Nat.le_refl _⟩

theorem toList_insertions : (Relocation.mk (insertions start splices).toArray).toList =
    Relocation.empty.toList ++ insertions start splices :=
  rfl

/-- The insertions take positions to where they have moved. -/
theorem toNew_insertions (consecutive : Consecutive oldStart (splices.map (·.old))) :
    (Relocation.mk (insertions start splices).toArray).toNew = moved splices := by
  funext position
  rw [Relocation.toNew, moved, Relocation.toList, inserted_takeWhile_insertions consecutive]

/-- The new code is listed as the new instructions, whatever follows it. -/
theorem Chain.exists_lists (chain : Chain oldSymbols newSymbols place start splices)
    (trailing : Bytes) :
    ∃ back : Listing, Cursor.Lists ⟨start, code splices ++ trailing⟩
      ⟨instructions start splices ++ back.instructions, back.fault, back.stop⟩ := by
  induction chain with
  | nil start => exact Cursor.exists_lists ⟨start, trailing⟩
  | @cons start splice rest complete different read counterpart tail ih =>
      obtain ⟨back, listed⟩ := ih
      refine ⟨back, ?_⟩
      have behind : (splice.new.encoding ++ (code rest ++ trailing)).drop
          splice.new.encoding.length = code rest ++ trailing := List.drop_left
      rw [← behind] at listed
      have after := Cursor.Lists.step (Instruction.decode_append read _) listed
      have front := Cursor.lists_list ⟨start, splice.inserted⟩
      have whole := front.append (Option.isNone_iff_eq_none.mp complete) after
      simpa [code, instructions, listing] using whole

end Splice

namespace Instruction

variable {oldSymbols newSymbols : Symbols} {old new : Instruction} {final : Relocation}

/-- An instruction with another opcode fits nowhere. -/
theorem fit?_eq_none (different : new.opcode ≠ old.opcode) (place : Nat → Nat) :
    old.fit? oldSymbols newSymbols place new = none := by
  rw [fit?, if_neg]
  intro same
  exact different (sameKind_iff.mp same).1.symm

/-- Where positions keep their order, so do a jump and its target. -/
theorem sameDirection_of_lands {oldOffset newOffset : Int}
    (landed : new.position = final.toNew old.position)
    (lands : Lands final.toNew old new oldOffset newOffset) : 0 < oldOffset ↔ 0 < newOffset := by
  obtain ⟨target, oldFound, newFound⟩ := lands
  rw [target_eq_some_iff] at oldFound newFound
  rcases Nat.lt_trichotomy old.position target with ahead | self | back
  · have := final.toNew_lt_toNew ahead
    omega
  · rw [← self] at newFound oldFound
    omega
  · have := final.toNew_lt_toNew back
    omega

/-- A counterpart fits as soon as the insertions up to its old instruction are known. -/
theorem Counterpart.exists_fit? {known : Relocation} {later : List Insertion}
    (counterpart : Counterpart oldSymbols newSymbols final.toNew old new)
    (landed : new.position = final.toNew old.position)
    (extends_ : final.toList = known.toList ++ later)
    (behind : ∀ insertion ∈ later, old.position < insertion.before) :
    ∃ targets, old.fit? oldSymbols newSymbols known.toNew new = some targets ∧
      ∀ pair ∈ targets, final.toNew pair.1 = pair.2 := by
  obtain ⟨targets, fits, settled⟩ := fit?_of_counterpart counterpart (by
    intro oldOffset newOffset oldIs newIs
    have alike := counterpart.operands
    rw [oldIs, newIs] at alike
    cases alike with
    | jump goes => exact sameDirection_of_lands landed goes)
  refine ⟨targets, ?_, settled⟩
  rw [← fits]
  apply fit?_congr
  intro position le
  symm
  exact Relocation.toNew_of_append extends_ fun insertion mem =>
    Nat.lt_of_le_of_lt le (behind insertion mem)

/-- The instructions after counterparts are as far apart as these are, if the padding is the
same. -/
theorem Counterpart.next_eq {position newPosition inserted : Nat} {rest : List Instruction}
    {place : Nat → Nat} (counterpart : Counterpart oldSymbols newSymbols place old new)
    (consecutive : Consecutive position (old :: rest)) {input : Bytes}
    (read : decode newPosition input = .ok new)
    (moved : newPosition = position + inserted)
    (aligned : old.operands.hasTable = true → 4 ∣ inserted) : new.next = old.next + inserted := by
  have oldIs := consecutive.position_head
  have newIs := position_decode read
  have samePadding : old.padding = new.padding := by
    rw [counterpart.padding_eq_iff (by omega)]
    intro table
    have divides := aligned table
    omega
  have sameLength := counterpart.bareLength_eq
  calc
    new.next = newPosition + (new.padding + new.bareLength) := by
      rw [next, newIs, length_encoding_eq read]
    _ = position + old.padding + old.bareLength + inserted := by
      omega
    _ = old.next + inserted := by
      rw [consecutive.next_head]

end Instruction

namespace Splice

variable {oldSymbols newSymbols : Symbols} {start oldStart : Nat} {splice : Splice}
  {splices : List Splice} {known final : Relocation}

/-- Something is inserted if there are instructions in it, of which the first one is at its
start. -/
theorem exists_first (nonempty : splice.inserted ≠ [])
    (complete : (splice.listing start).isComplete = true) :
    ∃ first skipped, (splice.listing start).instructions = first :: skipped ∧
      first.position = start := by
  have listed := Cursor.lists_list ⟨start, splice.inserted⟩
  have consecutive := Consecutive.of_lists listed
  have encodings := listed.flatMap_encoding (Option.isNone_iff_eq_none.mp complete)
  unfold listing
  cases run : (Cursor.list ⟨start, splice.inserted⟩).instructions with
  | nil =>
      rw [run] at encodings
      exact absurd encodings.symm nonempty
  | cons first skipped =>
      rw [run] at consecutive
      exact ⟨first, skipped, rfl, consecutive.position_head⟩

/-- An old instruction is paired with its counterpart after what was inserted in front of it. -/
theorem pairUp?_record {olds news : List Instruction} {targets : List (Nat × Nat)}
    (complete : (splice.listing start).isComplete = true)
    (different : ∀ instruction ∈ (splice.listing start).instructions,
      instruction.opcode ≠ splice.old.opcode)
    (position : splice.new.position = start + splice.inserted.length)
    (fits : splice.old.fit? oldSymbols newSymbols (record known start splice).toNew splice.new =
      some targets) :
    Pairing.pairUp? oldSymbols newSymbols known (splice.old :: olds)
        ((splice.listing start).instructions ++ splice.new :: news) =
      (Pairing.pairUp? oldSymbols newSymbols (record known start splice) olds news).map
        (·.cons splice.old splice.new targets) := by
  unfold record at fits ⊢
  split at fits
  · next empty =>
    have none : (splice.listing start).instructions = [] := by
      rw [listing, empty]
      exact congrArg Listing.instructions (Cursor.lists_iff.mp (.atEnd start))
    rw [none, if_pos empty, List.nil_append, Pairing.pairUp?_cons fits]
  · next nonempty =>
    obtain ⟨first, skipped, run, firstPosition⟩ := exists_first nonempty complete
    rw [run] at different
    rw [← position, ← firstPosition] at fits
    have unfit : ∀ instruction ∈ first :: skipped, ∀ place,
        splice.old.fit? oldSymbols newSymbols place instruction = none := by
      intro instruction mem
      exact Instruction.fit?_eq_none (different instruction mem)
    rw [run, if_neg nonempty, List.cons_append, Pairing.pairUp?_append unfit fits,
      firstPosition, position]

/-- The counterparts are where their instructions have moved, and are as long as these. -/
theorem Chain.landed (chain : Chain oldSymbols newSymbols final.toNew start splices)
    (consecutive : Consecutive oldStart (splices.map (·.old)))
    (aligned : ∀ splice ∈ splices, splice.old.operands.hasTable = true →
      4 ∣ final.toNew splice.old.position - splice.old.position)
    (before : ∀ insertion ∈ known.toList, insertion.before < oldStart)
    (reached : start = oldStart + known.length)
    (extends_ : final.toList = known.toList ++ insertions start splices) :
    ∀ splice ∈ splices, splice.new.position = final.toNew splice.old.position ∧
      splice.new.encoding.length = splice.old.encoding.length := by
  -- old and new positions are apart by the length of the insertions known so far
  induction chain generalizing known oldStart with
  | nil => exact List.forall_mem_nil _
  | @cons start splice rest complete different read counterpart tail ih =>
      have position : splice.old.position = oldStart := consecutive.position_head
      have newPosition := Instruction.position_decode read
      have length : (record known start splice).length = known.length + splice.inserted.length :=
        length_record known
      have before' : ∀ insertion ∈ (record known start splice).toList,
          insertion.before ≤ splice.old.position :=
        before_le_of_mem_record (consecutive.before_le_position before)
      rw [← toList_record_append] at extends_
      have moved : final.toNew splice.old.position =
          splice.old.position + (record known start splice).length := by
        rw [Relocation.toNew_of_append extends_ (fun _ mem => lt_before consecutive mem),
          Relocation.toNew_of_le before']
      rw [List.forall_mem_cons] at aligned
      have next : splice.new.next = splice.old.next + (record known start splice).length := by
        apply counterpart.next_eq consecutive read (by omega)
        intro table
        have divides := aligned.1 table
        omega
      rw [List.forall_mem_cons]
      constructor
      · rw [Instruction.next, Instruction.next] at next
        omega
      · exact ih consecutive.tail aligned.2 (consecutive.before_lt_next before') next extends_

/-- Pairing up finds the counterparts, and the insertions in front of them. -/
theorem Chain.exists_pairing (chain : Chain oldSymbols newSymbols final.toNew start splices)
    (consecutive : Consecutive oldStart (splices.map (·.old)))
    (landed : ∀ splice ∈ splices, splice.new.position = final.toNew splice.old.position)
    (extends_ : final.toList = known.toList ++ insertions start splices)
    (back : List Instruction) :
    ∃ pairing, Pairing.pairUp? oldSymbols newSymbols known (splices.map (·.old))
        (instructions start splices ++ back) = some pairing ∧
      pairing.relocation = final ∧ ∀ pair ∈ pairing.targets, final.toNew pair.1 = pair.2 := by
  induction chain generalizing known oldStart with
  | nil start =>
      refine ⟨⟨known, [], []⟩, rfl, ?_, List.forall_mem_nil _⟩
      exact Relocation.eq_of_toList (by rw [extends_, insertions, List.append_nil])
  | @cons start splice rest complete different read counterpart tail ih =>
      rw [← toList_record_append] at extends_
      rw [List.forall_mem_cons] at landed
      have behind : ∀ insertion ∈ insertions splice.new.next rest,
          splice.old.position < insertion.before := by
        intro insertion mem
        exact lt_before consecutive mem
      obtain ⟨targets, fits, settled⟩ := counterpart.exists_fit? landed.1 extends_ behind
      obtain ⟨pairing, found, eq, settled'⟩ := ih consecutive.tail landed.2 extends_
      refine ⟨pairing.cons splice.old splice.new targets, ?_, eq, ?_⟩
      · rw [instructions, List.map_cons, List.append_assoc, List.cons_append,
          pairUp?_record complete different (Instruction.position_decode read) fits, found]
        rfl
      · intro pair mem
        rcases List.mem_append.mp mem with mem | mem
        · exact settled pair mem
        · exact settled' pair mem

theorem length_flatMap_encoding_le
    (sameLength : ∀ splice ∈ splices,
      splice.new.encoding.length = splice.old.encoding.length) :
    ((splices.map (·.old)).flatMap (·.encoding)).length ≤ (code splices).length := by
  induction splices with
  | nil => exact Nat.le_refl _
  | cons splice rest ih =>
      rw [List.forall_mem_cons] at sameLength
      have later := ih sameLength.2
      simp only [code, List.map_cons, List.flatMap_cons, List.length_append,
        sameLength.1] at later ⊢
      omega

end Splice

namespace Version

/-- Whether a version comes from another one by splices, after which there may be any further code.
Every switch is to be moved by a multiple of four. -/
structure Spliced (old new : Version) (splices : List Splice) (trailing : Bytes) : Prop where
  maxStack : old.body.maxStack = new.body.maxStack
  maxLocals : old.body.maxLocals = new.body.maxLocals
  entrySlots : old.body.entrySlots = new.body.entrySlots
  complete : old.listing.isComplete = true
  instructions : old.listing.instructions = splices.map (·.old)
  code : new.body.code = Splice.code splices ++ trailing
  chain : Splice.Chain old.symbols new.symbols (Splice.moved splices) 0 splices
  aligned : ∀ splice ∈ splices, splice.old.operands.hasTable = true →
    4 ∣ Splice.insertedUpTo splices splice.old.position

variable {old new : Version} {splices : List Splice} {trailing : Bytes}

namespace Spliced

theorem consecutive (spliced : old.Spliced new splices trailing) :
    Consecutive 0 (splices.map (·.old)) := by
  rw [← spliced.instructions]
  exact old.consecutive_listing

/-- The insertions take positions to where the splices have moved them. -/
theorem toNew_eq (spliced : old.Spliced new splices trailing) :
    (Relocation.mk (Splice.insertions 0 splices).toArray).toNew = Splice.moved splices :=
  Splice.toNew_insertions spliced.consecutive

theorem landed (spliced : old.Spliced new splices trailing) :
    ∀ splice ∈ splices, splice.new.position = Splice.moved splices splice.old.position ∧
      splice.new.encoding.length = splice.old.encoding.length := by
  have chain := spliced.chain
  rw [← spliced.toNew_eq] at chain ⊢
  refine chain.landed spliced.consecutive ?_ (List.forall_mem_nil _) rfl Splice.toList_insertions
  intro splice mem table
  rw [spliced.toNew_eq, Splice.moved, Nat.add_sub_cancel_left]
  exact spliced.aligned splice mem table

theorem length_le (spliced : old.Spliced new splices trailing) :
    old.body.code.length ≤ new.body.code.length := by
  have encodings : old.listing.instructions.flatMap (·.encoding) = old.body.code :=
    (Cursor.lists_list (.start old.body.code)).flatMap_encoding
      (Option.isNone_iff_eq_none.mp spliced.complete)
  calc
    old.body.code.length = ((splices.map (·.old)).flatMap (·.encoding)).length := by
      rw [← spliced.instructions, encodings]
    _ ≤ (Splice.code splices).length :=
      Splice.length_flatMap_encoding_le fun splice mem => (spliced.landed splice mem).2
    _ ≤ new.body.code.length := by
      rw [spliced.code, List.length_append]
      exact Nat.le_add_right _ _

theorem exists_instructions (spliced : old.Spliced new splices trailing) :
    ∃ back, new.listing.instructions = Splice.instructions 0 splices ++ back := by
  obtain ⟨back, listed⟩ := spliced.chain.exists_lists trailing
  refine ⟨back.instructions, ?_⟩
  rw [listing, spliced.code]
  exact congrArg Listing.instructions (Cursor.lists_iff.mp listed)

end Spliced

/-- All that was spliced in is found again, and nothing else. -/
theorem relocation?_of_spliced (spliced : old.Spliced new splices trailing) :
    old.relocation? new = some ⟨(Splice.insertions 0 splices).toArray⟩ := by
  obtain ⟨back, instructions⟩ := spliced.exists_instructions
  have chain := spliced.chain
  rw [← spliced.toNew_eq] at chain
  have landed : ∀ splice ∈ splices, splice.new.position =
      (Relocation.mk (Splice.insertions 0 splices).toArray).toNew splice.old.position := by
    intro splice mem
    rw [spliced.toNew_eq]
    exact (spliced.landed splice mem).1
  obtain ⟨pairing, found, eq, settled⟩ :=
    chain.exists_pairing spliced.consecutive landed Splice.toList_insertions back
  rw [relocation?_eq_some_iff]
  refine ⟨?_, pairing, ?_, ?_, eq⟩
  · simp [Mode.obstacle?, spliced.maxStack, spliced.maxLocals, spliced.entrySlots,
      Mode.admitsLengths, spliced.length_le]
  · rw [pairing?, if_pos spliced.complete, spliced.instructions, instructions, found]
  · rw [Pairing.isSettled_iff, eq]
    exact settled

/-- Code is inserted in front of a switch, and in front of an instruction that jumps to itself. At
the end is something that cannot be read. -/
theorem relocation?_of_spliced_switch :
    let old := ofCode [0x1a, 0xaa, 0, 0, 0xff, 0xff, 0xff, 0xff, 0, 0, 0, 0, 0, 0, 0, 0,
      0, 0, 0, 19, 0xa7, 0, 0, 0xb1]
    let new := ofCode [0, 0, 0, 0, 0x1a, 0xaa, 0, 0, 0xff, 0xff, 0xff, 0xff, 0, 0, 0, 0, 0, 0, 0, 0,
      0, 0, 0, 20, 0, 0xa7, 0, 0, 0xb1, 0xff, 0xff]
    let splices : List Splice := [
      ⟨[0, 0, 0, 0], ⟨⟨0x1a⟩, 0, false, [0x1a], .none⟩, ⟨⟨0x1a⟩, 4, false, [0x1a], .none⟩⟩,
      ⟨[],
        ⟨⟨0xaa⟩, 1, false,
          [0xaa, 0, 0, 0xff, 0xff, 0xff, 0xff, 0, 0, 0, 0, 0, 0, 0, 0, 0, 0, 0, 19],
          .tableSwitch (-1) 0 0 [19]⟩,
        ⟨⟨0xaa⟩, 5, false,
          [0xaa, 0, 0, 0xff, 0xff, 0xff, 0xff, 0, 0, 0, 0, 0, 0, 0, 0, 0, 0, 0, 20],
          .tableSwitch (-1) 0 0 [20]⟩⟩,
      ⟨[0], ⟨⟨0xa7⟩, 20, false, [0xa7, 0, 0], .jump 0⟩,
        ⟨⟨0xa7⟩, 25, false, [0xa7, 0, 0], .jump 0⟩⟩,
      ⟨[], ⟨⟨0xb1⟩, 23, false, [0xb1], .none⟩, ⟨⟨0xb1⟩, 28, false, [0xb1], .none⟩⟩]
    old.Spliced new splices [0xff, 0xff] ∧
      old.relocation? new = some ⟨#[⟨0, 0, 4⟩, ⟨20, 24, 25⟩]⟩ := by
  intro old new splices
  have chain : Splice.Chain old.symbols new.symbols (Splice.moved splices) 0 splices := by
    refine .cons (by decide +kernel) (by decide +kernel) rfl ⟨rfl, rfl, .none⟩ ?_
    refine .cons (by decide +kernel) (by decide +kernel) (by decide +kernel)
      ⟨rfl, rfl, .tableSwitch 0 0 ⟨0, rfl, rfl⟩ (.cons ⟨20, rfl, rfl⟩ .nil)⟩ ?_
    refine .cons (by decide +kernel) (by decide +kernel) (by decide +kernel)
      ⟨rfl, rfl, .jump ⟨20, rfl, rfl⟩⟩ ?_
    exact .cons (by decide +kernel) (by decide +kernel) rfl ⟨rfl, rfl, .none⟩ (.nil _)
  have spliced : old.Spliced new splices [0xff, 0xff] :=
    ⟨rfl, rfl, rfl, by decide +kernel, by decide +kernel, rfl, chain, by decide +kernel⟩
  exact ⟨spliced, relocation?_of_spliced spliced⟩

end Version

end HotSwap
