import HotSwap.Proofs.Listing
import HotSwap.Proofs.Patching
import HotSwap.Proofs.Statements

/-! # The instructions of a program

Every statement of a program, apart from labels, becomes one instruction of the code, with the
opcode and the operands that the statement names. The instructions follow each other in the
order of the statements and take up the whole code. Jumps and switches lead to where their
labels were placed last. Since the code of the first statements of a program ends in front of an
instruction or at the end of the code, this is where a label is. -/

namespace HotSwap

/-- The positions of the instructions of a listing, and where it stops. -/
def Listing.boundaries (listing : Listing) : List Nat :=
  listing.instructions.map (·.position) ++ [listing.stop.position]

/-- How many instructions there are in a program. -/
def Statement.count (program : List Statement) : Nat :=
  (program.filter Statement.isInstruction).length

/-- What is known of a program and of the code that it comes to, when labels have the given
places. -/
structure Assembles (places : List (Label × Nat)) (program : List Statement) (code : Bytes)
    (listing : Listing) : Prop where
  lists : Cursor.Lists (.start code) listing
  complete : listing.fault = none
  stop : listing.stop = ⟨code.length, []⟩
  names : List.Forall₂
    (fun statement instruction =>
      statement.Names (Reaches places instruction.position) instruction.opcode instruction.wide
        instruction.operands)
    (program.filter Statement.isInstruction) listing.instructions
  /-- The code of the first statements ends at the boundary behind their instructions. -/
  boundaries : ∀ front, front <+: program →
    listing.boundaries[Statement.count front]? = some (Draft.ofStatements front).length

namespace Assembles

variable {places : List (Label × Nat)} {program : List Statement} {statement : Statement}
  {code bytes : Bytes} {listing : Listing}

theorem nil (places : List (Label × Nat)) : Assembles places [] [] ⟨[], none, ⟨0, []⟩⟩ where
  lists := .atEnd 0
  complete := rfl
  stop := rfl
  names := .nil
  boundaries := by
    intro front isFront
    rw [List.prefix_nil.mp isFront]
    rfl

/-- A label adds nothing to the code. -/
theorem label (assembles : Assembles places program code listing) (label : Label) :
    Assembles places (program ++ [.label label]) code listing where
  lists := assembles.lists
  complete := assembles.complete
  stop := assembles.stop
  names := by
    rw [List.filter_append]
    simpa [Statement.isInstruction] using assembles.names
  boundaries := by
    intro front isFront
    rcases List.prefix_concat_iff.mp isFront with rfl | isFront
    · have whole := assembles.boundaries program List.prefix_rfl
      have sameCount : Statement.count (program ++ [.label label]) = Statement.count program := by
        simp [Statement.count, Statement.isInstruction]
      rw [sameCount, whole, Draft.ofStatements_concat]
      rfl
    · exact assembles.boundaries front isFront

/-- An instruction is read behind the code of the statements before. -/
theorem instruction (assembles : Assembles places program code listing)
    (isInstruction : statement.isInstruction = true)
    (isRead : statement.IsReadFrom places code.length bytes)
    (length : (Draft.ofStatements (program ++ [statement])).length = (code ++ bytes).length) :
    ∃ listing, Assembles places (program ++ [statement]) (code ++ bytes) listing := by
  obtain ⟨opcode, wide, operands, decoded, names⟩ := isRead
  let instruction : Instruction := ⟨opcode, code.length, wide, bytes, operands⟩
  have next : instruction.next = (code ++ bytes).length := (List.length_append).symm
  have alone : Cursor.Lists ⟨0 + code.length, bytes⟩
      ⟨[instruction], none, ⟨(code ++ bytes).length, []⟩⟩ := by
    have tail : Cursor.Lists ⟨instruction.next, bytes.drop bytes.length⟩
        ⟨[], none, ⟨(code ++ bytes).length, []⟩⟩ := by
      rw [next, List.drop_length]
      exact .atEnd _
    rw [Nat.zero_add]
    exact .step decoded tail
  have reached : listing.stop.position = code.length := by rw [assembles.stop]
  have counted : Statement.count program = listing.instructions.length :=
    assembles.names.length_eq
  refine ⟨_, assembles.lists.append assembles.complete alone, rfl, rfl, ?_, ?_⟩
  · rw [List.filter_append, List.filter_cons_of_pos isInstruction]
    exact List.rel_append assembles.names (.cons names .nil)
  · intro front isFront
    -- the old end is now the position of the instruction, so all old boundaries stay
    have boundaries : Listing.boundaries ⟨listing.instructions ++ [instruction], none,
        ⟨(code ++ bytes).length, []⟩⟩ = listing.boundaries ++ [(code ++ bytes).length] := by
      simp [Listing.boundaries, reached, instruction]
    rw [boundaries]
    rcases List.prefix_concat_iff.mp isFront with rfl | isFront
    · have last : Statement.count (program ++ [statement]) = listing.boundaries.length := by
        simp [Statement.count, Listing.boundaries, isInstruction, ← counted]
      rw [last, List.getElem?_concat_length, length]
    · have found := assembles.boundaries front isFront
      rw [List.getElem?_append_left (List.getElem?_eq_some_iff.mp found).1, found]

end Assembles

namespace Statement

theorem eq_label_of_not_isInstruction {statement : Statement}
    (isLabel : statement.isInstruction = false) : ∃ label, statement = .label label := by
  cases statement with
  | label label => exact ⟨label, rfl⟩
  | _ => cases isLabel

end Statement

/-- The code that comes of a program has one instruction for each statement but labels. -/
theorem exists_assembles {places : List (Label × Nat)} {program : List Statement} {code : Bytes}
    (wellFormed : ∀ statement ∈ program, statement.WellFormed)
    (fills : Piece.Fills places (Draft.ofStatements program).pieces.reverse code) :
    ∃ listing, Assembles places program code listing := by
  -- a draft grows at its end, and so does the listing, so the last statement is taken off first
  induction program using List.reverseRecOn generalizing code with
  | nil =>
      cases fills
      exact ⟨_, .nil places⟩
  | append_singleton program statement ih =>
      have length : (Draft.ofStatements (program ++ [statement])).length = code.length := by
        rw [Draft.length_ofStatements, fills.length_eq]
      rw [Draft.ofStatements_concat, Draft.pieces_add] at fills
      obtain ⟨front, bytes, fillsFront, fillsBytes, rfl⟩ := fills.of_append
      obtain ⟨listing, assembles⟩ :=
        ih (fun other mem => wellFormed other (List.mem_append_left _ mem)) fillsFront
      rw [Draft.length_ofStatements, ← fillsFront.length_eq] at fillsBytes
      cases isInstruction : statement.isInstruction with
      | false =>
          obtain ⟨label, rfl⟩ := Statement.eq_label_of_not_isInstruction isInstruction
          cases fillsBytes
          rw [List.append_nil]
          exact ⟨listing, assembles.label label⟩
      | true =>
          have isRead := Statement.isReadFrom_of_fills
            (wellFormed statement (List.mem_append_right _ List.mem_cons_self)) isInstruction
            fillsBytes
          exact assembles.instruction isInstruction isRead length

/-- A label is where the instruction behind it begins, or at the end of the code. -/
theorem PlacedAt.exists_boundary {places : List (Label × Nat)} {program : List Statement}
    {code : Bytes} {listing : Listing} {label : Label} {place : Nat}
    (placed : PlacedAt program label place) (assembles : Assembles places program code listing) :
    ∃ front back, program = front ++ .label label :: back ∧ .label label ∉ back ∧
      listing.boundaries[Statement.count front]? = some place := by
  obtain ⟨front, back, eq, notLater, rfl⟩ := placed
  refine ⟨front, back, eq, notLater, ?_⟩
  rw [Emission.length_code]
  exact assembles.boundaries front ⟨.label label :: back, eq.symm⟩

/-- Whether an instruction is the one that a statement of a program names, and every distance in it
leads to where the label of the statement was placed last. -/
def Statement.Becomes (program : List Statement) (statement : Statement)
    (instruction : Instruction) : Prop :=
  statement.Names
    (fun label offset => ∃ place, PlacedAt program label place ∧
      instruction.target offset = some place)
    instruction.opcode instruction.wide instruction.operands

/-- The code of a program can be read up to its end, and consists of one instruction for each
statement but labels, in the order of the statements. The instructions are those that the statements
name, and jumps and switches go to where their labels were placed last. A label is where the
instruction of the next statement begins, or at the end of the code. -/
theorem listing_of_assemble {program : List Statement} {code : Bytes}
    (wellFormed : ∀ statement ∈ program, statement.WellFormed)
    (assembled : assemble program = .ok code) :
    let listing := Listing.ofCode code
    listing.isComplete = true ∧ listing.stop.position = code.length ∧
      listing.instructions.flatMap (·.encoding) = code ∧
      List.Forall₂ (Statement.Becomes program)
        (program.filter Statement.isInstruction) listing.instructions ∧
      ∀ label place, PlacedAt program label place →
        ∃ front back, program = front ++ .label label :: back ∧ .label label ∉ back ∧
          listing.boundaries[Statement.count front]? = some place := by
  have fills := Draft.fills_of_finish assembled
  obtain ⟨listing, assembles⟩ := exists_assembles wellFormed fills
  have isListing : Listing.ofCode code = listing := Cursor.lists_iff.mp assembles.lists
  rw [isListing]
  refine ⟨?_, ?_, ?_, ?_, ?_⟩
  · rw [Listing.isComplete, assembles.complete]
    rfl
  · rw [assembles.stop]
  · exact assembles.lists.flatMap_encoding assembles.complete
  · refine assembles.names.imp fun statement instruction names => names.imp ?_
    rintro label offset ⟨place, found, lands⟩
    have placed := (Draft.lookup_eq_some_iff program label place).mp found
    exact ⟨place, placed, Instruction.target_eq_some_iff.mpr lands.symm⟩
  · intro label place placed
    exact placed.exists_boundary assembles

/-- A program with jumps forward and back, a label that is placed twice and one at the end, two
switches with different padding, and numbers that are just too large for one byte. -/
theorem listing_of_assemble_switches :
    let program : List Statement := [.label 0, .label 1, .plain ⟨0⟩, .jump ⟨0xA7⟩ 1, .label 1,
      .loadConstant 256, .slot ⟨0x15⟩ 256, .tableswitch 0 5 [1, 2], .increment 1 (-129),
      .lookupswitch 2 [(-1, 0)], .wideSlot ⟨0x15⟩ 0, .label 2]
    let code : Bytes := [0, 0xA7, 0, 3, 0x13, 1, 0, 0xC4, 0x15, 1, 0, 0xAA, 0xFF, 0xFF, 0xFF, 0xF5,
      0, 0, 0, 5, 0, 0, 0, 6, 0xFF, 0xFF, 0xFF, 0xF9, 0, 0, 0, 49, 0xC4, 0x84, 0, 1, 0xFF, 0x7F,
      0xAB, 0, 0, 0, 0, 22, 0, 0, 0, 1, 0xFF, 0xFF, 0xFF, 0xFF, 0xFF, 0xFF, 0xFF, 0xDA, 0xC4, 0x15,
      0, 0]
    let listing := Listing.ofCode code
    (∀ statement ∈ program, statement.WellFormed) ∧ assemble program = .ok code ∧
      listing.boundaries = [0, 1, 4, 7, 11, 32, 38, 56, 60] ∧ listing.isComplete = true ∧
      listing.instructions.flatMap (·.encoding) = code ∧
      List.Forall₂ (Statement.Becomes program)
        (program.filter Statement.isInstruction) listing.instructions ∧
      ∀ label place, PlacedAt program label place →
        ∃ front back, program = front ++ .label label :: back ∧ .label label ∉ back ∧
          listing.boundaries[Statement.count front]? = some place := by
  intro program code listing
  have wellFormed : ∀ statement ∈ program, statement.WellFormed := by decide +kernel
  have assembled : assemble program = .ok code := by decide +kernel
  obtain ⟨complete, -, covers, becomes, labels⟩ := listing_of_assemble wellFormed assembled
  exact ⟨wellFormed, assembled, by decide +kernel, complete, covers, becomes, labels⟩

end HotSwap
