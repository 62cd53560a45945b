import HotSwap.Proofs.Drafting
import HotSwap.Proofs.SwitchTable
import Mathlib.Algebra.Group.Int.Defs
import Mathlib.Algebra.Group.Nat.Defs

/-! # Slots for distances

The code of a program can be written down before the places of its labels are known, with zero bytes
in the slots for the distances. It is assembled if every distance can be written into its slot, and
then differs from what was written down in the slots only. If it is not assembled, then this is due
to the first slot whose label has no place, or whose distance is too large. -/

namespace HotSwap

theorem Bytes.capacity_eq (width : Nat) : capacity width = 2 ^ (8 * width) := by
  induction width with
  | zero => rfl
  | succ width ih => rw [capacity, ih, Nat.mul_succ, Nat.pow_add, Nat.mul_comm]

/-- Bytes of a code that are free for the distance from an instruction to a label. -/
structure Slot where
  start : Nat
  width : Nat
  origin : Nat
  target : Label
  deriving DecidableEq, Repr

namespace Slot

/-- Whether a distance can be written into a slot as a signed number. -/
def Admits (slot : Slot) (distance : Int) : Prop :=
  -2 ^ (8 * slot.width - 1) ≤ distance ∧ distance < 2 ^ (8 * slot.width - 1)

instance (slot : Slot) (distance : Int) : Decidable (slot.Admits distance) :=
  inferInstanceAs (Decidable (_ ∧ _))

theorem admits_iff {slot : Slot} (nonempty : 0 < slot.width) {distance : Int} :
    slot.Admits distance ↔ Bytes.FitsInt slot.width distance := by
  have exponent : 8 * slot.width = 8 * slot.width - 1 + 1 := by omega
  rw [Bytes.fitsInt_iff, Bytes.capacity_eq, exponent, Nat.pow_succ, Admits]
  push_cast
  generalize (2 : Int) ^ (8 * slot.width - 1) = half
  omega

def Covers (slot : Slot) (index : Nat) : Prop :=
  slot.start ≤ index ∧ index < slot.start + slot.width

/-- The bytes of a code in a slot. -/
def content (slot : Slot) (code : Bytes) : Bytes :=
  (code.drop slot.start).take slot.width

/-- Whether the label of a slot has a place, to which the distance fits. -/
def Settled (placed : Label → Nat → Prop) (slot : Slot) : Prop :=
  ∃ place, placed slot.target place ∧ slot.Admits (place - slot.origin)

/-- Why there is no distance for a slot. -/
inductive Fails (placed : Label → Nat → Prop) (slot : Slot) : AssemblyError → Prop
  | unplaced (nowhere : ∀ place, ¬ placed slot.target place) :
      Fails placed slot (.unplaced slot.target)
  | outOfRange {place : Nat} (found : placed slot.target place)
      (far : ¬ slot.Admits (place - slot.origin)) :
      Fails placed slot (.outOfRange slot.origin place)

end Slot

namespace Statement

/-- The slots of a statement at a position. The distances of a switch are behind the padding: that
of its default comes first, and the others come behind its bounds or its keys. -/
def slots (position : Nat) : Statement → List Slot
  | jump opcode target =>
      [⟨position + 1, if opcode = .gotoW ∨ opcode = .jsrW then 4 else 2, position, target⟩]
  | tableswitch otherwise _ targets =>
      let table := position + 1 + tablePadding position
      ⟨table, 4, position, otherwise⟩ ::
        targets.mapIdx fun index target => ⟨table + 12 + 4 * index, 4, position, target⟩
  | lookupswitch otherwise cases =>
      let table := position + 1 + tablePadding position
      ⟨table, 4, position, otherwise⟩ ::
        cases.mapIdx fun index case => ⟨table + 12 + 8 * index, 4, position, case.2⟩
  | _ => []

end Statement

namespace Piece

/-- The bytes of a piece before its distance is known. -/
def blank : Piece → Bytes
  | bytes content => content
  | gap width _ _ => List.replicate width 0

/-- The gaps of some pieces that begin at a position. -/
def slots : Nat → List Piece → List Slot
  | _, [] => []
  | start, bytes content :: rest => slots (start + content.length) rest
  | start, gap width origin target :: rest =>
      ⟨start, width, origin, target⟩ :: slots (start + width) rest

theorem length_blank (pieces : List Piece) : (pieces.flatMap blank).length = totalSize pieces := by
  induction pieces with
  | nil => rfl
  | cons piece rest ih =>
      have size : piece.blank.length = piece.size := by
        cases piece with
        | bytes content => rfl
        | gap width => exact List.length_replicate
      rw [List.flatMap_cons, List.length_append, ih, size]
      rfl

theorem slots_append (start : Nat) (front back : List Piece) :
    slots start (front ++ back) = slots start front ++ slots (start + totalSize front) back := by
  induction front generalizing start with
  | nil => rfl
  | cons piece front ih =>
      cases piece with
      | bytes content =>
          rw [List.cons_append, slots, slots, ih, Nat.add_assoc]
          rfl
      | gap width origin target =>
          rw [List.cons_append, slots, slots, ih, Nat.add_assoc]
          rfl

/-- The gaps of a switch over a range. -/
theorem slots_map_gap (start position : Nat) (targets : List Label) :
    slots start (targets.map (.gap 4 position)) =
      targets.mapIdx fun index target => ⟨start + 4 * index, 4, position, target⟩ := by
  induction targets generalizing start with
  | nil => rfl
  | cons target rest ih =>
      rw [List.map_cons, slots, ih, List.mapIdx_cons]
      simp only [Nat.mul_zero, Nat.add_zero, Nat.mul_add, Nat.mul_one, Nat.add_assoc,
        Nat.add_comm 4]

/-- The gaps of a switch over a list of keys. -/
theorem slots_flatMap_case (start position : Nat) (cases : List (Int32 × Label)) :
    slots start (cases.flatMap fun (key, target) =>
        [.bytes (Word.i32.encode key), .gap 4 position target]) =
      cases.mapIdx fun index case => ⟨start + 4 + 8 * index, 4, position, case.2⟩ := by
  have width (key : Int32) : (Word.i32.encode key).length = 4 := Bytes.length_ofNat 4 _
  induction cases generalizing start with
  | nil => rfl
  | cons case rest ih =>
      rw [List.flatMap_cons, List.cons_append, slots, List.cons_append, slots, width,
        List.nil_append, ih, List.mapIdx_cons]
      have next (index : Nat) : start + 4 + 4 + 4 + 8 * index = start + 4 + 8 * (index + 1) := by
        omega
      simp only [next, Nat.mul_zero, Nat.add_zero]

end Piece

namespace Statement

theorem distanceWidth_eq (opcode : Opcode) :
    distanceWidth opcode = if opcode = .gotoW ∨ opcode = .jsrW then 4 else 2 := by
  simp only [distanceWidth, Opcode.layout_eq_wideJump_iff]

/-- The gap of the default of a switch comes first. -/
theorem slots_switch (position : Nat) (opcode : Opcode) (otherwise : Label) (head : Bytes)
    (rest : List Piece) :
    let table := position + 1 + tablePadding position
    Piece.slots position (switch position opcode otherwise head rest) =
      ⟨table, 4, position, otherwise⟩ :: Piece.slots (table + 4 + head.length) rest := by
  have table : position + (opcode.toByte :: List.replicate (tablePadding position) 0).length =
      position + 1 + tablePadding position := by
    rw [List.length_cons, List.length_replicate]
    omega
  simp only [switch, Piece.slots, table]

/-- The gaps in the pieces of a statement are its slots. -/
theorem slots_pieces (position : Nat) (statement : Statement) :
    Piece.slots position (statement.pieces position) = statement.slots position := by
  cases statement with
  | jump opcode target =>
      simp only [pieces, slots, Piece.slots, distanceWidth_eq, List.length_singleton]
  | tableswitch otherwise low targets =>
      have bounds (high : Int) : (Word.i32.encode low ++ Bytes.ofInt 4 high).length = 8 := by
        rw [List.length_append, Bytes.length_ofInt, Word.encode, Bytes.length_ofNat]
        rfl
      rw [pieces, slots_switch, bounds, Piece.slots_map_gap]
      rfl
  | lookupswitch otherwise cases =>
      rw [pieces, slots_switch, Bytes.length_ofNat, Piece.slots_flatMap_case]
      rfl
  | _ =>
      simp only [pieces, wideSlotPieces, wideIncrementPieces, known]
      repeat' split
      all_goals rfl

/-- The bytes of a statement at a position before its distances are known. -/
def emitted (position : Nat) (statement : Statement) : Bytes :=
  (statement.pieces position).flatMap Piece.blank

theorem width_slots {position : Nat} {statement : Statement} {slot : Slot}
    (mem : slot ∈ statement.slots position) : slot.width = 2 ∨ slot.width = 4 := by
  cases statement with
  | jump opcode target =>
      obtain rfl := List.mem_singleton.mp mem
      dsimp only
      split
      · exact .inr rfl
      · exact .inl rfl
  | tableswitch otherwise low targets =>
      rcases List.mem_cons.mp mem with rfl | mem
      · exact .inr rfl
      · obtain ⟨index, less, rfl⟩ := List.mem_mapIdx.mp mem
        exact .inr rfl
  | lookupswitch otherwise cases =>
      rcases List.mem_cons.mp mem with rfl | mem
      · exact .inr rfl
      · obtain ⟨index, less, rfl⟩ := List.mem_mapIdx.mp mem
        exact .inr rfl
  | _ => cases mem

end Statement

/-- The code of some statements before any distance is known, and its slots in their order. -/
structure Emission where
  code : Bytes
  slots : List Slot
  deriving DecidableEq, Repr

namespace Emission

def add (emission : Emission) (statement : Statement) : Emission :=
  let position := emission.code.length
  ⟨emission.code ++ statement.emitted position, emission.slots ++ statement.slots position⟩

def ofStatements (program : List Statement) : Emission :=
  program.foldl add ⟨[], []⟩

theorem ofStatements_concat (program : List Statement) (statement : Statement) :
    ofStatements (program ++ [statement]) = (ofStatements program).add statement := by
  rw [ofStatements, List.foldl_append]
  rfl

/-- What is written down is what a draft has, with its gaps left blank. -/
theorem ofStatements_eq (program : List Statement) :
    ofStatements program =
      ⟨(Draft.ofStatements program).pieces.reverse.flatMap Piece.blank,
        Piece.slots 0 (Draft.ofStatements program).pieces.reverse⟩ := by
  induction program using List.reverseRecOn with
  | nil => rfl
  | append_singleton program statement ih =>
      rw [Draft.ofStatements_concat, Draft.pieces_add, ofStatements_concat, ih, add,
        Piece.length_blank, List.flatMap_append, Piece.slots_append, Nat.zero_add,
        ← Draft.length_ofStatements, Statement.slots_pieces]
      rfl

theorem length_code (program : List Statement) :
    (ofStatements program).code.length = (Draft.ofStatements program).length := by
  rw [ofStatements_eq, Piece.length_blank, Draft.length_ofStatements]

theorem width_slots {program : List Statement} {slot : Slot}
    (mem : slot ∈ (ofStatements program).slots) : slot.width = 2 ∨ slot.width = 4 := by
  induction program using List.reverseRecOn with
  | nil => cases mem
  | append_singleton program statement ih =>
      rw [ofStatements_concat] at mem
      rcases List.mem_append.mp mem with mem | mem
      · exact ih mem
      · exact Statement.width_slots mem

theorem width_pos {program : List Statement} {slot : Slot}
    (mem : slot ∈ (ofStatements program).slots) : 0 < slot.width := by
  rcases width_slots mem with two | four <;> omega

end Emission

/-- Whether a label was placed last when the code had a length. -/
def PlacedAt (program : List Statement) (label : Label) (place : Nat) : Prop :=
  ∃ front back, program = front ++ .label label :: back ∧ .label label ∉ back ∧
    place = (Emission.ofStatements front).code.length

namespace Draft

theorem lookup_of_not_mem {label : Label} {front back : List Statement}
    (notLater : .label label ∉ back) :
    (ofStatements (front ++ .label label :: back)).places.lookup label =
      some (ofStatements front).length := by
  -- a statement behind the label is looked at before it, so the last one is taken off first
  induction back using List.reverseRecOn with
  | nil =>
      rw [ofStatements_concat]
      exact List.lookup_cons_self
  | append_singleton back statement ih =>
      rw [List.mem_append, List.mem_singleton, not_or] at notLater
      rw [← List.cons_append, ← List.append_assoc, ofStatements_concat]
      cases statement with
      | label other =>
          have different : (label == other) = false := by
            rw [beq_eq_false_iff_ne]
            rintro rfl
            exact notLater.2 rfl
          simp only [add, List.lookup_cons, different]
          exact ih notLater.1
      | _ => exact ih notLater.1

theorem lookup_eq_some_iff (program : List Statement) (label : Label) (place : Nat) :
    (ofStatements program).places.lookup label = some place ↔ PlacedAt program label place := by
  constructor
  · intro placed
    obtain ⟨front, back, eq, notLater, rfl⟩ := exists_of_lookup placed
    exact ⟨front, back, eq, notLater, (Emission.length_code front).symm⟩
  · rintro ⟨front, back, rfl, notLater, rfl⟩
    rw [lookup_of_not_mem notLater, Emission.length_code]

end Draft

namespace Piece

variable {places : List (Label × Nat)} {placed : Label → Nat → Prop} {pieces : List Piece}
  {bytes : Bytes} {start : Nat} {slot : Slot}

theorem slots_bounds (mem : slot ∈ slots start pieces) :
    start ≤ slot.start ∧ slot.start + slot.width ≤ start + totalSize pieces := by
  induction pieces generalizing start with
  | nil => cases mem
  | cons piece rest ih =>
      have total : totalSize (piece :: rest) = piece.size + totalSize rest := rfl
      cases piece with
      | bytes content =>
          have inside := ih mem
          rw [total, size]
          omega
      | gap width origin target =>
          rw [total, size]
          rcases List.mem_cons.mp mem with rfl | mem
          · dsimp only
            omega
          · have inside := ih mem
            omega

theorem pairwise_slots (start : Nat) (pieces : List Piece) :
    (slots start pieces).Pairwise fun earlier later =>
      earlier.start + earlier.width ≤ later.start := by
  induction pieces generalizing start with
  | nil => exact .nil
  | cons piece rest ih =>
      cases piece with
      | bytes content => exact ih _
      | gap width origin target => exact .cons (fun later mem => (slots_bounds mem).1) (ih _)

/-- A gap is filled, or there is a reason why not. -/
theorem fill_gap (lookup : ∀ label place, places.lookup label = some place ↔ placed label place)
    (nonempty : 0 < slot.width) :
    slot.Settled placed ∧ (∃ chunk, fill places (.gap slot.width slot.origin slot.target) =
        .ok chunk) ∨
      ∃ cause, fill places (.gap slot.width slot.origin slot.target) = .error cause ∧
        slot.Fails placed cause := by
  rw [fill]
  cases found : places.lookup slot.target with
  | none =>
      refine .inr ⟨_, rfl, .unplaced fun place isPlaced => ?_⟩
      cases found.symm.trans ((lookup _ _).mpr isPlaced)
  | some place =>
      have isPlaced := (lookup _ _).mp found
      by_cases fits : Bytes.FitsInt slot.width ((place : Int) - slot.origin)
      · exact .inl ⟨⟨place, isPlaced, (Slot.admits_iff nonempty).mpr fits⟩, _, if_pos fits⟩
      · exact .inr ⟨_, if_neg fits, .outOfRange isPlaced (mt (Slot.admits_iff nonempty).mp fits)⟩

/-- Filling the gaps fails at the first one that cannot be filled. -/
theorem exists_fails (lookup : ∀ label place, places.lookup label = some place ↔ placed label place)
    (nonempty : ∀ slot ∈ slots start pieces, 0 < slot.width) {cause : AssemblyError}
    (failed : pieces.mapM (fill places) = .error cause) :
    ∃ front slot back, slots start pieces = front ++ slot :: back ∧
      (∀ earlier ∈ front, earlier.Settled placed) ∧ slot.Fails placed cause := by
  induction pieces generalizing start with
  | nil => cases failed
  | cons piece rest ih =>
      rw [List.mapM_cons] at failed
      -- once a piece is filled, it is one of the others that fails
      have behind {chunk : Bytes} (filled : piece.fill places = .ok chunk) :
          rest.mapM (fill places) = .error cause := by
        rw [filled] at failed
        cases later : rest.mapM (fill places) with
        | error cause' =>
            rw [later] at failed
            cases failed
            rfl
        | ok chunks =>
            rw [later] at failed
            cases failed
      cases piece with
      | bytes content => exact ih nonempty (behind rfl)
      | gap width origin target =>
          rw [slots, List.forall_mem_cons] at nonempty
          rcases fill_gap lookup nonempty.1 with ⟨settled, chunk, filled⟩ | ⟨cause', first, fails⟩
          · obtain ⟨front, slot, back, eq, earlier, fails⟩ := ih nonempty.2 (behind filled)
            refine ⟨_ :: front, slot, back, ?_, List.forall_mem_cons.mpr ⟨settled, earlier⟩, fails⟩
            rw [slots, eq, List.cons_append]
          · dsimp only at first
            rw [first] at failed
            cases failed
            exact ⟨[], _, _, rfl, List.forall_mem_nil _, fails⟩

/-- The bytes of a gap that is filled. -/
theorem Fills.exists_window (fills : Fills places pieces bytes)
    (mem : slot ∈ slots start pieces) :
    ∃ place front back, places.lookup slot.target = some place ∧
      Bytes.FitsInt slot.width ((place : Int) - slot.origin) ∧
      bytes = front ++ (Bytes.ofInt slot.width ((place : Int) - slot.origin) ++ back) ∧
      slot.start = start + front.length := by
  induction fills generalizing start with
  | nil => cases mem
  | bytes content later ih =>
      obtain ⟨place, front, back, found, fits, rfl, reached⟩ := ih mem
      refine ⟨place, content ++ front, back, found, fits, (List.append_assoc ..).symm, ?_⟩
      rw [reached, List.length_append, Nat.add_assoc]
  | @gap width origin place target pieces rest found fits later ih =>
      rcases List.mem_cons.mp mem with rfl | mem
      · exact ⟨place, [], rest, found, fits, rfl, rfl⟩
      · obtain ⟨place', front, back, found', fits', rfl, reached⟩ := ih mem
        refine ⟨place', Bytes.ofInt width ((place : Int) - origin) ++ front, back, found', fits',
          (List.append_assoc ..).symm, ?_⟩
        rw [reached, List.length_append, Bytes.length_ofInt, Nat.add_assoc]

/-- All other bytes are there before the gaps are filled. -/
theorem Fills.getElem?_eq (fills : Fills places pieces bytes) (start : Nat) {index : Nat}
    (outside : ∀ slot ∈ slots start pieces, ¬ slot.Covers (start + index)) :
    bytes[index]? = (pieces.flatMap blank)[index]? := by
  induction fills generalizing start index with
  | nil => rfl
  | @bytes content pieces rest later ih =>
      rw [List.flatMap_cons, blank]
      rcases Nat.lt_or_ge index content.length with less | ge
      · rw [List.getElem?_append_left less, List.getElem?_append_left less]
      · have reached : start + content.length + (index - content.length) = start + index := by
          omega
        rw [List.getElem?_append_right ge, List.getElem?_append_right ge]
        exact ih (start + content.length) (by rwa [reached])
  | @gap width origin place target pieces rest found fits later ih =>
      rw [slots, List.forall_mem_cons] at outside
      have ge : width ≤ index := by
        have notHere := outside.1
        simp only [Slot.Covers] at notHere
        omega
      have reached : start + width + (index - width) = start + index := by omega
      rw [List.flatMap_cons, blank, List.getElem?_append_right (by rwa [Bytes.length_ofInt]),
        List.getElem?_append_right (by rwa [List.length_replicate]), Bytes.length_ofInt,
        List.length_replicate]
      exact ih (start + width) (by rw [reached]; exact outside.2)

end Piece

section Assemble

variable {program : List Statement}

/-- A slot of assembled code holds the distance to the place of its label. -/
theorem exists_content_of_assemble {code : Bytes} (assembled : assemble program = .ok code)
    {slot : Slot} (mem : slot ∈ (Emission.ofStatements program).slots) :
    ∃ place, PlacedAt program slot.target place ∧ slot.Admits (place - slot.origin) ∧
      slot.content code = Bytes.ofInt slot.width (place - slot.origin) := by
  have nonempty := Emission.width_pos mem
  rw [Emission.ofStatements_eq] at mem
  obtain ⟨place, front, back, found, fits, rfl, reached⟩ :=
    (Draft.fills_of_finish assembled).exists_window mem
  refine ⟨place, (Draft.lookup_eq_some_iff ..).mp found, (Slot.admits_iff nonempty).mpr fits, ?_⟩
  rw [Slot.content, reached, Nat.zero_add, List.drop_left,
    List.take_left' (Bytes.length_ofInt ..)]

/-- The first slot that fails is the reason why a program is not assembled. -/
theorem exists_fails_of_assemble {cause : AssemblyError}
    (failed : assemble program = .error cause) :
    ∃ front slot back, (Emission.ofStatements program).slots = front ++ slot :: back ∧
      (∀ earlier ∈ front, earlier.Settled (PlacedAt program)) ∧
      slot.Fails (PlacedAt program) cause := by
  have nonempty : ∀ slot ∈ (Emission.ofStatements program).slots, 0 < slot.width :=
    fun slot mem => Emission.width_pos mem
  rw [Emission.ofStatements_eq] at nonempty ⊢
  rw [assemble, Draft.finish] at failed
  cases filled : (Draft.ofStatements program).pieces.reverse.mapM
      (Piece.fill (Draft.ofStatements program).places) with
  | error cause' =>
      rw [filled] at failed
      cases failed
      exact Piece.exists_fails (Draft.lookup_eq_some_iff program) nonempty filled
  | ok chunks =>
      rw [filled] at failed
      cases failed

theorem PlacedAt.unique {label : Label} {place place' : Nat}
    (first : PlacedAt program label place) (second : PlacedAt program label place') :
    place = place' := by
  rw [← Draft.lookup_eq_some_iff] at first second
  exact Option.some.inj (first.symm.trans second)

/-- A slot that has a distance does not fail. -/
theorem Slot.Settled.not_fails {slot : Slot} (settled : slot.Settled (PlacedAt program))
    (cause : AssemblyError) : ¬ slot.Fails (PlacedAt program) cause := by
  obtain ⟨place, placed, admits⟩ := settled
  rintro (nowhere | ⟨placed', far⟩)
  · exact nowhere place placed
  · rw [placed.unique placed'] at admits
    exact far admits

/-- A program is assembled if nothing keeps it from being so. -/
theorem exists_assemble_iff (program : List Statement) :
    (∃ code, assemble program = .ok code) ↔
      ∀ slot ∈ (Emission.ofStatements program).slots, slot.Settled (PlacedAt program) := by
  constructor
  · rintro ⟨code, assembled⟩ slot mem
    obtain ⟨place, placed, admits, -⟩ := exists_content_of_assemble assembled mem
    exact ⟨place, placed, admits⟩
  · intro settled
    cases result : assemble program with
    | ok code => exact ⟨code, rfl⟩
    | error cause =>
        obtain ⟨front, slot, back, slots, -, fails⟩ := exists_fails_of_assemble result
        have mem : slot ∈ (Emission.ofStatements program).slots := by
          rw [slots]
          exact List.mem_append_right _ List.mem_cons_self
        exact absurd fails ((settled slot mem).not_fails cause)

theorem Emission.pairwise_slots (program : List Statement) :
    (ofStatements program).slots.Pairwise
      fun earlier later => earlier.start + earlier.width ≤ later.start := by
  rw [ofStatements_eq]
  exact Piece.pairwise_slots 0 _

theorem Emission.slot_inside {slot : Slot} (mem : slot ∈ (ofStatements program).slots) :
    slot.start + slot.width ≤ (ofStatements program).code.length := by
  rw [ofStatements_eq] at mem ⊢
  have inside := (Piece.slots_bounds mem).2
  rwa [Nat.zero_add, ← Piece.length_blank] at inside

/-- Assembled code differs from what was emitted in its slots only. -/
theorem getElem?_of_assemble {code : Bytes} (assembled : assemble program = .ok code) {index : Nat}
    (outside : ∀ slot ∈ (Emission.ofStatements program).slots, ¬ slot.Covers index) :
    code[index]? = (Emission.ofStatements program).code[index]? := by
  rw [Emission.ofStatements_eq] at outside ⊢
  exact (Draft.fills_of_finish assembled).getElem?_eq 0 (by rwa [Nat.zero_add])

/-- A program is assembled if and only if the label of every slot has a place, and the distance to
it from the instruction that has the slot can be written into the slot. The code is then as long as
what was emitted, no two of its slots overlap, each holds its distance, and all other bytes are as
they were emitted. If the program is not assembled, then the cause is the first slot that has no
distance. -/
theorem assemble_patches_slots (program : List Statement) :
    let emission := Emission.ofStatements program
    ((∃ code, assemble program = .ok code) ↔
        ∀ slot ∈ emission.slots, slot.Settled (PlacedAt program)) ∧
      emission.slots.Pairwise
        (fun earlier later => earlier.start + earlier.width ≤ later.start) ∧
      (∀ slot ∈ emission.slots, slot.start + slot.width ≤ emission.code.length) ∧
      (∀ code, assemble program = .ok code →
        code.length = emission.code.length ∧
          (∀ slot ∈ emission.slots, ∃ place, PlacedAt program slot.target place ∧
            slot.content code = Bytes.ofInt slot.width (place - slot.origin) ∧
            Bytes.toInt (slot.content code) = place - slot.origin) ∧
          ∀ index, (∀ slot ∈ emission.slots, ¬ slot.Covers index) →
            code[index]? = emission.code[index]?) ∧
      ∀ cause, assemble program = .error cause →
        ∃ front slot back, emission.slots = front ++ slot :: back ∧
          (∀ earlier ∈ front, earlier.Settled (PlacedAt program)) ∧
          slot.Fails (PlacedAt program) cause := by
  intro emission
  refine ⟨exists_assemble_iff program, Emission.pairwise_slots program,
    fun slot mem => Emission.slot_inside mem, fun code assembled => ⟨?_, fun slot mem => ?_, ?_⟩,
    fun cause failed => exists_fails_of_assemble failed⟩
  · rw [(Draft.fills_of_finish assembled).length_eq, Emission.length_code,
      Draft.length_ofStatements]
  · obtain ⟨place, placed, admits, content⟩ := exists_content_of_assemble assembled mem
    have fits := (Slot.admits_iff (Emission.width_pos mem)).mp admits
    exact ⟨place, placed, content, by rw [content, Bytes.toInt_ofInt fits]⟩
  · intro index outside
    exact getElem?_of_assemble assembled outside

/-- A label that is placed again counts where it was placed last. -/
example :
    let program : List Statement := [.label 0, .jump ⟨0xA7⟩ 0, .raw [0x57], .label 0]
    Emission.ofStatements program = ⟨[0xA7, 0, 0, 0x57], [⟨1, 2, 0, 0⟩]⟩ ∧
      assemble program = .ok [0xA7, 0, 4, 0x57] := by
  decide +kernel

end Assemble

end HotSwap
