import HotSwap.Proofs.Drafting
import HotSwap.Proofs.SwitchTable
import Mathlib.Data.List.Forall2

/-! # The instruction of a statement

A statement names an opcode and operands. A number that does not fit into one byte is written
with a prefix, or loaded by another opcode. Once the gaps are filled, the bytes of a statement
are read as one instruction, with this opcode and these operands, and its distances lead to the
places of its labels. -/

namespace HotSwap

namespace Statement

/-- Whether a statement stands for an instruction. A label is only a place. -/
def isInstruction : Statement → Bool
  | label _ => false
  | _ => true

/-- Whether a statement consists of an instruction, with an opcode of the right kind and with a
table whose bounds and count are four byte integers. -/
def WellFormed : Statement → Prop
  | plain opcode => opcode.layout = .fixed .none
  | raw _ => False
  | constant opcode _ => opcode.layout ∈ [Layout.fixed .classIndex, .fixed .memberIndex,
      .fixed .constant, .fixed .doubleConstant]
  | slot opcode _ | wideSlot opcode _ => opcode.layout = .fixed .slot
  | jump opcode _ => opcode.layout ∈ [Layout.fixed .jump, .fixed .wideJump]
  | tableswitch _ low targets =>
      targets ≠ [] ∧ low.toInt + targets.length ≤ 2147483647 ∧ targets.length < 2147483648
  | lookupswitch _ cases => cases.length < 2147483648
  | _ => True

instance : DecidablePred WellFormed := fun statement =>
  match statement with
  | plain _ | slot _ _ | wideSlot _ _ => inferInstanceAs (Decidable (_ = _))
  | raw _ => isFalse id
  | constant _ _ | jump _ _ => inferInstanceAs (Decidable (_ ∈ _))
  | tableswitch _ _ _ => inferInstanceAs (Decidable (_ ∧ _ ∧ _))
  | lookupswitch _ _ => inferInstanceAs (Decidable (_ < _))
  | label _ | bipush _ | sipush _ | loadConstant _ | invokeinterface _ _ | invokedynamic _
  | multianewarray _ _ | newarray _ | increment _ _ | wideIncrement _ _ => isTrue trivial

/-- The opcode, the prefix and the operands that a statement names, if `leads` says which
distances lead to which labels. -/
inductive Names (leads : Label → Int → Prop) : Statement → Opcode → Bool → Operands → Prop
  | plain (opcode : Opcode) : Names leads (.plain opcode) opcode false .none
  | bipush (value : Int8) : Names leads (.bipush value) .bipush false (.byte value.toInt)
  | sipush (value : Int16) : Names leads (.sipush value) .sipush false (.short value.toInt)
  | loadConstant (index : UInt16) :
      Names leads (.loadConstant index) (if 255 < index.toNat then .ldcW else .ldc) false
        (.constant index)
  | classRef {opcode : Opcode} (index : UInt16) (group : opcode.group = .classes) :
      Names leads (.constant opcode index) opcode false (.classRef index)
  | member {opcode : Opcode} (index : UInt16) (group : opcode.group = .members) :
      Names leads (.constant opcode index) opcode false (.member index)
  | constant {opcode : Opcode} (index : UInt16)
      (group : opcode.group ∈ [OpcodeGroup.constants, .doubleConstants]) :
      Names leads (.constant opcode index) opcode false (.constant index)
  | invokeinterface (index : UInt16) (count : UInt8) :
      Names leads (.invokeinterface index count) .invokeinterface false
        (.interfaceMember index count)
  | invokedynamic (index : UInt16) :
      Names leads (.invokedynamic index) .invokedynamic false (.callSite index)
  | multianewarray (index : UInt16) (dimensions : UInt8) :
      Names leads (.multianewarray index dimensions) .multianewarray false
        (.arrayClass index dimensions)
  | newarray (code : UInt8) : Names leads (.newarray code) .newarray false (.elementType code)
  | slot (opcode : Opcode) (number : UInt16) :
      Names leads (.slot opcode number) opcode (255 < number.toNat) (.slot number.toNat)
  | wideSlot (opcode : Opcode) (number : UInt16) :
      Names leads (.wideSlot opcode number) opcode true (.slot number.toNat)
  | increment (number : UInt16) (amount : Int16) :
      Names leads (.increment number amount) .iinc
        (255 < number.toNat ∨ amount.toInt < -128 ∨ 127 < amount.toInt)
        (.increment number.toNat amount.toInt)
  | wideIncrement (number : UInt16) (amount : Int16) :
      Names leads (.wideIncrement number amount) .iinc true
        (.increment number.toNat amount.toInt)
  | jump (opcode : Opcode) {target : Label} {offset : Int} (goes : leads target offset) :
      Names leads (.jump opcode target) opcode false (.jump offset)
  | tableswitch {otherwise : Label} {offset : Int} (low : Int32) {targets : List Label}
      {offsets : List Int} (goes : leads otherwise offset)
      (each : List.Forall₂ leads targets offsets) :
      Names leads (.tableswitch otherwise low targets) .tableswitch false
        (.tableSwitch offset low.toInt (low.toInt + targets.length - 1) offsets)
  | lookupswitch {otherwise : Label} {offset : Int} {cases : List (Int32 × Label)}
      {found : List (Int × Int)} (goes : leads otherwise offset)
      (each : List.Forall₂ (fun case pair => pair.1 = case.1.toInt ∧ leads case.2 pair.2) cases
        found) :
      Names leads (.lookupswitch otherwise cases) .lookupswitch false (.lookupSwitch offset found)

theorem Names.imp {leads leads' : Label → Int → Prop} {statement : Statement} {opcode : Opcode}
    {wide : Bool} {operands : Operands} (names : statement.Names leads opcode wide operands)
    (weaker : ∀ label offset, leads label offset → leads' label offset) :
    statement.Names leads' opcode wide operands := by
  cases names with
  | classRef index group => exact .classRef index group
  | member index group => exact .member index group
  | constant index group => exact .constant index group
  | jump _ goes => exact .jump _ (weaker _ _ goes)
  | tableswitch low goes each => exact .tableswitch low (weaker _ _ goes) (each.imp weaker)
  | lookupswitch goes each =>
      refine .lookupswitch (weaker _ _ goes) (each.imp ?_)
      rintro case pair ⟨key, leads⟩
      exact ⟨key, weaker _ _ leads⟩
  | _ => constructor

end Statement

/-- Whether a distance leads from a position to the place of a label. -/
def Reaches (places : List (Label × Nat)) (position : Nat) (label : Label) (offset : Int) : Prop :=
  ∃ place, places.lookup label = some place ∧ (position : Int) + offset = place

namespace Piece.Fills

variable {places : List (Label × Nat)} {position : Nat} {opcode : Opcode} {bytes : Bytes}

theorem known {operands : Bytes} (fills : Fills places (Statement.known opcode operands) bytes) :
    bytes = opcode.toByte :: operands := by
  cases fills with
  | bytes _ later =>
      cases later
      exact List.append_nil _

/-- A gap in front of other pieces. -/
theorem of_gap {width : Nat} {target : Label} {pieces : List Piece}
    (fills : Fills places (.gap width position target :: pieces) bytes) :
    ∃ offset rest, Reaches places position target offset ∧ Bytes.FitsInt width offset ∧
      Fills places pieces rest ∧ bytes = Bytes.ofInt width offset ++ rest := by
  cases fills with
  | @gap _ _ place _ _ rest placed fits later =>
      exact ⟨_, rest, ⟨place, placed, by omega⟩, fits, later, rfl⟩

/-- The distances of a switch over a range. -/
theorem gaps {targets : List Label}
    (fills : Fills places (targets.map (.gap 4 position)) bytes) :
    ∃ offsets, List.Forall₂ (Reaches places position) targets offsets ∧
      (∀ offset ∈ offsets, Bytes.FitsInt 4 offset) ∧
      bytes = offsets.flatMap (Bytes.ofInt 4) := by
  induction targets generalizing bytes with
  | nil =>
      cases fills
      exact ⟨[], .nil, List.forall_mem_nil _, rfl⟩
  | cons target targets ih =>
      obtain ⟨offset, rest, reaches, fits, later, rfl⟩ := of_gap fills
      obtain ⟨offsets, each, eachFits, rfl⟩ := ih later
      exact ⟨offset :: offsets, .cons reaches each, List.forall_mem_cons.mpr ⟨fits, eachFits⟩, rfl⟩

/-- The keys and distances of a switch over a list of keys. -/
theorem keyed {cases : List (Int32 × Label)}
    (fills : Fills places (cases.flatMap fun (key, target) =>
      [.bytes (Word.i32.encode key), .gap 4 position target]) bytes) :
    ∃ found, List.Forall₂
        (fun case pair => pair.1 = case.1.toInt ∧ Reaches places position case.2 pair.2)
        cases found ∧
      (∀ number ∈ Operands.caseNumbers found, Bytes.FitsInt 4 number) ∧
      bytes = (Operands.caseNumbers found).flatMap (Bytes.ofInt 4) := by
  induction cases generalizing bytes with
  | nil =>
      cases fills
      exact ⟨[], .nil, List.forall_mem_nil _, rfl⟩
  | cons case cases ih =>
      rw [List.flatMap_cons, List.cons_append, List.singleton_append] at fills
      cases fills with
      | bytes _ fills =>
          obtain ⟨offset, rest, reaches, fits, later, rfl⟩ := of_gap fills
          obtain ⟨found, each, eachFits, rfl⟩ := ih later
          refine ⟨(case.1.toInt, offset) :: found, .cons ⟨rfl, reaches⟩ each, ?_, ?_⟩
          · exact List.forall_mem_cons.mpr ⟨Bytes.fitsInt_toInt case.1,
              List.forall_mem_cons.mpr ⟨fits, eachFits⟩⟩
          · rw [Bytes.encode_i32]
            rfl

/-- A switch, up to what comes after its first distance. -/
theorem switch {otherwise : Label} {head : Bytes} {pieces : List Piece}
    (fills : Fills places (Statement.switch position opcode otherwise head pieces) bytes) :
    ∃ offset rest, Reaches places position otherwise offset ∧ Bytes.FitsInt 4 offset ∧
      Fills places pieces rest ∧
      bytes = opcode.toByte :: List.replicate (tablePadding position) 0 ++
        (Bytes.ofInt 4 offset ++ (head ++ rest)) := by
  cases fills with
  | bytes _ gapped =>
      obtain ⟨offset, rest, reaches, fits, headed, rfl⟩ := of_gap gapped
      cases headed with
      | bytes _ later => exact ⟨offset, _, reaches, fits, later, rfl⟩

end Piece.Fills

/-! ## One statement -/

theorem Bytes.toNat_encode_u16 (number : UInt16) :
    Bytes.toNat (Word.u16.encode number) = number.toNat := by
  rw [Word.encode, Bytes.toNat_ofNat, Nat.mod_eq_of_lt (Word.u16.bits_lt number)]
  rfl

/-- A number below 256 is written in one byte. -/
theorem Bytes.toNat_low {number : UInt16} (low : number.toNat < 256) :
    Bytes.toNat [number.toUInt8] = number.toNat := by
  rw [Bytes.toNat_singleton, UInt16.toNat_toUInt8]
  exact Nat.mod_eq_of_lt low

namespace Shape

/-- The index at the front of the operands. -/
theorem index_encode (index : UInt16) (rest : Bytes) :
    UInt16.ofNat (Bytes.toNat ((Word.u16.encode index ++ rest).take 2)) = index := by
  have length : (Word.u16.encode index).length = 2 := Bytes.length_ofNat 2 _
  rw [List.take_left' length]
  exact Bytes.index_toNat_ofNat (Word.u16.bits_lt index)

/-- The number behind the index. -/
theorem third_encode (index : UInt16) (third : UInt8) (rest : Bytes) :
    UInt8.ofNat (Bytes.toNat (((Word.u16.encode index ++ third :: rest).drop 2).take 1)) =
      third := by
  have length : (Word.u16.encode index).length = 2 := Bytes.length_ofNat 2 _
  rw [List.drop_left' length, List.take_succ_cons, List.take_zero, Bytes.toNat_singleton,
    UInt8.ofNat_toNat]

/-- A slot, and an amount that takes up as many bytes. -/
theorem operands_increment {front back : Bytes} (sameLength : front.length = back.length) :
    Shape.increment.operands (front ++ back) =
      .increment (Bytes.toNat front) (Bytes.toInt back) := by
  have half : (front ++ back).length / 2 = front.length := by
    rw [List.length_append]
    omega
  rw [operands, half, List.take_left, List.drop_left]

end Shape

namespace Statement

variable {places : List (Label × Nat)} {position : Nat} {statement : Statement} {bytes : Bytes}
  {opcode : Opcode} {operandBytes : Bytes} {operands : Operands}

/-- Whether bytes at a position are read as the instruction that a statement names. -/
def IsReadFrom (places : List (Label × Nat)) (position : Nat) (bytes : Bytes)
    (statement : Statement) : Prop :=
  ∃ opcode wide operands,
    Instruction.decode position bytes = .ok ⟨opcode, position, wide, bytes, operands⟩ ∧
      statement.Names (Reaches places position) opcode wide operands

theorem isReadFrom_plain (shape : Shape) (layout : opcode.layout = .fixed shape)
    (length : operandBytes.length = shape.size) (same : shape.operands operandBytes = operands)
    (names : statement.Names (Reaches places position) opcode false operands) :
    IsReadFrom places position (opcode.toByte :: operandBytes) statement := by
  subst same
  exact ⟨opcode, false, _, Instruction.decode_plain layout length position, names⟩

theorem isReadFrom_widened (shape : Shape) (layout : opcode.layout = .fixed shape)
    (length : shape.wideSize? = some operandBytes.length)
    (same : shape.operands operandBytes = operands)
    (names : statement.Names (Reaches places position) opcode true operands) :
    IsReadFrom places position (Opcode.wide.toByte :: opcode.toByte :: operandBytes)
      statement := by
  subst same
  exact ⟨opcode, true, _, Instruction.decode_widened layout length position, names⟩

theorem isReadFrom_wideSlot {number : UInt16} (layout : opcode.layout = .fixed .slot)
    (names : statement.Names (Reaches places position) opcode true (.slot number.toNat))
    (fills : Piece.Fills places (wideSlotPieces opcode number) bytes) :
    IsReadFrom places position bytes statement := by
  obtain rfl := fills.known
  exact isReadFrom_widened .slot layout rfl
    (congrArg Operands.slot (Bytes.toNat_encode_u16 number)) names

theorem isReadFrom_wideIncrement {number : UInt16} {amount : Int16}
    (names : statement.Names (Reaches places position) .iinc true
      (.increment number.toNat amount.toInt))
    (fills : Piece.Fills places (wideIncrementPieces number amount) bytes) :
    IsReadFrom places position bytes statement := by
  obtain rfl := fills.known
  rw [List.cons_append]
  refine isReadFrom_widened .increment (by decide +kernel) rfl ?_ names
  have sameLength : (Word.u16.encode number).length = (Word.i16.encode amount).length := rfl
  rw [Shape.operands_increment sameLength, Bytes.toNat_encode_u16, Bytes.toInt_encode_i16]

theorem isReadFrom_loadConstant {index : UInt16}
    (fills : Piece.Fills places ((loadConstant index).pieces position) bytes) :
    IsReadFrom places position bytes (loadConstant index) := by
  have names : Names (Reaches places position) _ _ _ _ := .loadConstant index
  simp only [pieces] at fills
  split at fills
  · next low =>
    obtain rfl := fills.known
    rw [if_neg (by omega)] at names
    refine isReadFrom_plain .shortConstant (by decide +kernel) rfl (congrArg Operands.constant ?_)
      names
    rw [List.take_of_length_le (by simp), Bytes.toNat_low low, UInt16.ofNat_toNat]
  · next high =>
    obtain rfl := fills.known
    rw [if_pos (by omega)] at names
    refine isReadFrom_plain .constant (by decide +kernel) rfl (congrArg Operands.constant ?_)
      names
    simpa using Shape.index_encode index []

theorem isReadFrom_slot {number : UInt16} (wellFormed : (slot opcode number).WellFormed)
    (fills : Piece.Fills places ((slot opcode number).pieces position) bytes) :
    IsReadFrom places position bytes (slot opcode number) := by
  have names : Names (Reaches places position) _ _ _ _ := .slot opcode number
  simp only [pieces] at fills
  split at fills
  · next low =>
    obtain rfl := fills.known
    rw [decide_eq_false (by omega)] at names
    exact isReadFrom_plain .slot wellFormed rfl (congrArg Operands.slot (Bytes.toNat_low low))
      names
  · next high =>
    rw [decide_eq_true (by omega)] at names
    exact isReadFrom_wideSlot wellFormed names fills

theorem isReadFrom_increment {number : UInt16} {amount : Int16}
    (fills : Piece.Fills places ((increment number amount).pieces position) bytes) :
    IsReadFrom places position bytes (increment number amount) := by
  have names : Names (Reaches places position) _ _ _ _ := .increment number amount
  have small : Bytes.FitsInt 1 amount.toInt ↔ -128 ≤ amount.toInt ∧ amount.toInt ≤ 127 := by
    rw [Bytes.fitsInt_iff]
    simp only [Bytes.capacity]
    omega
  simp only [pieces, small] at fills
  split at fills
  · next low =>
    obtain rfl := fills.known
    rw [decide_eq_false (by omega)] at names
    refine isReadFrom_plain .increment (by decide +kernel) rfl ?_ names
    have sameLength : [number.toUInt8].length = (Bytes.ofInt 1 amount.toInt).length := rfl
    rw [← List.singleton_append, Shape.operands_increment sameLength, Bytes.toNat_low low.1,
      Bytes.toInt_ofInt (small.mpr low.2)]
  · next high =>
    rw [decide_eq_true (by omega)] at names
    exact isReadFrom_wideIncrement names fills

theorem isReadFrom_constant {index : UInt16} (wellFormed : (constant opcode index).WellFormed)
    (fills : Piece.Fills places ((constant opcode index).pieces position) bytes) :
    IsReadFrom places position bytes (constant opcode index) := by
  obtain rfl := fills.known
  have same := Shape.index_encode index []
  rw [List.append_nil] at same
  simp only [WellFormed, List.mem_cons, List.not_mem_nil, or_false] at wellFormed
  rcases wellFormed with layout | layout | layout | layout
  · exact isReadFrom_plain .classIndex layout rfl (congrArg Operands.classRef same)
      (.classRef index (by rw [Opcode.group, layout]; rfl))
  · exact isReadFrom_plain .memberIndex layout rfl (congrArg Operands.member same)
      (.member index (by rw [Opcode.group, layout]; rfl))
  · exact isReadFrom_plain .constant layout rfl (congrArg Operands.constant same)
      (.constant index (by simp [Opcode.group, layout, Layout.group, Shape.group]))
  · exact isReadFrom_plain .doubleConstant layout rfl (congrArg Operands.constant same)
      (.constant index (by simp [Opcode.group, layout, Layout.group, Shape.group]))

theorem isReadFrom_jump {target : Label} (wellFormed : (jump opcode target).WellFormed)
    (fills : Piece.Fills places ((jump opcode target).pieces position) bytes) :
    IsReadFrom places position bytes (jump opcode target) := by
  cases fills with
  | bytes _ gapped =>
      obtain ⟨offset, rest, reaches, fits, done, rfl⟩ := Piece.Fills.of_gap gapped
      cases done
      rw [List.append_nil, List.singleton_append]
      simp only [WellFormed, List.mem_cons, List.not_mem_nil, or_false] at wellFormed
      rcases wellFormed with layout | layout
      · have narrow : distanceWidth opcode = 2 := if_neg (by rw [layout]; nofun)
        rw [narrow] at fits ⊢
        exact isReadFrom_plain .jump layout (Bytes.length_ofInt 2 offset)
          (congrArg Operands.jump (Bytes.toInt_ofInt fits)) (.jump opcode reaches)
      · have wide : distanceWidth opcode = 4 := if_pos layout
        rw [wide] at fits ⊢
        exact isReadFrom_plain .wideJump layout (Bytes.length_ofInt 4 offset)
          (congrArg Operands.jump (Bytes.toInt_ofInt fits)) (.jump opcode reaches)

theorem isReadFrom_tableswitch {otherwise : Label} {low : Int32} {targets : List Label}
    (wellFormed : (tableswitch otherwise low targets).WellFormed)
    (fills : Piece.Fills places ((tableswitch otherwise low targets).pieces position) bytes) :
    IsReadFrom places position bytes (tableswitch otherwise low targets) := by
  obtain ⟨nonempty, bounded, -⟩ := wellFormed
  obtain ⟨offset, rest, reaches, fits, gapped, rfl⟩ := fills.switch
  obtain ⟨offsets, each, eachFits, rfl⟩ := gapped.gaps
  have count := each.length_eq
  have some := List.length_pos_iff.mpr nonempty
  have lowest := low.le_toInt
  have highFits : Bytes.FitsInt 4 (low.toInt + targets.length - 1) := by
    rw [Bytes.fitsInt_four]
    omega
  have table : Bytes.ofInt 4 offset ++ (Word.i32.encode low ++
        Bytes.ofInt 4 (low.toInt + targets.length - 1) ++ offsets.flatMap (Bytes.ofInt 4)) =
      (offset :: low.toInt :: (low.toInt + targets.length - 1) :: offsets).flatMap
        (Bytes.ofInt 4) := by
    simp only [List.flatMap_cons, Bytes.encode_i32, List.append_assoc]
  rw [table]
  refine ⟨_, false, _, Instruction.decode_range (by decide +kernel) List.length_replicate ?_ ?_ ?_,
    .tableswitch low reaches each⟩
  · simp only [List.forall_mem_cons]
    exact ⟨fits, Bytes.fitsInt_toInt low, highFits, eachFits⟩
  · omega
  · exact List.length_pos_iff.mp (by omega)

theorem isReadFrom_lookupswitch {otherwise : Label} {cases : List (Int32 × Label)}
    (wellFormed : (lookupswitch otherwise cases).WellFormed)
    (fills : Piece.Fills places ((lookupswitch otherwise cases).pieces position) bytes) :
    IsReadFrom places position bytes (lookupswitch otherwise cases) := by
  have few : cases.length < 2147483648 := wellFormed
  obtain ⟨offset, rest, reaches, fits, keyed, rfl⟩ := fills.switch
  obtain ⟨found, each, eachFits, rfl⟩ := keyed.keyed
  have count := each.length_eq
  have countFits : Bytes.FitsInt 4 found.length := by
    rw [Bytes.fitsInt_four]
    omega
  have countLess : found.length < Bytes.capacity 4 := by
    simp only [Bytes.capacity]
    omega
  have table : Bytes.ofInt 4 offset ++ (Bytes.ofNat 4 cases.length ++
        (Operands.caseNumbers found).flatMap (Bytes.ofInt 4)) =
      (offset :: (found.length : Int) :: Operands.caseNumbers found).flatMap
        (Bytes.ofInt 4) := by
    simp only [List.flatMap_cons, count, Bytes.ofInt_natCast countLess]
  rw [table]
  refine ⟨_, false, _, Instruction.decode_cases (by decide +kernel) List.length_replicate ?_,
    .lookupswitch reaches each⟩
  simp only [List.forall_mem_cons]
  exact ⟨fits, countFits, eachFits⟩

theorem isReadFrom_of_fills (wellFormed : statement.WellFormed)
    (isInstruction : statement.isInstruction = true)
    (fills : Piece.Fills places (statement.pieces position) bytes) :
    IsReadFrom places position bytes statement := by
  cases statement with
  | label => cases isInstruction
  | raw => exact wellFormed.elim
  | plain opcode =>
      obtain rfl := fills.known
      exact isReadFrom_plain .none wellFormed rfl rfl (.plain opcode)
  | bipush value =>
      obtain rfl := fills.known
      exact isReadFrom_plain .byte (by decide +kernel) rfl
        (congrArg Operands.byte (Bytes.toInt_encode_i8 value)) (.bipush value)
  | sipush value =>
      obtain rfl := fills.known
      exact isReadFrom_plain .short (by decide +kernel) rfl
        (congrArg Operands.short (Bytes.toInt_encode_i16 value)) (.sipush value)
  | loadConstant index => exact isReadFrom_loadConstant fills
  | constant opcode index => exact isReadFrom_constant wellFormed fills
  | invokeinterface index count =>
      obtain rfl := fills.known
      exact isReadFrom_plain .memberCount (by decide +kernel) rfl
        (congrArg₂ Operands.interfaceMember (Shape.index_encode index _)
          (Shape.third_encode index count _)) (.invokeinterface index count)
  | invokedynamic index =>
      obtain rfl := fills.known
      exact isReadFrom_plain .callSite (by decide +kernel) rfl
        (congrArg Operands.callSite (Shape.index_encode index _)) (.invokedynamic index)
  | multianewarray index dimensions =>
      obtain rfl := fills.known
      exact isReadFrom_plain .classDimensions (by decide +kernel) rfl
        (congrArg₂ Operands.arrayClass (Shape.index_encode index _)
          (Shape.third_encode index dimensions _)) (.multianewarray index dimensions)
  | newarray code =>
      obtain rfl := fills.known
      refine isReadFrom_plain .elementType (by decide +kernel) rfl
        (congrArg Operands.elementType ?_) (.newarray code)
      rw [Bytes.toNat_singleton, UInt8.ofNat_toNat]
  | slot opcode number => exact isReadFrom_slot wellFormed fills
  | wideSlot opcode number => exact isReadFrom_wideSlot wellFormed (.wideSlot opcode number) fills
  | increment number amount => exact isReadFrom_increment fills
  | wideIncrement number amount =>
      exact isReadFrom_wideIncrement (.wideIncrement number amount) fills
  | jump opcode target => exact isReadFrom_jump wellFormed fills
  | tableswitch otherwise low targets => exact isReadFrom_tableswitch wellFormed fills
  | lookupswitch otherwise cases => exact isReadFrom_lookupswitch wellFormed fills

end Statement

end HotSwap
