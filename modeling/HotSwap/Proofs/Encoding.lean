import HotSwap.Proofs.Decoding

/-! # What an encoding is made of

The encoding of an instruction is its opcode and the bytes of its operands, and begins with
the prefix if the instruction is wide. The numbers among the operands say which bytes these
are. An opcode with as many operand bytes as it has is read as an instruction. -/

namespace HotSwap

namespace Bytes

variable {first second : Bytes}

theorem toNat_singleton (byte : UInt8) : toNat [byte] = byte.toNat := by
  simp [toNat]

/-- An index is read from the bytes in which it is written. -/
theorem index_toNat_ofNat {width : Nat} {index : UInt16} (fits : index.toNat < capacity width) :
    UInt16.ofNat (toNat (ofNat width index.toNat)) = index := by
  rw [toNat_ofNat, Nat.mod_eq_of_lt fits, UInt16.ofNat_toNat]

theorem toNat_inj (sameLength : first.length = second.length) :
    toNat first = toNat second ↔ first = second := by
  constructor
  · intro same
    calc
      first = ofNat first.length (toNat first) := (ofNat_toNat first).symm
      _ = ofNat second.length (toNat second) := by rw [sameLength, same]
      _ = second := ofNat_toNat second
  · exact congrArg _

theorem toInt_emod (bytes : Bytes) : toInt bytes % capacity bytes.length = toNat bytes := by
  have bound := toNat_lt bytes
  rw [toInt, Int.bmod_emod, Int.emod_eq_of_lt (by omega) (by omega)]

theorem toInt_inj (sameLength : first.length = second.length) :
    toInt first = toInt second ↔ first = second := by
  constructor
  · intro same
    rw [← toNat_inj sameLength, ← Int.natCast_inj, ← toInt_emod, ← toInt_emod, same, sameLength]
  · exact congrArg _

end Bytes

namespace Opcode

/-- There is only one prefix. -/
theorem eq_wide_of_layout {opcode : Opcode} (layout : opcode.layout = .widePrefix) :
    opcode = wide := by
  have only : ∀ code : Fin 202, (mk code).layout = .widePrefix → mk code = wide := by
    decide +kernel
  exact only opcode.code layout

/-- Two jumps have a distance of four bytes. -/
theorem layout_eq_wideJump_iff {opcode : Opcode} :
    opcode.layout = .fixed .wideJump ↔ opcode = gotoW ∨ opcode = jsrW := by
  have all : ∀ code : Fin 202,
      (mk code).layout = .fixed .wideJump ↔ mk code = gotoW ∨ mk code = jsrW := by
    decide +kernel
  exact all opcode.code

end Opcode

namespace Instruction

/-- How instructions are made up of their opcode and the bytes of their operands. -/
inductive Encoded : Instruction → Prop
  | plain {opcode : Opcode} {shape : Shape} (position : Nat) {bytes : Bytes}
      (layout : opcode.layout = .fixed shape) (length : bytes.length = shape.size) :
      Encoded ⟨opcode, position, false, opcode.toByte :: bytes, shape.operands bytes⟩
  | widened {opcode : Opcode} {shape : Shape} (position : Nat) {bytes : Bytes}
      (layout : opcode.layout = .fixed shape) (length : shape.wideSize? = some bytes.length) :
      Encoded ⟨opcode, position, true, Opcode.wide.toByte :: opcode.toByte :: bytes,
        shape.operands bytes⟩
  | range {opcode : Opcode} {position : Nat} {bytes : Bytes} {otherwise low high : Int}
      {offsets : List Int} (layout : opcode.layout = .tableSwitch)
      (table : Operands.ofRange (bytes.drop (tablePadding position)) =
        .tableSwitch otherwise low high offsets) :
      Encoded ⟨opcode, position, false, opcode.toByte :: bytes,
        .tableSwitch otherwise low high offsets⟩
  | cases {opcode : Opcode} {position : Nat} {bytes : Bytes} {otherwise : Int}
      {cases : List (Int × Int)} (layout : opcode.layout = .lookupSwitch)
      (table : Operands.ofCases (bytes.drop (tablePadding position)) =
        .lookupSwitch otherwise cases) :
      Encoded ⟨opcode, position, false, opcode.toByte :: bytes, .lookupSwitch otherwise cases⟩

theorem encoded_of_decode {position : Nat} {input : Bytes} {instruction : Instruction}
    (h : decode position input = .ok instruction) : Encoded instruction := by
  obtain ⟨heading, read, enough, rfl⟩ := decode_eq_ok_iff.mp h
  match input with
  | [] => cases read <;> contradiction
  | byte :: rest =>
      cases read with
      | plain first found layout =>
          cases first
          rw [List.length_cons] at enough
          dsimp only at enough ⊢
          rw [← Opcode.toByte_of_ofByte? found, Nat.add_comm 1, List.take_succ_cons,
            List.drop_succ_cons, List.drop_zero]
          exact .plain position layout (by rw [List.length_take]; omega)
      | @widened _ _ _ _ _ size first found layout second foundNext layoutNext widens =>
          cases first
          match rest with
          | [] => contradiction
          | next :: rest =>
              cases second
              obtain rfl := Opcode.eq_wide_of_layout layout
              have length : (rest.take size).length = size := by
                simp only [List.length_cons] at enough
                rw [List.length_take]
                omega
              dsimp only
              rw [← Opcode.toByte_of_ofByte? found, ← Opcode.toByte_of_ofByte? foundNext,
                Nat.add_comm 2, List.take_succ_cons, List.take_succ_cons, List.drop_succ_cons,
                List.drop_succ_cons, List.drop_zero]
              exact .widened position layoutNext (by rw [length, widens])
      | range first found layout readLow readHigh ordered =>
          cases first
          obtain ⟨otherwise, offsets, table, -⟩ := operands_of_range readLow readHigh ordered enough
          dsimp only
          rw [table]
          rw [Nat.add_comm 1 (tablePadding position)] at table ⊢
          rw [List.take_cons (by omega), List.drop_succ_cons] at table
          rw [← Opcode.toByte_of_ofByte? found, List.take_cons (by omega)]
          exact .range layout table
      | cases first found layout readCount natural =>
          cases first
          obtain ⟨otherwise, cases, table, -⟩ := operands_of_cases enough
          dsimp only
          rw [table]
          rw [Nat.add_comm 1 (tablePadding position)] at table ⊢
          rw [List.take_cons (by omega), List.drop_succ_cons] at table
          rw [← Opcode.toByte_of_ofByte? found, List.take_cons (by omega)]
          exact .cases layout table

/-- The operands are read from the encoding, behind the opcode or the padding. -/
theorem Encoded.operands_eq {instruction : Instruction} (encoded : instruction.Encoded) :
    instruction.operands =
      let table := tablePadding instruction.position + 1
      match instruction.opcode.layout with
      | .fixed shape =>
          shape.operands (instruction.encoding.drop (if instruction.wide then 2 else 1))
      | .tableSwitch => .ofRange (instruction.encoding.drop table)
      | .lookupSwitch => .ofCases (instruction.encoding.drop table)
      | .widePrefix => .none := by
  cases encoded with
  | plain position layout length | widened position layout length => simp [layout]
  | range layout table | cases layout table => simp [layout, table]

/-- An instruction is known by its position, its opcode and its encoding. -/
theorem Encoded.ext {first second : Instruction} (firstEncoded : first.Encoded)
    (secondEncoded : second.Encoded) (position : first.position = second.position)
    (opcode : first.opcode = second.opcode) (wide : first.wide = second.wide)
    (encoding : first.encoding = second.encoding) : first = second := by
  have operands : first.operands = second.operands := by
    rw [firstEncoded.operands_eq, secondEncoded.operands_eq, position, opcode, wide, encoding]
  cases first
  cases second
  simp_all

/-- An opcode and as many operand bytes as it has are read as one instruction. -/
theorem decode_plain {opcode : Opcode} {shape : Shape} {bytes : Bytes}
    (layout : opcode.layout = .fixed shape) (length : bytes.length = shape.size)
    (position : Nat) :
    decode position (opcode.toByte :: bytes) =
      .ok ⟨opcode, position, false, opcode.toByte :: bytes, shape.operands bytes⟩ := by
  have size : 1 + shape.size = (opcode.toByte :: bytes).length := by
    rw [List.length_cons, length, Nat.add_comm]
  refine decode_eq_ok_iff.mpr ⟨_, .plain rfl opcode.ofByte?_toByte layout, Nat.le_of_eq size, ?_⟩
  dsimp only
  rw [List.take_of_length_le (Nat.le_of_eq size.symm), List.drop_one, List.tail_cons]

/-- So are a prefix, an opcode and as many operand bytes as it has behind a prefix. -/
theorem decode_widened {opcode : Opcode} {shape : Shape} {bytes : Bytes}
    (layout : opcode.layout = .fixed shape) (length : shape.wideSize? = some bytes.length)
    (position : Nat) :
    decode position (Opcode.wide.toByte :: opcode.toByte :: bytes) =
      .ok ⟨opcode, position, true, Opcode.wide.toByte :: opcode.toByte :: bytes,
        shape.operands bytes⟩ := by
  have size : 2 + bytes.length = (Opcode.wide.toByte :: opcode.toByte :: bytes).length := by
    rw [List.length_cons, List.length_cons, Nat.add_comm]
  have isWide : Opcode.wide.layout = .widePrefix := by decide +kernel
  refine decode_eq_ok_iff.mpr ⟨_, .widened rfl Opcode.wide.ofByte?_toByte isWide rfl
    opcode.ofByte?_toByte layout length, Nat.le_of_eq size, ?_⟩
  dsimp only
  rw [List.take_of_length_le (Nat.le_of_eq size.symm)]
  rfl

end Instruction

end HotSwap
