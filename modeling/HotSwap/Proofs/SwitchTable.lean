import HotSwap.Proofs.Encoding
import HotSwap.Wire

/-! # Tables of switches

The table of a switch consists of four byte integers, which are read in the order in which
they are written. A switch is read as it was written if its table begins at a multiple of four
and has as many entries as its bounds or its count say. -/

namespace HotSwap

namespace Bytes

variable {width : Nat} {number : Int} {numbers : List Int}

theorem fitsInt_iff : FitsInt width number ↔
    -((capacity width : Int) / 2) ≤ number ∧ number < ((capacity width : Int) + 1) / 2 := by
  have positive := capacity_pos width
  constructor
  · intro fits
    rw [← fits]
    exact ⟨Int.le_bmod positive, Int.bmod_lt positive⟩
  · rintro ⟨low, high⟩
    exact Int.bmod_eq_of_le low high

theorem fitsInt_four : FitsInt 4 number ↔ -2147483648 ≤ number ∧ number ≤ 2147483647 := by
  rw [fitsInt_iff]
  simp only [capacity]
  omega

theorem toInt_ofNat (width number : Nat) :
    toInt (ofNat width number) = Int.bmod number (capacity width) := by
  rw [toInt, length_ofNat, toNat_ofNat, Int.natCast_emod, Int.emod_bmod]

theorem toInt_ofInt (fits : FitsInt width number) : toInt (ofInt width number) = number := by
  have positive := capacity_pos width
  rw [ofInt, toInt_ofNat, Int.toNat_of_nonneg (Int.emod_nonneg _ (by omega)), Int.emod_bmod, fits]

theorem ofInt_natCast {number : Nat} (less : number < capacity width) :
    ofInt width number = ofNat width number := by
  rw [ofInt, Int.emod_eq_of_lt (by omega) (by omega), Int.toNat_natCast]

theorem toInt_encode_i8 (value : Int8) : toInt [value.toUInt8] = value.toInt := by
  rw [toInt, toNat_singleton]
  exact (BitVec.toInt_eq_toNat_bmod value.toBitVec).symm

theorem toInt_encode_i16 (value : Int16) : toInt (Word.i16.encode value) = value.toInt := by
  rw [Word.encode, toInt_ofNat]
  exact (BitVec.toInt_eq_toNat_bmod value.toBitVec).symm

theorem fitsInt_toInt (value : Int32) : FitsInt 4 value.toInt := by
  have low := value.le_toInt
  have high := value.toInt_lt
  rw [fitsInt_four]
  omega

theorem encode_i32 (value : Int32) : Word.i32.encode value = ofInt 4 value.toInt := by
  have read : toInt (Word.i32.encode value) = value.toInt := by
    rw [Word.encode, toInt_ofNat]
    exact (BitVec.toInt_eq_toNat_bmod value.toBitVec).symm
  rw [← toInt_inj (by rw [Word.encode, length_ofNat, length_ofInt]; rfl), read,
    toInt_ofInt (fitsInt_toInt value)]

theorem ints_append {word : Bytes} (length : word.length = 4) (rest : Bytes) :
    ints (word ++ rest) = toInt word :: ints rest := by
  match word, length with
  | [a, b, c, d], _ => exact ints_cons a b c d rest

/-- Integers that were written one after the other are read in their order. -/
theorem ints_flatMap_ofInt (fits : ∀ number ∈ numbers, FitsInt 4 number) :
    ints (numbers.flatMap (ofInt 4)) = numbers := by
  induction numbers with
  | nil => rfl
  | cons number rest ih =>
      rw [List.forall_mem_cons] at fits
      rw [List.flatMap_cons, ints_append (length_ofInt 4 number), toInt_ofInt fits.1, ih fits.2]

theorem length_flatMap_ofInt (numbers : List Int) :
    (numbers.flatMap (ofInt 4)).length = 4 * numbers.length := by
  induction numbers with
  | nil => rfl
  | cons number rest ih =>
      rw [List.flatMap_cons, List.length_append, length_ofInt, ih, List.length_cons]
      omega

end Bytes

namespace Operands

/-- The keys and offsets of some cases, one after the other. -/
def caseNumbers (cases : List (Int × Int)) : List Int :=
  cases.flatMap fun (key, offset) => [key, offset]

theorem length_caseNumbers (cases : List (Int × Int)) :
    (caseNumbers cases).length = 2 * cases.length := by
  induction cases with
  | nil => rfl
  | cons case rest ih =>
      rw [caseNumbers, List.flatMap_cons, List.length_append, ← caseNumbers, ih, List.length_cons]
      simp only [List.length_cons, List.length_nil]
      omega

theorem casesAfter_caseNumbers (cases : List (Int × Int)) :
    casesAfter [] (caseNumbers cases) = cases := by
  induction cases with
  | nil => rfl
  | cons case rest ih =>
      have step : casesAfter [] (case.1 :: case.2 :: caseNumbers rest) =
          case :: casesAfter [] (caseNumbers rest) :=
        casesAfter_append [] [case] (caseNumbers rest)
      exact step.trans (congrArg _ ih)

end Operands

namespace Instruction

variable {opcode : Opcode} {position : Nat} {padding : Bytes} {numbers : List Int}

/-- The table comes after the opcode and the padding. -/
theorem drop_table (padded : padding.length = tablePadding position) (table : Bytes) :
    (opcode.toByte :: padding ++ table).drop (1 + tablePadding position) = table :=
  List.drop_left' (by rw [List.length_cons, padded, Nat.add_comm])

/-- Where the integers of a table are read. -/
theorem intAt?_table (padded : padding.length = tablePadding position)
    (fits : ∀ number ∈ numbers, Bytes.FitsInt 4 number) (index : Nat) :
    Bytes.intAt? (opcode.toByte :: padding ++ numbers.flatMap (Bytes.ofInt 4))
      (1 + tablePadding position + 4 * index) = numbers[index]? := by
  rw [← Bytes.intAt?_drop, drop_table padded, ← Bytes.getElem?_ints,
    Bytes.ints_flatMap_ofInt fits]

/-- A switch over a range is read as it was written. -/
theorem decode_range {otherwise low high : Int} {offsets : List Int}
    (layout : opcode.layout = .tableSwitch) (padded : padding.length = tablePadding position)
    (fits : ∀ number ∈ otherwise :: low :: high :: offsets, Bytes.FitsInt 4 number)
    (count : high - low + 1 = offsets.length) (nonempty : offsets ≠ []) :
    let bytes := opcode.toByte :: padding ++
      (otherwise :: low :: high :: offsets).flatMap (Bytes.ofInt 4)
    decode position bytes =
      .ok ⟨opcode, position, false, bytes, .tableSwitch otherwise low high offsets⟩ := by
  intro bytes
  have some := List.length_pos_iff.mpr nonempty
  have length : 1 + tablePadding position + 12 + 4 * (high - low + 1).toNat = bytes.length := by
    rw [List.length_append, Bytes.length_flatMap_ofInt, List.length_cons, padded]
    simp only [List.length_cons]
    omega
  have readLow : Bytes.intAt? bytes (1 + tablePadding position + 4) = .some low :=
    intAt?_table padded fits 1
  have readHigh : Bytes.intAt? bytes (1 + tablePadding position + 8) = .some high :=
    intAt?_table padded fits 2
  refine decode_eq_ok_iff.mpr ⟨_, .range rfl opcode.ofByte?_toByte layout readLow readHigh
    (by omega), Nat.le_of_eq length, ?_⟩
  have table : Operands.ofRange (bytes.drop (1 + tablePadding position)) =
      .tableSwitch otherwise low high offsets := by
    rw [drop_table padded, Operands.ofRange, Bytes.ints_flatMap_ofInt fits]
  dsimp only
  rw [List.take_of_length_le (Nat.le_of_eq length.symm), table]

/-- A switch over a list of keys is read as it was written. -/
theorem decode_cases {otherwise : Int} {cases : List (Int × Int)}
    (layout : opcode.layout = .lookupSwitch) (padded : padding.length = tablePadding position)
    (fits : ∀ number ∈ otherwise :: cases.length :: Operands.caseNumbers cases,
      Bytes.FitsInt 4 number) :
    let bytes := opcode.toByte :: padding ++
      (otherwise :: cases.length :: Operands.caseNumbers cases).flatMap (Bytes.ofInt 4)
    decode position bytes =
      .ok ⟨opcode, position, false, bytes, .lookupSwitch otherwise cases⟩ := by
  intro bytes
  have length : 1 + tablePadding position + 8 + 8 * (cases.length : Int).toNat = bytes.length := by
    rw [List.length_append, Bytes.length_flatMap_ofInt, List.length_cons, padded]
    simp only [List.length_cons, Operands.length_caseNumbers]
    omega
  have readCount : Bytes.intAt? bytes (1 + tablePadding position + 4) = some cases.length :=
    intAt?_table padded fits 1
  refine decode_eq_ok_iff.mpr ⟨_, .cases rfl opcode.ofByte?_toByte layout readCount (by omega),
    Nat.le_of_eq length, ?_⟩
  have table : Operands.ofCases (bytes.drop (1 + tablePadding position)) =
      .lookupSwitch otherwise cases := by
    rw [drop_table padded, Operands.ofCases, Bytes.ints_flatMap_ofInt fits]
    exact congrArg _ (Operands.casesAfter_caseNumbers cases)
  dsimp only
  rw [List.take_of_length_le (Nat.le_of_eq length.symm), table]

end Instruction

end HotSwap
