import HotSwap.Instruction.Listing

/-! # What an instruction is read from

Reading an instruction looks at no byte behind it, so the instruction is found again
when other code follows. Its length is fixed by the opcode, the prefix and the size of
its table, except for the padding in front of a table, which depends on the position. -/

namespace HotSwap

namespace Bytes

theorem intAt?_eq_some_iff {bytes : Bytes} {distance : Nat} {number : Int} :
    intAt? bytes distance = some number ↔
      distance + 4 ≤ bytes.length ∧ toInt ((bytes.drop distance).take 4) = number := by
  unfold intAt?
  simp only [List.length_take, List.length_drop]
  split
  · simp only [Option.some.injEq, iff_and_self]
    omega
  · simp only [reduceCtorEq, false_iff, not_and]
    omega

theorem intAt?_append {bytes : Bytes} {distance : Nat} {number : Int}
    (h : intAt? bytes distance = some number) (rest : Bytes) :
    intAt? (bytes ++ rest) distance = some number := by
  obtain ⟨enough, read⟩ := intAt?_eq_some_iff.mp h
  rw [intAt?_eq_some_iff, List.length_append]
  refine ⟨by omega, ?_⟩
  rw [List.drop_append_of_le_length (by omega), List.take_append_of_le_length, read]
  rw [List.length_drop]
  omega

theorem intAt?_take {bytes : Bytes} {count distance : Nat} (h : distance + 4 ≤ count) :
    intAt? (bytes.take count) distance = intAt? bytes distance := by
  simp only [intAt?, List.drop_take, List.take_take]
  rw [Nat.min_eq_left (by omega)]

theorem intAt?_drop (bytes : Bytes) (count distance : Nat) :
    intAt? (bytes.drop count) distance = intAt? bytes (count + distance) := by
  simp only [intAt?, List.drop_drop]

theorem intsAfter_append (later earlier : List Int) (bytes : Bytes) :
    intsAfter (later ++ earlier) bytes = earlier.reverse ++ intsAfter later bytes := by
  induction later, bytes using intsAfter.induct with
  | case1 later a b c d rest ih => exact ih
  | case2 later bytes short =>
      rw [intsAfter.eq_2 _ _ short, intsAfter.eq_2 _ _ short, List.reverse_append]

theorem ints_cons (a b c d : UInt8) (rest : Bytes) :
    ints (a :: b :: c :: d :: rest) = toInt [a, b, c, d] :: ints rest :=
  intsAfter_append [] [toInt [a, b, c, d]] rest

/-- The integers of a byte string are the ones at the multiples of four. -/
theorem getElem?_ints (bytes : Bytes) (index : Nat) :
    (ints bytes)[index]? = intAt? bytes (4 * index) := by
  induction index generalizing bytes with
  | zero =>
      match bytes with
      | [] | [_] | [_, _] | [_, _, _] => rfl
      | a :: b :: c :: d :: rest => rw [ints_cons]; rfl
  | succ index ih =>
      match bytes with
      | [] | [_] | [_, _] | [_, _, _] =>
          simp only [ints, intsAfter, List.reverse_nil, List.getElem?_nil, intAt?,
            List.length_take, List.length_drop, List.length_cons, List.length_nil]
          rw [if_neg (by omega)]
      | a :: b :: c :: d :: rest =>
          rw [ints_cons, List.getElem?_cons_succ, ih, Nat.mul_succ, Nat.add_comm]
          exact intAt?_drop (a :: b :: c :: d :: rest) 4 (4 * index)

theorem length_ints : (bytes : Bytes) → (ints bytes).length = bytes.length / 4
  | [] | [_] | [_, _] | [_, _, _] => by simp [ints, intsAfter]
  | a :: b :: c :: d :: rest => by
      rw [ints_cons, List.length_cons, length_ints rest]
      simp only [List.length_cons]
      omega

end Bytes

namespace Operands

theorem casesAfter_append (later earlier : List (Int × Int)) (numbers : List Int) :
    casesAfter (later ++ earlier) numbers = earlier.reverse ++ casesAfter later numbers := by
  induction later, numbers using casesAfter.induct with
  | case1 later key offset rest ih => exact ih
  | case2 later numbers short =>
      rw [casesAfter.eq_2 _ _ short, casesAfter.eq_2 _ _ short, List.reverse_append]

theorem length_casesAfter : (numbers : List Int) →
    (casesAfter [] numbers).length = numbers.length / 2
  | [] | [_] => by simp [casesAfter]
  | key :: offset :: rest => by
      have step : casesAfter [] (key :: offset :: rest) = (key, offset) :: casesAfter [] rest :=
        casesAfter_append [] [(key, offset)] rest
      rw [step, List.length_cons, length_casesAfter rest]
      simp only [List.length_cons]
      omega

/-- The number of bytes of the table of a switch. -/
def tableSize : Operands → Nat
  | tableSwitch _ _ _ offsets => 12 + 4 * offsets.length
  | lookupSwitch _ cases => 8 + 8 * cases.length
  | _ => 0

/-- Whether there is a table, which begins at a multiple of four. -/
def hasTable : Operands → Bool
  | tableSwitch .. | lookupSwitch .. => true
  | _ => false

/-- The operands in a table of bytes, if they are those of a range of keys with the given ends. -/
theorem ofRange_eq {table : Bytes} {low high : Int} (hlow : Bytes.intAt? table 4 = some low)
    (hhigh : Bytes.intAt? table 8 = some high) :
    ∃ otherwise offsets, ofRange table = tableSwitch otherwise low high offsets ∧
      offsets.length = table.length / 4 - 3 := by
  have length := Bytes.length_ints table
  have second := Bytes.getElem?_ints table 1
  have third := Bytes.getElem?_ints table 2
  rw [hlow] at second
  rw [hhigh] at third
  unfold ofRange
  match found : Bytes.ints table with
  | [] | [_] | [_, _] => simp [found] at third
  | otherwise :: first :: last :: offsets =>
      simp only [found, List.getElem?_cons_succ, List.getElem?_cons_zero,
        Option.some.injEq] at second third
      simp only [found, List.length_cons] at length
      exact ⟨otherwise, offsets, by rw [second, third], by omega⟩

/-- The operands in a table of bytes, if they are those of a list of keys. -/
theorem ofCases_eq {table : Bytes} (h : 8 ≤ table.length) :
    ∃ otherwise cases, ofCases table = lookupSwitch otherwise cases ∧
      cases.length = (table.length / 4 - 2) / 2 := by
  have length := Bytes.length_ints table
  unfold ofCases
  match found : Bytes.ints table with
  | [] | [_] =>
      simp only [found, List.length_cons, List.length_nil] at length
      omega
  | otherwise :: count :: rest =>
      simp only [found, List.length_cons] at length
      refine ⟨otherwise, _, rfl, ?_⟩
      rw [length_casesAfter]
      omega

end Operands

namespace Shape

theorem hasTable_operands (shape : Shape) (bytes : Bytes) :
    (shape.operands bytes).hasTable = false := by
  cases shape <;> rfl

theorem tableSize_operands (shape : Shape) (bytes : Bytes) :
    (shape.operands bytes).tableSize = 0 := by
  cases shape <;> rfl

end Shape

namespace Heading

/-- What a heading is read from: the four kinds of instructions with the bytes that tell them. -/
inductive IsRead (position : Nat) (input : Bytes) : Heading → Prop
  | plain {byte : UInt8} {opcode : Opcode} {shape : Shape}
      (first : input[0]? = some byte) (found : Opcode.ofByte? byte = some opcode)
      (layout : opcode.layout = .fixed shape) :
      IsRead position input
        ⟨opcode, false, 1 + shape.size, fun code => shape.operands (code.drop 1)⟩
  | widened {byte next : UInt8} {mark opcode : Opcode} {shape : Shape} {size : Nat}
      (first : input[0]? = some byte) (found : Opcode.ofByte? byte = some mark)
      (layout : mark.layout = .widePrefix)
      (second : input[1]? = some next) (foundNext : Opcode.ofByte? next = some opcode)
      (layoutNext : opcode.layout = .fixed shape) (widens : shape.wideSize? = some size) :
      IsRead position input
        ⟨opcode, true, 2 + size, fun code => shape.operands (code.drop 2)⟩
  | range {byte : UInt8} {opcode : Opcode} {low high : Int}
      (first : input[0]? = some byte) (found : Opcode.ofByte? byte = some opcode)
      (layout : opcode.layout = .tableSwitch)
      (readLow : Bytes.intAt? input (1 + tablePadding position + 4) = some low)
      (readHigh : Bytes.intAt? input (1 + tablePadding position + 8) = some high)
      (ordered : low ≤ high) :
      IsRead position input
        ⟨opcode, false, 1 + tablePadding position + 12 + 4 * (high - low + 1).toNat,
          fun code => .ofRange (code.drop (1 + tablePadding position))⟩
  | cases {byte : UInt8} {opcode : Opcode} {count : Int}
      (first : input[0]? = some byte) (found : Opcode.ofByte? byte = some opcode)
      (layout : opcode.layout = .lookupSwitch)
      (readCount : Bytes.intAt? input (1 + tablePadding position + 4) = some count)
      (natural : 0 ≤ count) :
      IsRead position input
        ⟨opcode, false, 1 + tablePadding position + 8 + 8 * count.toNat,
          fun code => .ofCases (code.drop (1 + tablePadding position))⟩

theorem isRead_of_read {position : Nat} {input : Bytes} {heading : Heading}
    (h : read position input = .ok heading) : IsRead position input heading := by
  unfold read at h
  split at h
  · cases h
  · next byte rest =>
    split at h
    · cases h
    · next opcode found =>
      split at h
      · next shape layout =>
        cases h
        exact .plain rfl found layout
      · next layout =>
        unfold widened at h
        split at h
        · cases h
        · split at h
          · cases h
          · next next _ widenable foundNext =>
            split at h
            · next shape layoutNext =>
              split at h
              · next size widens =>
                cases h
                exact .widened rfl found layout rfl foundNext layoutNext widens
              · cases h
            · cases h
      · next layout =>
        unfold range at h
        split at h
        · next low high readLow readHigh =>
          split at h
          · cases h
          · next ordered =>
            cases h
            exact .range rfl found layout readLow readHigh (by omega)
        · cases h
      · next layout =>
        unfold cases at h
        split at h
        · next count readCount =>
          split at h
          · cases h
          · next natural =>
            cases h
            exact .cases rfl found layout readCount (by omega)
        · cases h

theorem read_of_isRead {position : Nat} {input : Bytes} {heading : Heading}
    (h : IsRead position input heading) : read position input = .ok heading := by
  match input with
  | [] => cases h <;> contradiction
  | byte :: rest =>
      cases h with
      | plain first found layout =>
          cases first
          simp only [read, found, layout]
      | widened first found layout second foundNext layoutNext widens =>
          cases first
          match rest with
          | [] => contradiction
          | next :: rest =>
              cases second
              simp only [read, found, layout, widened, foundNext, layoutNext, widens]
      | range first found layout readLow readHigh ordered =>
          cases first
          simp only [read, found, layout, range, readLow, readHigh]
          rw [if_neg (by omega)]
      | cases first found layout readCount natural =>
          cases first
          simp only [read, found, layout, Heading.cases, readCount]
          rw [if_neg (by omega)]

theorem IsRead.append {position : Nat} {input : Bytes} {heading : Heading}
    (h : IsRead position input heading) (rest : Bytes) :
    IsRead position (input ++ rest) heading := by
  have keep {index : Nat} {byte : UInt8} (at_ : input[index]? = some byte) :
      (input ++ rest)[index]? = some byte := by
    rw [List.getElem?_append_left (List.getElem?_eq_some_iff.mp at_).1, at_]
  cases h with
  | plain first found layout => exact .plain (keep first) found layout
  | widened first found layout second foundNext layoutNext widens =>
      exact .widened (keep first) found layout (keep second) foundNext layoutNext widens
  | range first found layout readLow readHigh ordered =>
      exact .range (keep first) found layout (Bytes.intAt?_append readLow rest)
        (Bytes.intAt?_append readHigh rest) ordered
  | cases first found layout readCount natural =>
      exact .cases (keep first) found layout (Bytes.intAt?_append readCount rest) natural

end Heading

namespace Instruction

theorem decode_eq_ok_iff {position : Nat} {input : Bytes} {instruction : Instruction} :
    decode position input = .ok instruction ↔
      ∃ heading, Heading.IsRead position input heading ∧ heading.length ≤ input.length ∧
        instruction = ⟨heading.opcode, position, heading.wide, input.take heading.length,
          heading.operands (input.take heading.length)⟩ := by
  constructor
  · intro h
    unfold decode at h
    split at h
    · cases h
    · next heading read =>
      dsimp only at h
      split at h
      · cases h
      · next enough =>
        cases h
        rw [List.length_take] at enough
        exact ⟨heading, Heading.isRead_of_read read, by omega, rfl⟩
  · rintro ⟨heading, read, enough, rfl⟩
    simp only [decode, Heading.read_of_isRead read]
    rw [if_neg (by rw [List.length_take]; omega)]

variable {position : Nat} {input : Bytes} {instruction : Instruction}

theorem position_decode (h : decode position input = .ok instruction) :
    instruction.position = position := by
  obtain ⟨heading, -, -, rfl⟩ := decode_eq_ok_iff.mp h
  rfl

theorem position_fault {fault : Fault} (h : decode position input = .error fault) :
    fault.position = position := by
  unfold decode at h
  split at h
  · cases h
    rfl
  · dsimp only at h
    split at h
    · cases h
      rfl
    · cases h

/-- The encoding is what the code begins with. -/
theorem encoding_append_drop (h : decode position input = .ok instruction) :
    instruction.encoding ++ input.drop instruction.encoding.length = input := by
  obtain ⟨heading, -, enough, rfl⟩ := decode_eq_ok_iff.mp h
  dsimp only
  rw [List.length_take, Nat.min_eq_left enough, List.take_append_drop]

/-- An instruction is found again when its code is followed by other code. -/
theorem decode_append (h : decode position input = .ok instruction) (rest : Bytes) :
    decode position (input ++ rest) = .ok instruction := by
  obtain ⟨heading, read, enough, rfl⟩ := decode_eq_ok_iff.mp h
  refine decode_eq_ok_iff.mpr ⟨heading, read.append rest, ?_, ?_⟩
  · rw [List.length_append]
    omega
  · rw [List.take_append_of_le_length enough]

/-- The number of bytes between the opcode and the table of a switch. -/
def padding (instruction : Instruction) : Nat :=
  if instruction.operands.hasTable then tablePadding instruction.position else 0

/-- The length of an instruction without padding. -/
def bareLength (instruction : Instruction) : Nat :=
  let opcode := instruction.opcode
  (if instruction.wide then opcode.wideLength? else opcode.length?).getD 1 +
    instruction.operands.tableSize

/-- What is read at the beginning of a table: as many offsets as there are keys. -/
theorem operands_of_range {input : Bytes} {skip : Nat} {low high : Int}
    (hlow : Bytes.intAt? input (skip + 4) = some low)
    (hhigh : Bytes.intAt? input (skip + 8) = some high) (ordered : low ≤ high)
    (enough : skip + 12 + 4 * (high - low + 1).toNat ≤ input.length) :
    ∃ otherwise offsets,
      Operands.ofRange ((input.take (skip + 12 + 4 * (high - low + 1).toNat)).drop skip) =
        .tableSwitch otherwise low high offsets ∧
      offsets.length = (high - low + 1).toNat := by
  have size : 0 < (high - low + 1).toNat := by omega
  have second : Bytes.intAt?
      ((input.take (skip + 12 + 4 * (high - low + 1).toNat)).drop skip) 4 = some low := by
    rw [Bytes.intAt?_drop, Bytes.intAt?_take (by omega), hlow]
  have third : Bytes.intAt?
      ((input.take (skip + 12 + 4 * (high - low + 1).toNat)).drop skip) 8 = some high := by
    rw [Bytes.intAt?_drop, Bytes.intAt?_take (by omega), hhigh]
  obtain ⟨otherwise, offsets, eq, length⟩ := Operands.ofRange_eq second third
  refine ⟨otherwise, offsets, eq, ?_⟩
  rw [length, List.length_drop, List.length_take]
  omega

/-- What is read at the beginning of a list of keys: as many cases as are announced. -/
theorem operands_of_cases {input : Bytes} {skip count : Nat}
    (enough : skip + 8 + 8 * count ≤ input.length) :
    ∃ otherwise cases,
      Operands.ofCases ((input.take (skip + 8 + 8 * count)).drop skip) =
        .lookupSwitch otherwise cases ∧
      cases.length = count := by
  have size : ((input.take (skip + 8 + 8 * count)).drop skip).length = 8 + 8 * count := by
    rw [List.length_drop, List.length_take]
    omega
  obtain ⟨otherwise, cases, eq, length⟩ := Operands.ofCases_eq (by rw [size]; omega)
  refine ⟨otherwise, cases, eq, ?_⟩
  rw [length, size]
  omega

/-- Only the padding in the encoding depends on the position. -/
theorem length_encoding_eq (h : decode position input = .ok instruction) :
    instruction.encoding.length = instruction.padding + instruction.bareLength := by
  obtain ⟨heading, read, enough, rfl⟩ := decode_eq_ok_iff.mp h
  simp only [padding, bareLength, List.length_take, Nat.min_eq_left enough]
  cases read with
  | plain first found layout =>
      simp [Shape.hasTable_operands, Shape.tableSize_operands, Opcode.length?, layout]
  | widened first found layout second foundNext layoutNext widens =>
      simp [Shape.hasTable_operands, Shape.tableSize_operands, Opcode.wideLength?, layoutNext,
        widens]
  | range first found layout readLow readHigh ordered =>
      obtain ⟨otherwise, offsets, eq, length⟩ :=
        operands_of_range readLow readHigh ordered enough
      simp only [eq, Operands.hasTable, Operands.tableSize, length, Opcode.length?, layout,
        if_true, Bool.false_eq_true, if_false, Option.getD_none]
      omega
  | cases first found layout readCount natural =>
      obtain ⟨otherwise, cases, eq, length⟩ := operands_of_cases enough
      simp only [eq, Operands.hasTable, Operands.tableSize, length, Opcode.length?, layout,
        if_true, Bool.false_eq_true, if_false, Option.getD_none]
      omega

/-- A switch over a range has an offset for each of its keys. -/
theorem length_offsets {otherwise low high : Int} {offsets : List Int}
    (h : decode position input = .ok instruction)
    (operands : instruction.operands = .tableSwitch otherwise low high offsets) :
    low ≤ high ∧ offsets.length = (high - low + 1).toNat := by
  obtain ⟨heading, read, enough, rfl⟩ := decode_eq_ok_iff.mp h
  dsimp only at operands
  cases read with
  | plain | widened =>
      have table := congrArg Operands.hasTable operands
      rw [Shape.hasTable_operands] at table
      cases table
  | range first found layout readLow readHigh ordered =>
      obtain ⟨_, _, eq, length⟩ := operands_of_range readLow readHigh ordered enough
      cases eq.symm.trans operands
      exact ⟨ordered, length⟩
  | cases first found layout readCount natural =>
      obtain ⟨_, _, eq, length⟩ := operands_of_cases enough
      cases eq.symm.trans operands

/-- A switch over a list of keys has as many cases as its count says, and nothing comes after
them. -/
theorem length_cases {otherwise : Int} {cases : List (Int × Int)}
    (h : decode position input = .ok instruction)
    (operands : instruction.operands = .lookupSwitch otherwise cases) :
    Bytes.intAt? instruction.encoding (1 + tablePadding position + 4) =
        some (cases.length : Int) ∧
      instruction.encoding.length = 1 + tablePadding position + 8 + 8 * cases.length := by
  obtain ⟨heading, read, enough, rfl⟩ := decode_eq_ok_iff.mp h
  dsimp only at operands
  cases read with
  | plain | widened =>
      have table := congrArg Operands.hasTable operands
      rw [Shape.hasTable_operands] at table
      cases table
  | range first found layout readLow readHigh ordered =>
      obtain ⟨_, _, eq, length⟩ := operands_of_range readLow readHigh ordered enough
      cases eq.symm.trans operands
  | @cases _ _ count first found layout readCount natural =>
      obtain ⟨_, _, eq, length⟩ := operands_of_cases enough
      cases eq.symm.trans operands
      have counted : (cases.length : Int) = count := by omega
      dsimp only at enough ⊢
      rw [Bytes.intAt?_take (by omega), readCount, counted, List.length_take, length]
      exact ⟨rfl, Nat.min_eq_left enough⟩

end Instruction

end HotSwap
