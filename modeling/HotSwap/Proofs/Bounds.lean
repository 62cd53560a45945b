import HotSwap.Proofs.Encoding

/-! # Operands are read inside the instruction

An instruction is as long as its layout says. Here its operands are read a second time, by the
group of the opcode, with exceptions for single opcodes, and so that a byte that is not in the
encoding cannot be read. This always succeeds, and gives the operands that the layout gives. So the
length, the group and the operands of an opcode agree with each other, and no byte outside an
instruction is ever looked at. -/

namespace HotSwap

namespace Bytes

/-- Some bytes at a distance from the front, all of which have to be there. -/
def part? (distance count : Nat) (bytes : Bytes) : Option Bytes :=
  if distance + count ≤ bytes.length then some ((bytes.drop distance).take count) else none

/-- All bytes from a distance on, which must not be past the end. -/
def after? (distance : Nat) (bytes : Bytes) : Option Bytes :=
  if distance ≤ bytes.length then some (bytes.drop distance) else none

theorem part?_cons (distance count : Nat) (byte : UInt8) (bytes : Bytes) :
    part? (distance + 1) count (byte :: bytes) = part? distance count bytes := by
  simp only [part?, List.length_cons, List.drop_succ_cons, Nat.add_right_comm distance 1,
    Nat.add_le_add_iff_right]

theorem after?_cons (distance : Nat) (byte : UInt8) (bytes : Bytes) :
    after? (distance + 1) (byte :: bytes) = after? distance bytes := by
  simp only [after?, List.length_cons, List.drop_succ_cons, Nat.add_le_add_iff_right]

theorem after?_of_le {distance : Nat} {bytes : Bytes} (le : distance ≤ bytes.length) :
    after? distance bytes = some (bytes.drop distance) :=
  if_pos le

/-- An integer is read if its four bytes are there. -/
theorem map_toInt_part?_four (distance : Nat) (bytes : Bytes) :
    (part? distance 4 bytes).map toInt = intAt? bytes distance := by
  apply Option.ext
  intro number
  rw [intAt?_eq_some_iff, part?]
  split
  · next le => simp [le]
  · next gt => simp [gt]

theorem ints_drop (bytes : Bytes) (count : Nat) :
    ints (bytes.drop (4 * count)) = (ints bytes).drop count := by
  apply List.ext_getElem?
  intro index
  rw [getElem?_ints, intAt?_drop, List.getElem?_drop, getElem?_ints, Nat.mul_add]

end Bytes

/-- The opcodes whose operands are not those of the rest of their groups are known by their
layouts. -/
theorem Opcode.special_iff {opcode : Opcode} {shape : Shape} (layout : opcode.layout = .fixed shape) :
    (opcode = .ldc ↔ shape = .shortConstant) ∧
      (opcode = .multianewarray ↔ shape = .classDimensions) ∧
      (opcode = .invokeinterface ↔ shape = .memberCount) ∧
      (opcode = .invokedynamic ↔ shape = .callSite) ∧
      (opcode = .newarray ↔ shape = .elementType) := by
  have all : ∀ code : Fin 202,
      (mk code = ldc ↔ (mk code).layout = .fixed .shortConstant) ∧
        (mk code = multianewarray ↔ (mk code).layout = .fixed .classDimensions) ∧
        (mk code = invokeinterface ↔ (mk code).layout = .fixed .memberCount) ∧
        (mk code = invokedynamic ↔ (mk code).layout = .fixed .callSite) ∧
        (mk code = newarray ↔ (mk code).layout = .fixed .elementType) := by
    decide +kernel
  have facts := all opcode.code
  change (opcode = _ ↔ opcode.layout = _) ∧ (opcode = _ ↔ opcode.layout = _) ∧
    (opcode = _ ↔ opcode.layout = _) ∧ (opcode = _ ↔ opcode.layout = _) ∧
    (opcode = _ ↔ opcode.layout = _) at facts
  simpa only [layout, Layout.fixed.injEq] using facts

namespace Operands

/-- The operands of an instruction, of which no byte outside the encoding can be read. What is read
depends on the group of the opcode, and on the opcode itself only where a group is mixed. -/
def read? (opcode : Opcode) (wide : Bool) (position : Nat) (encoding : Bytes) : Option Operands :=
  let skip := if wide then 2 else 1
  let size := if wide then 2 else 1
  let table := tablePadding position
  let part (distance count : Nat) := Bytes.part? (distance + skip) count encoding
  let natural (distance count : Nat) := (part distance count).map Bytes.toNat
  let integer (distance count : Nat) := (part distance count).map Bytes.toInt
  match opcode.group with
  | .classes => do
      let index ← natural 0 2
      if opcode = .multianewarray then return .arrayClass (.ofNat index) (.ofNat (← natural 2 1))
      else return .classRef (.ofNat index)
  | .members => do
      let index ← natural 0 2
      if opcode = .invokeinterface then
        return .interfaceMember (.ofNat index) (.ofNat (← natural 2 1))
      else return .member (.ofNat index)
  | .constants => return .constant (.ofNat (← natural 0 (if opcode = .ldc then 1 else 2)))
  | .doubleConstants => return .constant (.ofNat (← natural 0 2))
  | .byteValues => return .byte (← integer 0 1)
  | .shortValues => return .short (← integer 0 2)
  | .slots => return .slot (← natural 0 size)
  | .increments => return .increment (← natural 0 size) (← integer size size)
  | .jumps => return .jump (← integer 0 (if opcode = .gotoW ∨ opcode = .jsrW then 4 else 2))
  | .ranges => do
      let offsets ← Bytes.after? (table + 12 + skip) encoding
      return .tableSwitch (← integer table 4) (← integer (table + 4) 4) (← integer (table + 8) 4)
        (Bytes.ints offsets)
  | .cases => do
      let cases ← Bytes.after? (table + 8 + skip) encoding
      return .lookupSwitch (← integer table 4) (casesAfter [] (Bytes.ints cases))
  | .others => do
      let _ ← Bytes.after? skip encoding
      if opcode = .invokedynamic then return .callSite (.ofNat (← natural 0 2))
      else if opcode = .newarray then return .elementType (.ofNat (← natural 0 1))
      else return .none

variable {opcode : Opcode} {shape : Shape} {bytes : Bytes}

/-- The operands of a fixed size are read from as many bytes as they have. -/
theorem read?_plain (layout : opcode.layout = .fixed shape) (length : bytes.length = shape.size)
    (position : Nat) :
    read? opcode false position (opcode.toByte :: bytes) = some (shape.operands bytes) := by
  have group : opcode.group = shape.group := by rw [Opcode.group, layout, Layout.group]
  have whole {count : Nat} (le : bytes.length ≤ count) : bytes.take count = bytes :=
    List.take_of_length_le le
  obtain ⟨ldc, multianewarray, invokeinterface, invokedynamic, newarray⟩ :=
    Opcode.special_iff layout
  have wideJump : opcode = .gotoW ∨ opcode = .jsrW ↔ shape = .wideJump := by
    rw [← Opcode.layout_eq_wideJump_iff, layout, Layout.fixed.injEq]
  simp only [read?, group, ldc, multianewarray, invokeinterface, invokedynamic, newarray, wideJump,
    Bool.false_eq_true, if_false, Bytes.part?_cons, Bytes.after?_cons 0]
  clear ldc multianewarray invokeinterface invokedynamic newarray wideJump
  cases shape with
  -- the slot and the amount are told apart by halving the bytes, so these are taken apart
  | increment =>
      match bytes, length with
      | [_, _], _ => simp [Shape.group, Bytes.part?, Shape.operands]
  | _ =>
      simp only [Shape.size] at length
      simp [Shape.group, Shape.operands, Bytes.part?, Bytes.after?, length, whole]

/-- So are operands behind a prefix. -/
theorem read?_widened (layout : opcode.layout = .fixed shape)
    (length : shape.wideSize? = some bytes.length) (position : Nat) :
    read? opcode true position (Opcode.wide.toByte :: opcode.toByte :: bytes) =
      some (shape.operands bytes) := by
  have group : opcode.group = shape.group := by rw [Opcode.group, layout, Layout.group]
  cases shape with
  | slot =>
      match bytes, length with
      | [_, _], _ => simp [read?, group, Shape.group, Bytes.part?, Shape.operands]
  | increment =>
      match bytes, length with
      | [_, _, _, _], _ => simp [read?, group, Shape.group, Bytes.part?, Shape.operands]
  | _ => cases length

theorem ints_of_ofRange {table : Bytes} {otherwise low high : Int} {offsets : List Int}
    (h : ofRange table = .tableSwitch otherwise low high offsets) :
    Bytes.ints table = otherwise :: low :: high :: offsets := by
  unfold ofRange at h
  split at h
  · next found =>
    cases h
    exact found
  · cases h

theorem ints_of_ofCases {table : Bytes} {otherwise : Int} {cases : List (Int × Int)}
    (h : ofCases table = .lookupSwitch otherwise cases) :
    ∃ count rest, Bytes.ints table = otherwise :: count :: rest ∧ casesAfter [] rest = cases := by
  unfold ofCases at h
  split at h
  · next found =>
    cases h
    exact ⟨_, _, found, rfl⟩
  · cases h

/-- The numbers of a table, and the bytes behind them, are those at its distance. -/
theorem intAt?_of_ints {padding : Nat} {numbers : List Int}
    (found : Bytes.ints (bytes.drop padding) = numbers) (index : Nat) :
    Bytes.intAt? bytes (padding + 4 * index) = numbers[index]? := by
  rw [← Bytes.intAt?_drop, ← Bytes.getElem?_ints, found]

theorem ints_behind {padding : Nat} {numbers : List Int}
    (found : Bytes.ints (bytes.drop padding) = numbers) (count : Nat) :
    Bytes.ints (bytes.drop (padding + 4 * count)) = numbers.drop count := by
  rw [← List.drop_drop, Bytes.ints_drop, found]

/-- The ends of a range and its offsets are read behind the padding. -/
theorem read?_range {position : Nat} {otherwise low high : Int} {offsets : List Int}
    (layout : opcode.layout = .tableSwitch)
    (table : ofRange (bytes.drop (tablePadding position)) =
      .tableSwitch otherwise low high offsets) :
    read? opcode false position (opcode.toByte :: bytes) =
      some (.tableSwitch otherwise low high offsets) := by
  have group : opcode.group = .ranges := by rw [Opcode.group, layout, Layout.group]
  have numbers := ints_of_ofRange table
  have first : Bytes.intAt? bytes (tablePadding position) = some otherwise :=
    intAt?_of_ints numbers 0
  have second : Bytes.intAt? bytes (tablePadding position + 4) = some low :=
    intAt?_of_ints numbers 1
  have third : Bytes.intAt? bytes (tablePadding position + 8) = some high :=
    intAt?_of_ints numbers 2
  have rest : Bytes.ints (bytes.drop (tablePadding position + 12)) = offsets :=
    ints_behind numbers 3
  have enough := (Bytes.intAt?_eq_some_iff.mp third).1
  simp only [read?, group, Bool.false_eq_true, if_false, Bytes.part?_cons, Bytes.after?_cons,
    Bytes.map_toInt_part?_four]
  rw [Bytes.after?_of_le (by omega), first, second, third, ← rest]
  rfl

/-- So are the cases of a list of keys. -/
theorem read?_cases {position : Nat} {otherwise : Int} {cases : List (Int × Int)}
    (layout : opcode.layout = .lookupSwitch)
    (table : ofCases (bytes.drop (tablePadding position)) = .lookupSwitch otherwise cases) :
    read? opcode false position (opcode.toByte :: bytes) =
      some (.lookupSwitch otherwise cases) := by
  have group : opcode.group = .cases := by rw [Opcode.group, layout, Layout.group]
  obtain ⟨count, rest, numbers, paired⟩ := ints_of_ofCases table
  have first : Bytes.intAt? bytes (tablePadding position) = some otherwise :=
    intAt?_of_ints numbers 0
  have second : Bytes.intAt? bytes (tablePadding position + 4) = some count :=
    intAt?_of_ints numbers 1
  have behind : Bytes.ints (bytes.drop (tablePadding position + 8)) = rest :=
    ints_behind numbers 2
  have enough := (Bytes.intAt?_eq_some_iff.mp second).1
  simp only [read?, group, Bool.false_eq_true, if_false, Bytes.part?_cons, Bytes.after?_cons,
    Bytes.map_toInt_part?_four]
  rw [Bytes.after?_of_le (by omega), first, ← paired, ← behind]
  rfl

end Operands

namespace Instruction.Encoded

variable {instruction : Instruction}

/-- The operands of an instruction are read inside its encoding. -/
theorem read?_eq (encoded : instruction.Encoded) :
    Operands.read? instruction.opcode instruction.wide instruction.position
      instruction.encoding = some instruction.operands := by
  cases encoded with
  | plain position layout length => exact Operands.read?_plain layout length position
  | widened position layout length => exact Operands.read?_widened layout length position
  | range layout table => exact Operands.read?_range layout table
  | cases layout table => exact Operands.read?_cases layout table

/-- The prefix is never the opcode of an instruction. -/
theorem opcode_ne_wide (encoded : instruction.Encoded) : instruction.opcode ≠ .wide := by
  have isWide : Opcode.wide.layout = .widePrefix := by decide +kernel
  rintro same
  rw [← same] at isWide
  cases encoded with
  | plain position layout length => cases layout.symm.trans isWide
  | widened position layout length => cases layout.symm.trans isWide
  | range layout table => cases layout.symm.trans isWide
  | cases layout table => cases layout.symm.trans isWide

end Instruction.Encoded

end HotSwap
