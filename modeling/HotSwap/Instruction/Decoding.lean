import HotSwap.Instruction

/-! # Reading one instruction

The first bytes of an instruction give its length and say how its operands are read
from its encoding. Reading fails at a byte that is no opcode, at a prefix or a table
that makes no sense, and where the code ends too early. -/

namespace HotSwap

/-- Why there is no instruction at a position. -/
inductive FaultReason
  | truncated
  | unknownOpcode
  | notWidenable
  | invertedRange
  | negativeCount
  deriving DecidableEq, Repr

def FaultReason.text : FaultReason → String
  | truncated => "truncated"
  | unknownOpcode => "unknown opcode"
  | notWidenable => "opcode cannot be widened"
  | invertedRange => "tableswitch bounds are inverted"
  | negativeCount => "lookupswitch has a negative pair count"

/-- A place at which there is no instruction. -/
structure Fault where
  position : Nat
  reason : FaultReason
  deriving DecidableEq, Repr

/-- The four byte integer at some distance from the front. -/
def Bytes.intAt? (bytes : Bytes) (distance : Nat) : Option Int :=
  let word : Bytes := (bytes.drop distance).take 4
  if word.length = 4 then some (Bytes.toInt word) else none

/-- Read four byte integers after some others, of which the last one comes first. -/
def Bytes.intsAfter : List Int → Bytes → List Int
  | ints, a :: b :: c :: d :: rest => intsAfter (Bytes.toInt [a, b, c, d] :: ints) rest
  | ints, _ => ints.reverse

/-- The four byte integers that a byte string consists of. -/
def Bytes.ints (bytes : Bytes) : List Int :=
  Bytes.intsAfter [] bytes

/-- Pair up integers after some pairs, of which the last one comes first. -/
def Operands.casesAfter : List (Int × Int) → List Int → List (Int × Int)
  | cases, key :: offset :: rest => casesAfter ((key, offset) :: cases) rest
  | cases, _ => cases.reverse

/-- The operands in the given bytes. -/
def Shape.operands (shape : Shape) (bytes : Bytes) : Operands :=
  let index := UInt16.ofNat (Bytes.toNat (bytes.take 2))
  let third := UInt8.ofNat (Bytes.toNat ((bytes.drop 2).take 1))
  let half := bytes.length / 2
  match shape with
  | none => .none
  | classIndex => .classRef index
  | classDimensions => .arrayClass index third
  | memberIndex => .member index
  | memberCount => .interfaceMember index third
  | callSite => .callSite index
  | shortConstant | constant | doubleConstant => .constant index
  | byte => .byte (Bytes.toInt bytes)
  | short => .short (Bytes.toInt bytes)
  | elementType => .elementType (UInt8.ofNat (Bytes.toNat bytes))
  | slot => .slot (Bytes.toNat bytes)
  | increment => .increment (Bytes.toNat (bytes.take half)) (Bytes.toInt (bytes.drop half))
  | jump | wideJump => .jump (Bytes.toInt bytes)

/-- The number of bytes between a switch at `position` and the next multiple of four. -/
def tablePadding (position : Nat) : Nat :=
  (4 - (position + 1) % 4) % 4

/-- The operands in the table of a range of keys. -/
def Operands.ofRange (table : Bytes) : Operands :=
  match Bytes.ints table with
  | otherwise :: low :: high :: offsets => .tableSwitch otherwise low high offsets
  | _ => .none

/-- The operands in the table of a list of keys. -/
def Operands.ofCases (table : Bytes) : Operands :=
  match Bytes.ints table with
  | otherwise :: _ :: cases => .lookupSwitch otherwise (Operands.casesAfter [] cases)
  | _ => .none

/-- What the first bytes of an instruction tell. -/
structure Heading where
  opcode : Opcode
  wide : Bool
  length : Nat
  operands : Bytes → Operands

namespace Heading

/-- The heading of an instruction behind a wide prefix. -/
def widened (input : Bytes) : Except FaultReason Heading :=
  match input with
  | [] => .error .truncated
  | byte :: _ =>
      match Opcode.ofByte? byte with
      | none => .error .unknownOpcode
      | some opcode =>
          match opcode.layout with
          | .fixed shape =>
              match shape.wideSize? with
              | some size =>
                  .ok ⟨opcode, true, 2 + size, fun code => shape.operands (code.drop 2)⟩
              | none => .error .notWidenable
          | _ => .error .notWidenable

/-- The heading of a switch over a range of keys, of which the table begins after `skip` bytes. -/
def range (opcode : Opcode) (skip : Nat) (input : Bytes) : Except FaultReason Heading :=
  match Bytes.intAt? input (skip + 4), Bytes.intAt? input (skip + 8) with
  | some low, some high =>
      if high < low then .error .invertedRange
      else
        .ok ⟨opcode, false, skip + 12 + 4 * (high - low + 1).toNat,
          fun code => .ofRange (code.drop skip)⟩
  | _, _ => .error .truncated

/-- The heading of a switch over a list of keys, of which the table begins after `skip` bytes. -/
def cases (opcode : Opcode) (skip : Nat) (input : Bytes) : Except FaultReason Heading :=
  match Bytes.intAt? input (skip + 4) with
  | some count =>
      if count < 0 then .error .negativeCount
      else
        .ok ⟨opcode, false, skip + 8 + 8 * count.toNat, fun code => .ofCases (code.drop skip)⟩
  | none => .error .truncated

/-- The heading of the instruction at a position, of which the code goes on as given. -/
def read (position : Nat) (input : Bytes) : Except FaultReason Heading :=
  match input with
  | [] => .error .truncated
  | byte :: rest =>
      match Opcode.ofByte? byte with
      | none => .error .unknownOpcode
      | some opcode =>
          match opcode.layout with
          | .fixed shape =>
              .ok ⟨opcode, false, 1 + shape.size, fun code => shape.operands (code.drop 1)⟩
          | .widePrefix => widened rest
          | .tableSwitch => range opcode (1 + tablePadding position) input
          | .lookupSwitch => cases opcode (1 + tablePadding position) input

theorem length_widened_pos {input : Bytes} {heading : Heading}
    (h : widened input = .ok heading) : 0 < heading.length := by
  unfold widened at h
  repeat' split at h
  all_goals cases h
  show 0 < 2 + _
  omega

theorem length_range_pos {opcode : Opcode} {skip : Nat} {input : Bytes} {heading : Heading}
    (h : range opcode skip input = .ok heading) : 0 < heading.length := by
  unfold range at h
  repeat' split at h
  all_goals cases h
  show 0 < skip + 12 + _
  omega

theorem length_cases_pos {opcode : Opcode} {skip : Nat} {input : Bytes} {heading : Heading}
    (h : cases opcode skip input = .ok heading) : 0 < heading.length := by
  unfold cases at h
  repeat' split at h
  all_goals cases h
  show 0 < skip + 8 + _
  omega

theorem length_pos {position : Nat} {input : Bytes} {heading : Heading}
    (h : read position input = .ok heading) : 0 < heading.length := by
  unfold read at h
  split at h
  · cases h
  · split at h
    · cases h
    · split at h
      · cases h
        show 0 < 1 + _
        omega
      · exact length_widened_pos h
      · exact length_range_pos h
      · exact length_cases_pos h

end Heading

/-- The instruction at a position, of which the code goes on as given. -/
def Instruction.decode (position : Nat) (input : Bytes) : Except Fault Instruction :=
  match Heading.read position input with
  | .error reason => .error ⟨position, reason⟩
  | .ok heading =>
      let encoding := input.take heading.length
      if encoding.length < heading.length then .error ⟨position, .truncated⟩
      else .ok ⟨heading.opcode, position, heading.wide, encoding, heading.operands encoding⟩

/-- An instruction takes at least one byte, and not more than there are. -/
theorem Instruction.length_encoding {position : Nat} {input : Bytes} {instruction : Instruction}
    (h : Instruction.decode position input = .ok instruction) :
    0 < instruction.encoding.length ∧ instruction.encoding.length ≤ input.length := by
  unfold Instruction.decode at h
  split at h
  · simp at h
  · next heading found =>
    have := Heading.length_pos found
    dsimp only at h
    split at h
    · simp at h
    · simp only [Except.ok.injEq] at h
      subst h
      simp only [List.length_take] at *
      omega

end HotSwap
