import HotSwap.Proofs.Counterpart
import HotSwap.Proofs.Encoding
import HotSwap.Proofs.Listing

/-! # Code with its constants renumbered

Two versions are equivalent if the code of the one is that of the other with its constants
renumbered: the indices stand for the same things, and all other bytes are the same, except for
a few that are not looked at. Since an instruction is as long as the one in its place, the
codes are in step from the start to the end. -/

namespace HotSwap

/-- What the index in an instruction stands for. -/
inductive Meaning
  /-- There is no index, or it is not looked up. -/
  | nothing
  | className (name : String)
  | member (symbol : MemberSymbol)
  | value (value : Loadable)
  deriving DecidableEq, Repr

/-- What an index stands for in an instruction of a group, if there is such a thing. -/
def OpcodeGroup.meaning? (group : OpcodeGroup) (symbols : Symbols) (index : Option UInt16) :
    Option Meaning :=
  match group with
  | classes => (index.bind symbols.className?).map .className
  | members => (index.bind symbols.member?).map .member
  | constants | doubleConstants => (index.bind symbols.loadable?).map .value
  | _ => some .nothing

/-- The operand bytes that have to be the same: all but an index that is looked up, and but what
tells a call site, a primitive type or the count of an interface method. -/
def Shape.literals : Shape → Bytes → Bytes
  | classIndex, _ | memberIndex, _ | memberCount, _ | callSite, _ | shortConstant, _
  | constant, _ | doubleConstant, _ | elementType, _ => []
  | classDimensions, bytes => bytes.drop 2
  | none, bytes | byte, bytes | short, bytes | slot, bytes | increment, bytes | jump, bytes
  | wideJump, bytes => bytes

namespace Instruction

/-- What the index in an instruction stands for. -/
def meaning? (symbols : Symbols) (instruction : Instruction) : Option Meaning :=
  instruction.opcode.group.meaning? symbols instruction.operands.index?

/-- Whether the index in an instruction, if it is looked up, stands for something that can be
compared. A value that is computed when it is loaded cannot. -/
def Resolves (symbols : Symbols) (instruction : Instruction) : Prop :=
  ∃ meaning, meaning ≠ .value .dynamic ∧
    instruction.meaning? symbols = some meaning

/-- The bytes of an instruction that have to be the same. Of a switch, these are all. -/
def literals (instruction : Instruction) : Bytes :=
  match instruction.opcode.layout with
  | .fixed shape => instruction.encoding.take 1 ++ shape.literals (instruction.encoding.drop 1)
  | _ => instruction.encoding

/-- Whether an instruction is another one with its constants renumbered. -/
structure Renumbered (oldSymbols newSymbols : Symbols) (old new : Instruction) : Prop where
  opcode : old.opcode = new.opcode
  wide : old.wide = new.wide
  meaning : ∃ meaning, meaning ≠ .value .dynamic ∧
    old.meaning? oldSymbols = some meaning ∧ new.meaning? newSymbols = some meaning
  literals : old.literals = new.literals

end Instruction

namespace Shape

variable {oldSymbols newSymbols : Symbols} {first second : Bytes} {old new : Instruction}

theorem dimensions_inj (sameLength : first.length = second.length) (length : first.length = 3) :
    UInt8.ofNat (Bytes.toNat ((first.drop 2).take 1)) =
        UInt8.ofNat (Bytes.toNat ((second.drop 2).take 1)) ↔
      first.drop 2 = second.drop 2 := by
  match first, second with
  | [_, _, _], [_, _, _] => simp [Bytes.toNat_singleton]

theorem increment_inj (sameLength : first.length = second.length) (half : Nat) :
    Bytes.toNat (first.take half) = Bytes.toNat (second.take half) ∧
        Bytes.toInt (first.drop half) = Bytes.toInt (second.drop half) ↔
      first = second := by
  rw [Bytes.toNat_inj (by simp [sameLength]), Bytes.toInt_inj (by simp [sameLength])]
  constructor
  · rintro ⟨front, back⟩
    rw [← List.take_append_drop half first, front, back, List.take_append_drop]
  · rintro rfl
    exact ⟨rfl, rfl⟩

/-- Behind a prefix, all operand bytes have to be the same. -/
theorem literals_of_wideSize? {shape : Shape} {size : Nat} (widens : shape.wideSize? = some size)
    (bytes : Bytes) : shape.literals bytes = bytes := by
  cases shape with
  | slot | increment => rfl
  | _ => cases widens

/-- Operands of a fixed size mean the same if their indices stand for the same thing and their other
bytes are the same. -/
theorem sameInPlace_iff {shape : Shape} (sameLength : first.length = second.length)
    (length : first.length = shape.size ∨ shape.wideSize? = some first.length)
    (oldIs : old.operands = shape.operands first) (newIs : new.operands = shape.operands second) :
    old.sameInPlace oldSymbols newSymbols new = true ↔
      (∃ meaning, meaning ≠ .value .dynamic ∧
        shape.group.meaning? oldSymbols old.operands.index? = some meaning ∧
        shape.group.meaning? newSymbols new.operands.index? = some meaning) ∧
      shape.literals first = shape.literals second := by
  rw [Instruction.sameInPlace, oldIs, newIs]
  cases shape with
  | none =>
      have firstNil : first = [] := by simpa [size, wideSize?] using length
      have secondNil : second = [] := by simpa [firstNil] using sameLength.symm
      simp [operands, Operands.sameMeaning, group, OpcodeGroup.meaning?, firstNil, secondNil]
  | callSite | elementType =>
      simp [operands, Operands.sameMeaning, group, OpcodeGroup.meaning?, literals]
  | classIndex | memberIndex | memberCount =>
      simp [operands, Operands.sameMeaning, group, OpcodeGroup.meaning?, literals,
        Operands.index?, agree_eq_true_iff]
  | classDimensions =>
      have three : first.length = 3 := by simpa [size, wideSize?] using length
      simp [operands, Operands.sameMeaning, group, OpcodeGroup.meaning?, literals,
        Operands.index?, agree_eq_true_iff, dimensions_inj sameLength three]
  | shortConstant | constant | doubleConstant =>
      simp [operands, Operands.sameMeaning, group, OpcodeGroup.meaning?, literals,
        Operands.index?, sameLoadable_eq_true_iff]
  | byte | short | jump | wideJump =>
      simp [operands, Operands.sameMeaning, group, OpcodeGroup.meaning?, literals,
        Bytes.toInt_inj sameLength]
  | slot =>
      simp [operands, Operands.sameMeaning, group, OpcodeGroup.meaning?, literals,
        Bytes.toNat_inj sameLength]
  | increment =>
      simp [operands, Operands.sameMeaning, group, OpcodeGroup.meaning?, literals, sameLength,
        increment_inj sameLength]

end Shape

namespace Instruction

variable {oldSymbols newSymbols : Symbols} {old new : Instruction}

/-- Instructions with the same opcode and prefix mean the same in their places if their indices
stand for the same thing and their literal bytes are the same. -/
theorem sameInPlace_iff (oldEncoded : old.Encoded) (newEncoded : new.Encoded)
    (opcode : old.opcode = new.opcode) (wide : old.wide = new.wide) :
    old.sameInPlace oldSymbols newSymbols new = true ↔
      (∃ meaning, meaning ≠ .value .dynamic ∧
        old.meaning? oldSymbols = some meaning ∧
        new.meaning? newSymbols = some meaning) ∧
      old.literals = new.literals := by
  -- opcode and prefix fix the kind of encoding, so only the four cases on the diagonal remain
  cases oldEncoded with
  | plain position layout length =>
      cases newEncoded with
      | plain position' layout' length' =>
          cases opcode
          cases layout.symm.trans layout'
          rw [Shape.sameInPlace_iff (length.trans length'.symm) (.inl length) rfl rfl]
          simp [meaning?, literals, Opcode.group, Layout.group, layout]
      | widened => cases wide
      | range layout' | cases layout' =>
          cases opcode
          cases layout.symm.trans layout'
  | widened position layout length =>
      cases newEncoded with
      | widened position' layout' length' =>
          cases opcode
          cases layout.symm.trans layout'
          have sameLength := Option.some.inj (length.symm.trans length')
          rw [Shape.sameInPlace_iff sameLength (.inr length) rfl rfl]
          simp [meaning?, literals, Opcode.group, Layout.group, layout,
            Shape.literals_of_wideSize? length]
      | plain | range | cases => cases wide
  | range layout table =>
      cases newEncoded with
      | range layout' table' =>
          cases opcode
          simp [sameInPlace, meaning?, literals, Opcode.group, Layout.group, layout,
            OpcodeGroup.meaning?]
      | widened => cases wide
      | plain _ layout' | cases layout' =>
          cases opcode
          cases layout.symm.trans layout'
  | cases layout table =>
      cases newEncoded with
      | cases layout' table' =>
          cases opcode
          simp [sameInPlace, meaning?, literals, Opcode.group, Layout.group, layout,
            OpcodeGroup.meaning?]
      | widened => cases wide
      | plain _ layout' | range layout' =>
          cases opcode
          cases layout.symm.trans layout'

theorem equivalent_iff (oldEncoded : old.Encoded) (newEncoded : new.Encoded) :
    old.equivalent oldSymbols newSymbols new = true ↔
      old.Renumbered oldSymbols newSymbols new := by
  rw [equivalent, Bool.and_eq_true, sameKind_iff]
  constructor
  · rintro ⟨⟨opcode, wide⟩, same⟩
    obtain ⟨meaning, literals⟩ := (sameInPlace_iff oldEncoded newEncoded opcode wide).mp same
    exact ⟨opcode, wide, meaning, literals⟩
  · rintro ⟨opcode, wide, meaning, literals⟩
    have same := (sameInPlace_iff oldEncoded newEncoded opcode wide).mpr ⟨meaning, literals⟩
    exact ⟨⟨opcode, wide⟩, same⟩

theorem Encoded.length_of_fixed {instruction : Instruction} {shape : Shape}
    (encoded : instruction.Encoded) (fixed : instruction.opcode.layout = .fixed shape) :
    (if instruction.wide then instruction.opcode.wideLength? else instruction.opcode.length?) =
      some instruction.encoding.length := by
  cases encoded with
  | plain position layout length =>
      simp [Opcode.length?, layout, length, Nat.add_comm 1]
  | widened position layout length =>
      simp [Opcode.wideLength?, layout, length, Nat.add_comm 2]
  | range layout | cases layout => cases layout.symm.trans fixed

/-- Renumbering the constants of an instruction does not change its length. -/
theorem Renumbered.length_eq (renumbered : old.Renumbered oldSymbols newSymbols new)
    (oldEncoded : old.Encoded) (newEncoded : new.Encoded) :
    old.encoding.length = new.encoding.length := by
  have same := renumbered.literals
  unfold Instruction.literals at same
  rw [← renumbered.opcode] at same
  cases layout : old.opcode.layout with
  | fixed shape =>
      have oldLength := oldEncoded.length_of_fixed layout
      have newLength := newEncoded.length_of_fixed (renumbered.opcode ▸ layout)
      rw [renumbered.opcode, renumbered.wide] at oldLength
      exact Option.some.inj (oldLength.symm.trans newLength)
  | tableSwitch | lookupSwitch | widePrefix =>
      rw [layout] at same
      exact congrArg List.length same

end Instruction

namespace Consecutive

theorem encoded {start : Nat} {instructions : List Instruction}
    (h : Consecutive start instructions) :
    ∀ instruction ∈ instructions, instruction.Encoded := by
  intro instruction mem
  obtain ⟨_, _, read⟩ := h.exists_decode mem
  exact Instruction.encoded_of_decode read

/-- As long as the instructions are equivalent, they are at the same positions. -/
theorem forall₂_equivalent_iff {oldSymbols newSymbols : Symbols} {start : Nat}
    {olds news : List Instruction} (old : Consecutive start olds) (new : Consecutive start news) :
    List.Forall₂ (fun first second => first.equivalent oldSymbols newSymbols second = true)
        olds news ↔
      List.Forall₂ (fun first second => first.position = second.position ∧
        first.Renumbered oldSymbols newSymbols second) olds news := by
  induction olds generalizing start news with
  | nil => simp only [List.forall₂_nil_left_iff]
  | cons first olds ih =>
      cases news with
      | nil => simp only [List.forall₂_nil_right_iff, reduceCtorEq]
      | cons second news =>
          have samePosition : first.position = second.position :=
            old.position_head.trans new.position_head.symm
          have firstEncoded := old.encoded first List.mem_cons_self
          have secondEncoded := new.encoded second List.mem_cons_self
          rw [List.forall₂_cons, List.forall₂_cons, and_iff_right samePosition,
            Instruction.equivalent_iff firstEncoded secondEncoded]
          apply and_congr_right
          intro renumbered
          have sameNext : second.next = first.next := by
            rw [Instruction.next, Instruction.next, samePosition,
              renumbered.length_eq firstEncoded secondEncoded]
          exact ih old.tail (sameNext ▸ new.tail)

end Consecutive

/-- A walk reaches the end if the codes can be read up to their ends, and the instructions are
equivalent one for one. -/
theorem walk_eq_equivalent_iff {oldSymbols newSymbols : Symbols} {oldFault newFault : Option Fault}
    {olds news : List Instruction} :
    walk oldSymbols newSymbols oldFault newFault olds news = .equivalent ↔
      (oldFault = none ∧ newFault = none) ∧
        List.Forall₂ (fun first second => first.equivalent oldSymbols newSymbols second = true)
          olds news := by
  induction olds generalizing news with
  | nil =>
      cases news with
      | nil => cases oldFault <;> cases newFault <;> simp [walk, WalkEnd.atEnd]
      | cons second news => cases oldFault <;> simp [walk, WalkEnd.atEnd]
  | cons first olds ih =>
      cases news with
      | nil => cases newFault <;> simp [walk, WalkEnd.atEnd]
      | cons second news =>
          rw [walk, List.forall₂_cons]
          split
          · next same => rw [ih, and_iff_right same]
          · next different => simp [different]

/-- Two bodies can be compared if their frames are the same and the lengths of their codes are
admitted. -/
theorem Mode.obstacle?_eq_none_iff {mode : Mode} {old new : Body} :
    mode.obstacle? old new = none ↔
      old.maxStack = new.maxStack ∧ old.maxLocals = new.maxLocals ∧
        old.entrySlots = new.entrySlots ∧
        mode.admitsLengths old.code.length new.code.length = true := by
  unfold Mode.obstacle?
  split_ifs <;> simp_all

namespace Version

theorem walk_eq_equivalent_iff {old new : Version} :
    old.walk new = .equivalent ↔
      old.listing.isComplete = true ∧ new.listing.isComplete = true ∧
        List.Forall₂ (fun first second =>
            first.equivalent old.symbols new.symbols second = true)
          old.listing.instructions new.listing.instructions := by
  rw [walk, HotSwap.walk_eq_equivalent_iff, and_assoc, Listing.isComplete, Listing.isComplete,
    Option.isNone_iff_eq_none, Option.isNone_iff_eq_none]

theorem walk_eq_equivalent_iff_renumbered {old new : Version} :
    old.walk new = .equivalent ↔
      old.listing.isComplete = true ∧ new.listing.isComplete = true ∧
        List.Forall₂ (fun first second => first.position = second.position ∧
            first.Renumbered old.symbols new.symbols second)
          old.listing.instructions new.listing.instructions := by
  rw [walk_eq_equivalent_iff,
    old.consecutive_listing.forall₂_equivalent_iff new.consecutive_listing]

/-- Two versions are equivalent if their frames are the same, their codes are equally long and can
be read up to their ends, and the instructions at each position are the same with their constants
renumbered. -/
theorem equivalent_iff_renumbered (old new : Version) :
    old.equivalent new = true ↔
      old.body.maxStack = new.body.maxStack ∧ old.body.maxLocals = new.body.maxLocals ∧
        old.body.entrySlots = new.body.entrySlots ∧
        old.body.code.length = new.body.code.length ∧
        old.listing.isComplete = true ∧ new.listing.isComplete = true ∧
        List.Forall₂ (fun first second => first.position = second.position ∧
            first.Renumbered old.symbols new.symbols second)
          old.listing.instructions new.listing.instructions := by
  simp only [equivalent, Bool.and_eq_true, Option.isNone_iff_eq_none, beq_iff_eq,
    Mode.obstacle?_eq_none_iff, Mode.admitsLengths, walk_eq_equivalent_iff_renumbered, and_assoc]

end Version

end HotSwap
