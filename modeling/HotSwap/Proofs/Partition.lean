import Mathlib.Data.List.Chain
import HotSwap.Proofs.Bounds
import HotSwap.Proofs.Listing

/-! # Code is cut into instructions

A cursor is asked for the next instruction until it has none. For every code this comes to an end,
and what was given is known: instructions that make up a front of the code, one after the other from
its first byte on, and nothing else if this is the whole code, else one fault at its end. Every
instruction has its operands in its own bytes. -/

namespace HotSwap

namespace Cursor

/-- What a cursor gives when it is asked again and again, until it has nothing more to give. -/
inductive Yields : Cursor → List (Except Fault Instruction) → Cursor → Prop
  | done {cursor : Cursor} (nothing : cursor.next = none) : Yields cursor [] cursor
  | more {cursor after stop : Cursor} {item : Except Fault Instruction}
      {items : List (Except Fault Instruction)} (given : cursor.next = some (item, after))
      (tail : Yields after items stop) : Yields cursor (item :: items) stop

/-- A cursor has no choice in what it gives. -/
theorem Yields.unique {cursor stop stop' : Cursor} {items items' : List (Except Fault Instruction)}
    (first : cursor.Yields items stop) (second : cursor.Yields items' stop') :
    items = items' ∧ stop = stop' := by
  induction first generalizing items' with
  | done nothing =>
      cases second with
      | done => exact ⟨rfl, rfl⟩
      | more given => cases nothing.symm.trans given
  | more given tail ih =>
      cases second with
      | done nothing => cases nothing.symm.trans given
      | more given' tail' =>
          cases given.symm.trans given'
          obtain ⟨rfl, same⟩ := ih tail'
          exact ⟨rfl, same⟩

end Cursor

/-- The instructions of a listing, and the fault after them. -/
def Listing.items (listing : Listing) : List (Except Fault Instruction) :=
  listing.instructions.map .ok ++ listing.fault.toList.map .error

/-- The bytes of the instructions of a listing. -/
def Listing.covered (listing : Listing) : Bytes :=
  listing.instructions.flatMap (·.encoding)

namespace Cursor.Lists

variable {cursor : Cursor} {listing : Listing}

theorem next_stop (h : cursor.Lists listing) :
    listing.stop.atEnd = true ∧ listing.stop.next = none := by
  induction h with
  | atEnd | fault => exact ⟨rfl, rfl⟩
  | step read tail ih => exact ih

/-- A cursor gives the items of its listing. -/
theorem yields (h : cursor.Lists listing) : cursor.Yields listing.items listing.stop := by
  induction h with
  | atEnd position => exact .done rfl
  | fault nonempty read => exact .more (next_of_error nonempty read) (.done rfl)
  | step read tail ih => exact .more (next_of_ok read) ih

/-- Only a fault leaves some code over, and it stands where that begins. -/
theorem exists_rest (h : cursor.Lists listing) :
    ∃ rest, cursor.rest = listing.covered ++ rest ∧ (listing.fault = none → rest = []) ∧
      ∀ fault, listing.fault = some fault →
        fault.position = cursor.position + listing.covered.length ∧ rest ≠ [] := by
  induction h with
  | atEnd position => exact ⟨[], rfl, fun _ => rfl, fun _ absent => by cases absent⟩
  | @fault position input fault nonempty read =>
      refine ⟨input, rfl, fun absent => (by cases absent), fun found same => ?_⟩
      cases same
      exact ⟨Instruction.position_fault read, nonempty⟩
  | @step position input instruction listing read tail ih =>
      obtain ⟨rest, covers, whole, broken⟩ := ih
      refine ⟨rest, ?_, whole, fun fault found => ⟨?_, (broken fault found).2⟩⟩
      · calc
          input = instruction.encoding ++ input.drop instruction.encoding.length :=
            (Instruction.encoding_append_drop read).symm
          _ = instruction.encoding ++ (listing.covered ++ rest) := by rw [← covers]
          _ = _ := by rw [← List.append_assoc]; rfl
      · rw [(broken fault found).1, Instruction.next, Instruction.position_decode read,
          Nat.add_assoc]
        simp [Listing.covered]

end Cursor.Lists

namespace Consecutive

variable {position : Nat} {instructions : List Instruction}

theorem position_eq (h : Consecutive position instructions) {first : Instruction}
    (mem : first ∈ instructions.head?) : first.position = position := by
  cases h with
  | nil => cases mem
  | cons read tail =>
      cases mem
      exact Instruction.position_decode read

theorem isChain (h : Consecutive position instructions) :
    instructions.IsChain fun earlier later => later.position = earlier.next := by
  induction h with
  | nil => exact .nil
  | cons read tail ih =>
      rw [List.isChain_cons]
      exact ⟨fun later mem => tail.position_eq mem, ih⟩

end Consecutive

/-- An instruction is not the prefix of another one, has its operands in its own bytes, and its
table is as long as the numbers in it say. -/
structure Instruction.Closed (instruction : Instruction) : Prop where
  notWide : instruction.opcode ≠ .wide
  operands : Operands.read? instruction.opcode instruction.wide instruction.position
    instruction.encoding = some instruction.operands
  range : ∀ otherwise low high offsets,
    instruction.operands = .tableSwitch otherwise low high offsets →
      (offsets.length : Int) = high - low + 1 ∧ 0 < offsets.length
  cases : ∀ otherwise cases, instruction.operands = .lookupSwitch otherwise cases →
    Bytes.intAt? instruction.encoding (1 + tablePadding instruction.position + 4) =
        some (cases.length : Int) ∧
      instruction.encoding.length =
        1 + tablePadding instruction.position + 8 + 8 * cases.length

theorem Instruction.closed_of_decode {position : Nat} {input : Bytes} {instruction : Instruction}
    (read : decode position input = .ok instruction) : instruction.Closed where
  notWide := (encoded_of_decode read).opcode_ne_wide
  operands := (encoded_of_decode read).read?_eq
  range _ low high offsets operands := by
    obtain ⟨ordered, length⟩ := length_offsets read operands
    omega
  cases otherwise cases operands := by
    rw [position_decode read]
    exact length_cases read operands

namespace Listing

/-- A cursor at the front of a code comes to an end, and gives the items of the listing and nothing
else. Their instructions begin at zero, follow each other without a gap, and make up a front of the
code. They are the whole code if there is no fault, and a fault stands right behind them. -/
theorem ofCode_partitions (code : Bytes) :
    let listing := ofCode code
    (∀ items stop, (Cursor.start code).Yields items stop ↔
        items = listing.items ∧ stop = listing.stop) ∧
      listing.stop.atEnd = true ∧ listing.stop.next = none ∧
      (∀ first ∈ listing.instructions.head?, first.position = 0) ∧
      listing.instructions.IsChain (fun earlier later => later.position = earlier.next) ∧
      listing.covered <+: code ∧
      (listing.fault = none → listing.covered = code) ∧
      (∀ fault, listing.fault = some fault →
        fault.position = listing.covered.length ∧ listing.covered.length < code.length) ∧
      ∀ instruction ∈ listing.instructions, instruction.Closed := by
  intro listing
  have lists : (Cursor.start code).Lists listing := Cursor.lists_list (.start code)
  have consecutive : Consecutive 0 listing.instructions := .of_lists lists
  obtain ⟨rest, covers, whole, broken⟩ := lists.exists_rest
  change code = _ at covers
  refine ⟨fun items stop => ⟨fun given => given.unique lists.yields, ?_⟩, lists.next_stop.1,
    lists.next_stop.2, fun first mem => consecutive.position_eq mem, consecutive.isChain,
    ⟨rest, covers.symm⟩, fun absent => ?_, fun fault found => ?_, fun instruction mem => ?_⟩
  · rintro ⟨rfl, rfl⟩
    exact lists.yields
  · rw [covers, whole absent, List.append_nil]
  · obtain ⟨position, nonempty⟩ := broken fault found
    have size : code.length = listing.covered.length + rest.length := by
      rw [← List.length_append, ← covers]
    have left := List.length_pos_iff.mpr nonempty
    refine ⟨?_, by omega⟩
    rw [position]
    exact Nat.zero_add _
  · obtain ⟨position, input, read⟩ := consecutive.exists_decode mem
    exact Instruction.closed_of_decode read

end Listing

end HotSwap
