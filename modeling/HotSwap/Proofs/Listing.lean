import HotSwap.Proofs.Decoding
import HotSwap.Redefinition.Version

/-! # Instructions one after the other

A listing follows the code from one instruction to the next. The relation `Lists` says so
step by step; whatever holds of all listings is shown by induction on it. The code of a
complete listing can be followed by other code, whose instructions then come after. -/

namespace HotSwap

namespace Cursor

/-- A listing is what is found from a cursor on. -/
inductive Lists : Cursor → Listing → Prop
  | atEnd (position : Nat) : Lists ⟨position, []⟩ ⟨[], none, ⟨position, []⟩⟩
  | fault {position : Nat} {input : Bytes} {fault : Fault} (nonempty : input ≠ [])
      (read : Instruction.decode position input = .error fault) :
      Lists ⟨position, input⟩ ⟨[], some fault, ⟨position + input.length, []⟩⟩
  | step {position : Nat} {input : Bytes} {instruction : Instruction} {listing : Listing}
      (read : Instruction.decode position input = .ok instruction)
      (tail : Lists ⟨instruction.next, input.drop instruction.encoding.length⟩ listing) :
      Lists ⟨position, input⟩
        ⟨instruction :: listing.instructions, listing.fault, listing.stop⟩

theorem next_of_ok {position : Nat} {input : Bytes} {instruction : Instruction}
    (read : Instruction.decode position input = .ok instruction) :
    next ⟨position, input⟩ = some (.ok instruction,
      ⟨instruction.next, input.drop instruction.encoding.length⟩) := by
  have length := Instruction.length_encoding read
  have nonempty : input.isEmpty = false := by
    cases input with
    | nil =>
        rw [List.length_nil] at length
        omega
    | cons => rfl
  simp [next, atEnd, nonempty, read]

theorem next_of_error {position : Nat} {input : Bytes} {fault : Fault} (nonempty : input ≠ [])
    (read : Instruction.decode position input = .error fault) :
    next ⟨position, input⟩ = some (.error fault, ⟨position + input.length, []⟩) := by
  simp [next, atEnd, nonempty, read]

/-- A listing is found one instruction at a time, after what was found before. -/
theorem listAfter_of_lists {cursor : Cursor} {listing : Listing} (h : Lists cursor listing)
    (found : List Instruction) :
    cursor.listAfter found =
      ⟨found.reverse ++ listing.instructions, listing.fault, listing.stop⟩ := by
  induction h generalizing found with
  | atEnd position =>
      rw [listAfter]
      split
      · simp
      · next eq => cases eq
      · next eq => cases eq
  | fault nonempty read =>
      have eq := next_of_error nonempty read
      rw [listAfter]
      split
      · next eq' => cases eq.symm.trans eq'
      · next eq' => cases eq.symm.trans eq'; simp
      · next eq' => cases eq.symm.trans eq'
  | step read tail ih =>
      have eq := next_of_ok read
      rw [listAfter]
      split
      · next eq' => cases eq.symm.trans eq'
      · next eq' => cases eq.symm.trans eq'
      · next eq' =>
        cases eq.symm.trans eq'
        rw [ih]
        simp

theorem exists_lists (cursor : Cursor) : ∃ listing, Lists cursor listing := by
  obtain ⟨position, input⟩ := cursor
  induction length : input.length using Nat.strongRecOn generalizing position input with
  | _ size ih =>
    subst length
    by_cases empty : input = []
    · subst empty
      exact ⟨_, .atEnd position⟩
    · cases read : Instruction.decode position input with
      | error fault => exact ⟨_, .fault empty read⟩
      | ok instruction =>
          have bound := Instruction.length_encoding read
          obtain ⟨listing, tail⟩ := ih _ (by rw [List.length_drop]; omega) instruction.next
            (input.drop instruction.encoding.length) rfl
          exact ⟨_, .step read tail⟩

/-- The listing of a cursor is the one that the relation describes. -/
theorem lists_iff {cursor : Cursor} {listing : Listing} :
    Lists cursor listing ↔ cursor.list = listing := by
  have complete {listing : Listing} (h : Lists cursor listing) : cursor.list = listing := by
    rw [list, listAfter_of_lists h]
    rfl
  constructor
  · exact complete
  · rintro rfl
    obtain ⟨listing, h⟩ := exists_lists cursor
    rw [complete h]
    exact h

theorem lists_list (cursor : Cursor) : Lists cursor cursor.list :=
  lists_iff.mpr rfl

/-- The bytes of the instructions of a complete listing make up the code. -/
theorem Lists.flatMap_encoding {cursor : Cursor} {listing : Listing} (h : Lists cursor listing)
    (complete : listing.fault = none) :
    listing.instructions.flatMap (·.encoding) = cursor.rest := by
  induction h with
  | atEnd => rfl
  | fault => cases complete
  | step read tail ih =>
      rw [List.flatMap_cons, ih complete]
      exact Instruction.encoding_append_drop read

/-- Code behind the code of a complete listing is listed from the position after it. -/
theorem Lists.append {cursor : Cursor} {front back : Listing} {input : Bytes}
    (h : Lists cursor front) (complete : front.fault = none)
    (h' : Lists ⟨cursor.position + cursor.rest.length, input⟩ back) :
    Lists ⟨cursor.position, cursor.rest ++ input⟩
      ⟨front.instructions ++ back.instructions, back.fault, back.stop⟩ := by
  induction h with
  | atEnd position => exact h'
  | fault => cases complete
  | @step position code instruction listing read tail ih =>
      have length := Instruction.length_encoding read
      have next : instruction.next = position + instruction.encoding.length := by
        rw [Instruction.next, Instruction.position_decode read]
      have rest : (code ++ input).drop instruction.encoding.length =
          code.drop instruction.encoding.length ++ input :=
        List.drop_append_of_le_length length.2
      have reached : instruction.next + (code.drop instruction.encoding.length).length =
          position + code.length := by
        rw [next, List.length_drop]
        omega
      dsimp only at h'
      rw [← reached] at h'
      have later := ih complete h'
      dsimp only at later
      rw [← rest] at later
      exact .step (Instruction.decode_append read input) later

end Cursor

/-- Instructions that were read from a position on, each one right after the one before it. -/
inductive Consecutive : Nat → List Instruction → Prop
  | nil (position : Nat) : Consecutive position []
  | cons {position : Nat} {input : Bytes} {instruction : Instruction} {rest : List Instruction}
      (read : Instruction.decode position input = .ok instruction)
      (tail : Consecutive instruction.next rest) : Consecutive position (instruction :: rest)

namespace Consecutive

theorem of_lists {cursor : Cursor} {listing : Listing} (h : cursor.Lists listing) :
    Consecutive cursor.position listing.instructions := by
  induction h with
  | atEnd position => exact .nil position
  | fault => exact .nil _
  | step read tail ih => exact .cons read ih

variable {position : Nat} {instruction : Instruction} {rest : List Instruction}

theorem position_head (h : Consecutive position (instruction :: rest)) :
    instruction.position = position := by
  cases h with
  | cons read tail => exact Instruction.position_decode read

theorem lt_next (h : Consecutive position (instruction :: rest)) :
    instruction.position < instruction.next := by
  cases h with
  | cons read tail =>
      have := (Instruction.length_encoding read).1
      rw [Instruction.next]
      omega

theorem next_head (h : Consecutive position (instruction :: rest)) :
    instruction.next = position + instruction.padding + instruction.bareLength := by
  cases h with
  | cons read tail =>
      rw [Instruction.next, Instruction.position_decode read, Instruction.length_encoding_eq read,
        Nat.add_assoc]

theorem tail (h : Consecutive position (instruction :: rest)) :
    Consecutive instruction.next rest := by
  cases h with
  | cons read tail => exact tail

theorem le_position {instructions : List Instruction} (h : Consecutive position instructions)
    {instruction : Instruction} (mem : instruction ∈ instructions) :
    position ≤ instruction.position := by
  induction h with
  | nil => cases mem
  | @cons position input first rest read tail ih =>
      have start := Instruction.position_decode read
      cases mem with
      | head => exact Nat.le_of_eq start.symm
      | tail _ mem =>
          have := ih mem
          rw [Instruction.next] at this
          omega

/-- Every instruction is before those that follow it. -/
theorem position_lt (h : Consecutive position (instruction :: rest)) {later : Instruction}
    (mem : later ∈ rest) : instruction.position < later.position :=
  Nat.lt_of_lt_of_le h.lt_next (h.tail.le_position mem)

theorem drop_append {front back : List Instruction} (h : Consecutive position (front ++ back)) :
    ∃ start, position ≤ start ∧ Consecutive start back := by
  induction front generalizing position with
  | nil => exact ⟨position, Nat.le_refl position, h⟩
  | cons first front ih =>
      obtain ⟨start, le, rest⟩ := ih h.tail
      have := h.lt_next
      rw [h.position_head] at this
      exact ⟨start, by omega, rest⟩

theorem position_lt_of_append {front back : List Instruction}
    (h : Consecutive position (front ++ instruction :: back)) {earlier : Instruction}
    (mem : earlier ∈ front) : earlier.position < instruction.position := by
  induction front generalizing position with
  | nil => cases mem
  | cons first front ih =>
      rcases List.mem_cons.mp mem with rfl | mem
      · exact h.position_lt (List.mem_append_right _ List.mem_cons_self)
      · exact ih h.tail mem

theorem exists_decode {instructions : List Instruction} (h : Consecutive position instructions)
    {instruction : Instruction} (mem : instruction ∈ instructions) :
    ∃ start input, Instruction.decode start input = .ok instruction := by
  induction h with
  | nil => cases mem
  | cons read tail ih =>
      rcases List.mem_cons.mp mem with rfl | mem
      · exact ⟨_, _, read⟩
      · exact ih mem

end Consecutive

namespace Version

theorem consecutive_listing (version : Version) :
    Consecutive 0 version.listing.instructions :=
  .of_lists (Cursor.lists_list (.start version.body.code))

end Version

end HotSwap
