/-! # Arrays whose elements have widths

An element of a slot array takes up a number of slots, and is found under the
first of them, its offset. The offset of an element is the offset at which the
array starts plus the widths of the elements before it. Offsets never decrease, so a
look-up finds by bisection how many elements are not past the wanted offset, and takes
the last of these. -/

namespace HotSwap

/-- Elements with their offsets, and the offset that the next element gets. -/
structure SlotArray (α : Type) where
  entries : Array (Nat × α)
  next : Nat
  deriving Repr

namespace SlotArray

variable {α : Type}

/-- No elements; the first one is going to be at `start`. -/
def empty (start : Nat) : SlotArray α :=
  ⟨#[], start⟩

/-- The number of elements. -/
def size (slots : SlotArray α) : Nat :=
  slots.entries.size

/-- Add an element of the given width at the end. -/
def push (slots : SlotArray α) (width : Nat) (element : α) : SlotArray α :=
  ⟨slots.entries.push (slots.next, element), slots.next + width⟩

/-- The elements with their offsets, in order. -/
def toList (slots : SlotArray α) : List (Nat × α) :=
  slots.entries.toList

/-- The number of entries that are not past an offset, which is from `low` up to `high`. -/
def reach (entries : Array (Nat × α)) (offset low high : Nat) : Nat :=
  if low < high then
    let middle := (low + high) / 2
    match entries[middle]? with
    | none => low
    | some (found, _) =>
        if found ≤ offset then reach entries offset (middle + 1) high
        else reach entries offset low middle
  else low
termination_by high - low

/-- The element at an offset. There is none between the first slot of an element and the next. An
element without slots shares its offset with the one after it, and the last of them is found. -/
def get? (slots : SlotArray α) (offset : Nat) : Option α :=
  match slots.entries[reach slots.entries offset 0 slots.entries.size - 1]? with
  | none => none
  | some (found, element) => if found = offset then some element else none

/-- The elements and their offsets as text. -/
def render (slots : SlotArray α) (text : α → String) : String :=
  let item (entry : Nat × α) := s!"#{entry.1} = " ++ text entry.2
  "[" ++ ", ".intercalate (slots.toList.map item) ++ "]"

theorem toList_empty (start : Nat) : (empty start : SlotArray α).toList = [] := rfl

theorem toList_push (slots : SlotArray α) (width : Nat) (element : α) :
    (slots.push width element).toList = slots.toList ++ [(slots.next, element)] := by
  simp [push, toList]

end SlotArray

end HotSwap
