import HotSwap.FormatError

/-! # Reading from the front of a byte string

A reader takes what it needs from the front of the input and leaves the rest.
The primitive readers take a number of bytes; the others are put together from
these. -/

namespace HotSwap

/-- A computation that consumes bytes from the front of the input. -/
abbrev Reader := StateT Bytes (Except FormatError)

namespace Reader

/-- The next `count` bytes; if there are only fewer, `short` says what is wrong. -/
def take (count : Nat) (short : Nat → FormatError) : Reader Bytes := fun input =>
  let front := input.take count
  if front.length = count then .ok (front, input.drop count)
  else .error (short front.length)

/-- A field whose width is fixed by the format. -/
def fixed (width : Nat) : Reader Bytes := take width fun _ => .endOfInput

/-- A block of bytes whose length was found in the input. -/
def block (length : Nat) : Reader Bytes := take length (.shortBlock length)

/-- A big-endian number of the given width. -/
def number (width : Nat) : Reader Nat := do
  return Bytes.toNat (← fixed width)

/-- Put `count` further items in front of those read already, the last one first. -/
def more {α : Type} (item : Reader α) : Nat → List α → Reader (List α)
  | 0, found => return found.reverse
  | count + 1, found => do more item count ((← item) :: found)

/-- Exactly `count` items, one after the other. -/
def many {α : Type} (item : Reader α) (count : Nat) : Reader (List α) :=
  more item count []

end Reader

end HotSwap
