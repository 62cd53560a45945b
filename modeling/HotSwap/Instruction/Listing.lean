import HotSwap.Instruction.Decoding

/-! # The instructions of a code

A cursor stands at a position of a code and reads one instruction after the other.
A listing holds all that it reads: instructions that follow each other without a gap,
and the fault that stopped it, if it did not reach the end. -/

namespace HotSwap

/-- A position in a code, and the code from there on. -/
structure Cursor where
  position : Nat
  rest : Bytes
  deriving DecidableEq, Repr

namespace Cursor

/-- The front of a code. -/
def start (code : Bytes) : Cursor :=
  ⟨0, code⟩

def atEnd (cursor : Cursor) : Bool :=
  cursor.rest.isEmpty

/-- Read one instruction. After a fault the cursor is at the end. -/
def next (cursor : Cursor) : Option (Except Fault Instruction × Cursor) :=
  if cursor.atEnd then none
  else
    match Instruction.decode cursor.position cursor.rest with
    | .ok instruction =>
        some (.ok instruction,
          ⟨instruction.next, cursor.rest.drop instruction.encoding.length⟩)
    | .error fault => some (.error fault, ⟨cursor.position + cursor.rest.length, []⟩)

theorem length_next_lt {cursor after : Cursor} {instruction : Instruction}
    (h : cursor.next = some (.ok instruction, after)) :
    after.rest.length < cursor.rest.length := by
  unfold next at h
  split at h
  · simp at h
  · split at h
    · next found =>
      have := Instruction.length_encoding found
      simp only [Option.some.injEq, Prod.mk.injEq, Except.ok.injEq] at h
      rw [← h.2, h.1, List.length_drop]
      rw [h.1] at this
      omega
    · simp at h

end Cursor

/-- The instructions read from a cursor, the fault after them, and where the cursor ends up. -/
structure Listing where
  instructions : List Instruction
  fault : Option Fault
  stop : Cursor
  deriving DecidableEq, Repr

namespace Cursor

/-- Read on after some instructions, of which the last one comes first. -/
def listAfter (found : List Instruction) (cursor : Cursor) : Listing :=
  match _h : cursor.next with
  | none => ⟨found.reverse, none, cursor⟩
  | some (.error fault, stop) => ⟨found.reverse, some fault, stop⟩
  | some (.ok instruction, after) => listAfter (instruction :: found) after
termination_by cursor.rest.length
decreasing_by exact length_next_lt _h

def list (cursor : Cursor) : Listing :=
  cursor.listAfter []

end Cursor

/-- The listing of a whole code. -/
def Listing.ofCode (code : Bytes) : Listing :=
  (Cursor.start code).list

/-- Whether the code has instructions up to its end. -/
def Listing.isComplete (listing : Listing) : Bool :=
  listing.fault.isNone

end HotSwap
