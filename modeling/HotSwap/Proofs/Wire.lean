import HotSwap.Wire
import Mathlib.Data.List.Basic

/-! # What is written is read back

A reader reads a value from some bytes if it takes just these bytes and gives the value,
whatever comes after them. Readers that are put one after another read what was written one
after another. -/

namespace HotSwap

variable {α β : Type}

namespace Reader

/-- Whether a reader takes the given bytes from the front of any input, and gives a value. -/
def Reads (reader : Reader α) (bytes : Bytes) (value : α) : Prop :=
  ∀ rest, reader.run (bytes ++ rest) = .ok (value, rest)

variable {reader : Reader α} {bytes moreBytes : Bytes} {value : α}

theorem reads_pure (value : α) : Reads (pure value) [] value := fun _ => rfl

/-- A step that can fail but takes no bytes. -/
theorem reads_lift {result : Except FormatError α} (ok : result = .ok value) :
    Reads (liftM result) [] value := by
  intro rest
  rw [ok]
  rfl

theorem Reads.bind {next : α → Reader β} {result : β} (first : Reads reader bytes value)
    (second : Reads (next value) moreBytes result) :
    Reads (reader >>= next) (bytes ++ moreBytes) result := by
  intro rest
  rw [List.append_assoc, StateT.run_bind, first]
  exact second rest

/-- What comes last may take no bytes. -/
theorem Reads.bind_nil {next : α → Reader β} {result : β} (first : Reads reader bytes value)
    (second : Reads (next value) [] result) : Reads (reader >>= next) bytes result := by
  have whole := Reads.bind first second
  rwa [List.append_nil] at whole

theorem Reads.map (first : Reads reader bytes value) (build : α → β) :
    Reads (reader >>= fun value => pure (build value)) bytes (build value) :=
  first.bind_nil (reads_pure _)

theorem reads_take {count : Nat} (short : Nat → FormatError) (length : bytes.length = count) :
    Reads (take count short) bytes bytes := by
  subst length
  intro rest
  have front : (bytes ++ rest).take bytes.length = bytes := List.take_left
  simp only [take, StateT.run, front, List.drop_left, if_true]

theorem reads_fixed {width : Nat} (length : bytes.length = width) :
    Reads (fixed width) bytes bytes :=
  reads_take _ length

theorem reads_block {count : Nat} (length : bytes.length = count) :
    Reads (block count) bytes bytes :=
  reads_take _ length

theorem reads_word (word : Word) (value : word.Value) :
    Reads word.read (word.encode value) value := by
  have number : Reads (number word.width) (word.encode value)
      (Bytes.toNat (word.encode value)) :=
    (reads_fixed (Bytes.length_ofNat _ _)).map Bytes.toNat
  have whole := number.map word.ofBits
  rwa [Word.encode, Bytes.toNat_ofNat, Nat.mod_eq_of_lt (word.bits_lt value),
    word.ofBits_bits] at whole

/-- A number that fits into a word is read as it was written. -/
theorem reads_ofNat (word : Word) {number : Nat} (fits : number < Bytes.capacity word.width) :
    Reads word.read (Bytes.ofNat word.width number) (word.ofBits number) := by
  have whole := reads_word word (word.ofBits number)
  rwa [Word.encode, word.bits_ofBits, Nat.mod_eq_of_lt fits] at whole

/-- What is counted comes after a word for its number, if the word holds the number. -/
theorem reads_count {number : Nat} {next : UInt16 → Reader β} {result : β}
    (short : number ≤ 65535)
    (later : ∀ count, count.toNat = number → Reads (next count) bytes result) :
    Reads (u16 >>= next) (Bytes.ofNat 2 number ++ bytes) result := by
  have count : Reads u16 (Bytes.ofNat 2 number) (UInt16.ofNat number) :=
    reads_ofNat .u16 (Nat.lt_succ_of_le short)
  exact count.bind (later _ (UInt16.toNat_ofNat_of_lt' (Nat.lt_succ_of_le short)))

variable {encode : α → Bytes} {items : List α}

theorem reads_more (each : ∀ item ∈ items, Reads reader (encode item) item) (found : List α) :
    Reads (more reader items.length found) (items.flatMap encode) (found.reverse ++ items) := by
  induction items generalizing found with
  | nil =>
      rw [List.append_nil]
      exact reads_pure _
  | cons item items ih =>
      rw [List.forall_mem_cons] at each
      have later := ih each.2 (item :: found)
      rw [List.reverse_cons, List.append_assoc, List.singleton_append] at later
      exact each.1.bind later

theorem reads_many (each : ∀ item ∈ items, Reads reader (encode item) item) :
    Reads (many reader items.length) (items.flatMap encode) items :=
  reads_more each []

/-- A list is read after its count, if the count holds its length. -/
theorem reads_counted (short : items.length ≤ 65535)
    (each : ∀ item ∈ items, Reads reader (encode item) item) :
    Reads (counted reader) (Bytes.counted encode items) items := by
  refine reads_count short ?_
  intro count eq
  rw [eq]
  exact reads_many each

end Reader

end HotSwap
