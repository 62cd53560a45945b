import HotSwap.Proofs.Wire
import Mathlib.Data.List.Forall2

/-! # What was read was written there

A reader that succeeds has taken some bytes from the front of the input. If the reader is
exact, these bytes are how its value is written. A reader that makes something of what it
finds is not exact, but it still takes the bytes of what it found. -/

namespace HotSwap

variable {α β : Type}

theorem forall_of_forall₂ {relation : β → α → Prop} {good : α → Prop} {codes : List β}
    {values : List α} (related : List.Forall₂ relation codes values)
    (each : ∀ {code value}, relation code value → good value) : ∀ value ∈ values, good value := by
  induction related with
  | nil => exact List.forall_mem_nil _
  | cons first _ ih => exact List.forall_mem_cons.mpr ⟨each first, ih⟩

namespace Reader

variable {reader : Reader α} {input rest : Bytes} {value : α}

/-- A reader made of two succeeds if both do, the second one on what the first one left. -/
theorem run_bind_eq_ok_iff {next : α → Reader β} {result : β} :
    (reader >>= next).run input = .ok (result, rest) ↔
      ∃ value middle, reader.run input = .ok (value, middle) ∧
        (next value).run middle = .ok (result, rest) := by
  rw [StateT.run_bind]
  cases reader.run input with
  | error cause => simp [bind, Except.bind]
  | ok found =>
      obtain ⟨value, middle⟩ := found
      simp [bind, Except.bind]

theorem run_lift_eq_ok_iff {result : Except FormatError α} :
    (liftM result : Reader α).run input = .ok (value, rest) ↔
      result = .ok value ∧ input = rest := by
  cases result with
  | error cause =>
      constructor
      · intro read
        cases read
      · rintro ⟨⟨⟩, -⟩
  | ok found =>
      constructor
      · intro read
        cases read
        exact ⟨rfl, rfl⟩
      · rintro ⟨⟨⟩, rfl⟩
        rfl

/-- A reader whose result is seen to be good succeeds with something good. -/
theorem exists_of_map_decide {good : α × Bytes → Prop} [DecidablePred good]
    (seen : (reader.run input).map (fun found => decide (good found)) = .ok true) :
    ∃ value rest, reader.run input = .ok (value, rest) ∧ good (value, rest) := by
  cases run : reader.run input with
  | error cause =>
      rw [run] at seen
      cases seen
  | ok found =>
      rw [run] at seen
      exact ⟨found.1, found.2, rfl, of_decide_eq_true (Except.ok.inj seen)⟩

/-- Whether the bytes that a reader takes are how something is written that means its value. -/
def Takes (reader : Reader α) (encode : β → Bytes) (means : β → α → Prop) : Prop :=
  ∀ (input rest : Bytes) (value : α), reader.run input = .ok (value, rest) →
    ∃ found, means found value ∧ input = encode found ++ rest

/-- Whether the bytes that a reader takes are how its value is written. -/
def Exact (reader : Reader α) (encode : α → Bytes) (fits : α → Prop) : Prop :=
  ∀ (input rest : Bytes) (value : α), reader.run input = .ok (value, rest) →
    fits value ∧ input = encode value ++ rest

/-- The bytes that are taken are as many as were asked for. -/
theorem of_take {count : Nat} {short : Nat → FormatError} {bytes : Bytes}
    (read : (take count short).run input = .ok (bytes, rest)) :
    bytes.length = count ∧ input = bytes ++ rest := by
  unfold take StateT.run at read
  dsimp only at read
  split at read
  · next enough =>
    cases read
    exact ⟨enough, (List.take_append_drop count input).symm⟩
  · cases read

theorem of_fixed {width : Nat} {bytes : Bytes}
    (read : (fixed width).run input = .ok (bytes, rest)) :
    bytes.length = width ∧ input = bytes ++ rest :=
  of_take read

theorem of_block {length : Nat} {bytes : Bytes}
    (read : (block length).run input = .ok (bytes, rest)) :
    bytes.length = length ∧ input = bytes ++ rest :=
  of_take read

theorem of_word {word : Word} {value : word.Value}
    (read : word.read.run input = .ok (value, rest)) : input = word.encode value ++ rest := by
  obtain ⟨number, _, readNumber, read⟩ := run_bind_eq_ok_iff.mp read
  obtain ⟨bytes, _, readBytes, readNumber⟩ := run_bind_eq_ok_iff.mp readNumber
  cases read
  cases readNumber
  obtain ⟨width, rfl⟩ := of_fixed readBytes
  rw [Word.encode, word.bits_ofBits, Nat.mod_eq_of_lt (width ▸ Bytes.toNat_lt bytes), ← width,
    Bytes.ofNat_toNat]

theorem of_u8 {value : UInt8} (read : u8.run input = .ok (value, rest)) :
    input = Word.u8.encode value ++ rest :=
  of_word read

theorem of_u16 {value : UInt16} (read : u16.run input = .ok (value, rest)) :
    input = Word.u16.encode value ++ rest :=
  of_word read

theorem of_u32 {value : UInt32} (read : u32.run input = .ok (value, rest)) :
    input = Word.u32.encode value ++ rest :=
  of_word read

/-- A count or a length was written as the number that it is. -/
theorem of_count {count : UInt16} (read : u16.run input = .ok (count, rest)) :
    input = Bytes.ofNat 2 count.toNat ++ rest :=
  of_u16 read

theorem of_length {length : UInt32} (read : u32.run input = .ok (length, rest)) :
    input = Bytes.ofNat 4 length.toNat ++ rest :=
  of_u32 read

variable {encode : β → Bytes} {means : β → α → Prop}

/-- Items that were read one after another were written one after another. -/
theorem Takes.more (takes : Takes reader encode means) {count : Nat} {found values : List α}
    (read : (more reader count found).run input = .ok (values, rest)) :
    ∃ later codes, values = found.reverse ++ later ∧ later.length = count ∧
      List.Forall₂ means codes later ∧ input = codes.flatMap encode ++ rest := by
  induction count generalizing input found with
  | zero =>
      cases read
      exact ⟨[], [], (List.append_nil _).symm, rfl, .nil, rfl⟩
  | succ count ih =>
      obtain ⟨value, middle, readFirst, readLater⟩ := run_bind_eq_ok_iff.mp read
      obtain ⟨code, meansFirst, rfl⟩ := takes _ _ _ readFirst
      obtain ⟨later, codes, rfl, length, meansLater, rfl⟩ := ih readLater
      refine ⟨value :: later, code :: codes, ?_, congrArg _ length, .cons meansFirst meansLater, ?_⟩
      · rw [List.reverse_cons, List.append_assoc, List.singleton_append]
      · rw [List.flatMap_cons, List.append_assoc]

/-- A list that was read after its count was written after its count, which holds its length. -/
theorem Takes.counted (takes : Takes reader encode means) :
    Takes (counted reader) (Bytes.counted encode) fun codes values =>
      codes.length ≤ 65535 ∧ List.Forall₂ means codes values := by
  intro input rest values read
  obtain ⟨count, middle, readCount, read⟩ := run_bind_eq_ok_iff.mp read
  obtain ⟨later, codes, rfl, length, related, rfl⟩ := takes.more read
  have sameLength : codes.length = count.toNat := related.length_eq.trans length
  refine ⟨codes, ⟨?_, related⟩, ?_⟩
  · rw [sameLength]
    exact Nat.le_of_lt_succ count.toNat_lt
  · rw [of_count readCount, Bytes.counted, sameLength, List.append_assoc]

variable {fits : α → Prop} {encodeValue : α → Bytes}

theorem Exact.takes (exact : Exact reader encodeValue fits) :
    Takes reader encodeValue fun found value => found = value ∧ fits value := by
  intro input rest value read
  obtain ⟨fitting, eq⟩ := exact input rest value read
  exact ⟨value, ⟨rfl, fitting⟩, eq⟩

theorem Exact.counted (exact : Exact reader encodeValue fits) :
    Exact (counted reader) (Bytes.counted encodeValue) fun values =>
      values.length ≤ 65535 ∧ ∀ value ∈ values, fits value := by
  intro input rest values read
  obtain ⟨codes, ⟨short, related⟩, eq⟩ := exact.takes.counted input rest values read
  have same : codes = values := List.forall₂_eq_eq_eq ▸ related.imp fun _ _ both => both.1
  subst same
  refine ⟨⟨short, ?_⟩, eq⟩
  intro value mem
  exact (List.forall₂_same.mp related value mem).2

end Reader

end HotSwap
