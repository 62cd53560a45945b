import HotSwap.Proofs.Exactness

/-! # Typed values one after another

Values are written without their formats, so only who knows the formats can read them. The bytes
then show where each value ends: a word has its width, and a sequence its count. What was written is
read back, nothing else is read, and what was cut off anywhere is not read. -/

namespace HotSwap

namespace Reader

variable {α β : Type} {reader : Reader α} {bytes : Bytes} {value : α}

/-- Whether a reader can only fail because the input ends. -/
def FailsAtEnd (reader : Reader α) : Prop :=
  ∀ (input : Bytes) (cause : FormatError), reader.run input = .error cause → cause = .endOfInput

theorem failsAtEnd_pure (value : α) : FailsAtEnd (pure value) := by
  rintro input cause ⟨⟩

theorem FailsAtEnd.bind {next : α → Reader β} (first : FailsAtEnd reader)
    (second : ∀ value, FailsAtEnd (next value)) : FailsAtEnd (reader >>= next) := by
  intro input cause failed
  rw [StateT.run_bind] at failed
  cases read : reader.run input with
  | error found =>
      rw [read] at failed
      cases failed
      exact first input cause read
  | ok found =>
      rw [read] at failed
      exact second found.1 found.2 cause failed

theorem failsAtEnd_fixed (width : Nat) : FailsAtEnd (fixed width) := by
  intro input cause failed
  unfold fixed take StateT.run at failed
  dsimp only at failed
  split at failed
  · cases failed
  · cases failed
    rfl

theorem failsAtEnd_word (word : Word) : FailsAtEnd word.read := by
  have number : FailsAtEnd (number word.width) :=
    (failsAtEnd_fixed word.width).bind fun _ => failsAtEnd_pure _
  exact number.bind fun _ => failsAtEnd_pure _

theorem FailsAtEnd.more (fails : FailsAtEnd reader) (count : Nat) (found : List α) :
    FailsAtEnd (more reader count found) := by
  induction count generalizing found with
  | zero => exact failsAtEnd_pure _
  | succ count ih => exact fails.bind fun value => ih (value :: found)

theorem FailsAtEnd.counted (fails : FailsAtEnd reader) : FailsAtEnd (counted reader) :=
  (failsAtEnd_word .u16).bind fun count => fails.more count.toNat []

variable {encode : α → Bytes} {fits : α → Prop}

/-- The bytes of a value do not begin with those of another one, so a reader that takes just these
bytes fails if some of them are missing. -/
theorem Exact.exists_error_of_cut (exact_ : Exact reader encode fits)
    (reads : ∀ value, fits value → Reads reader (encode value) value) (fitting : fits value)
    (cut : bytes <+: encode value) (shorter : bytes ≠ encode value) :
    ∃ cause, reader.run bytes = .error cause := by
  cases read : reader.run bytes with
  | error cause => exact ⟨cause, rfl⟩
  | ok found =>
      obtain ⟨other, left⟩ := found
      obtain ⟨fittingOther, eq⟩ := exact_ bytes left other read
      obtain ⟨missing, whole⟩ := cut
      have all := reads value fitting []
      -- what is missing would be left over, but nothing is
      rw [List.append_nil, ← whole, eq, List.append_assoc, reads other fittingOther] at all
      have nothing : left ++ missing = [] := congrArg Prod.snd (Except.ok.inj all)
      obtain ⟨-, rfl⟩ := List.append_eq_nil_iff.mp nothing
      rw [List.append_nil] at whole
      exact absurd whole shorter

end Reader

open Reader (Reads Exact FailsAtEnd)

namespace Format

/-- Whether the number of items can be written for each sequence in a value. -/
def Fits : (format : Format) → format.Value → Prop
  | word _, _ => True
  | sequence item, values => values.length ≤ 65535 ∧ ∀ value ∈ values, item.Fits value

theorem reads (format : Format) (value : format.Value) (fits : format.Fits value) :
    Reads format.read (format.encode value) value := by
  induction format with
  | word kind => exact Reader.reads_word kind value
  | sequence item ih =>
      exact Reader.reads_counted fits.1 fun inner mem => ih inner (fits.2 inner mem)

theorem exact_read (format : Format) : Exact format.read format.encode format.Fits := by
  induction format with
  | word kind => exact fun _ _ _ read => ⟨trivial, Reader.of_word read⟩
  | sequence item ih => exact ih.counted

theorem failsAtEnd_read (format : Format) : FailsAtEnd format.read := by
  induction format with
  | word kind => exact Reader.failsAtEnd_word kind
  | sequence item ih => exact ih.counted

end Format

/-- A value and what type it is of. -/
structure TypedValue where
  format : Format
  value : format.Value

namespace TypedValue

def Fits (typed : TypedValue) : Prop :=
  typed.format.Fits typed.value

def encode (typed : TypedValue) : Bytes :=
  typed.format.encode typed.value

/-- The bytes of some values, one after another. -/
def encodeEach (values : List TypedValue) : Bytes :=
  values.flatMap encode

/-- Take a value of each of the given formats from the front of the input. -/
def readEach : List Format → Reader (List TypedValue)
  | [] => return []
  | format :: later => do
      let value ← format.read
      return ⟨format, value⟩ :: (← readEach later)

/-- Whether values have the given formats, and can be written. -/
structure FitEach (formats : List Format) (values : List TypedValue) : Prop where
  formats : values.map format = formats
  fits : ∀ typed ∈ values, typed.Fits

variable {values : List TypedValue} {formats : List Format}

theorem encodeEach_cons (typed : TypedValue) (later : List TypedValue) :
    encodeEach (typed :: later) = typed.encode ++ encodeEach later :=
  List.flatMap_cons

theorem reads_readEach (fits : FitEach formats values) :
    Reads (readEach formats) (encodeEach values) values := by
  obtain ⟨rfl, fits⟩ := fits
  induction values with
  | nil => exact Reader.reads_pure _
  | cons typed later ih =>
      rw [List.forall_mem_cons] at fits
      have first := typed.format.reads typed.value fits.1
      rw [encodeEach_cons]
      exact first.bind ((ih fits.2).map _)

theorem exact_readEach (formats : List Format) :
    Exact (readEach formats) encodeEach (FitEach formats) := by
  induction formats with
  | nil =>
      rintro input rest values ⟨⟩
      exact ⟨⟨rfl, List.forall_mem_nil _⟩, rfl⟩
  | cons format later ih =>
      intro input rest values read
      obtain ⟨value, middle, readFirst, read⟩ := Reader.run_bind_eq_ok_iff.mp read
      obtain ⟨others, _, readLater, read⟩ := Reader.run_bind_eq_ok_iff.mp read
      cases read
      obtain ⟨fitsFirst, rfl⟩ := format.exact_read _ _ _ readFirst
      obtain ⟨⟨same, fitsLater⟩, rfl⟩ := ih _ _ _ readLater
      refine ⟨⟨?_, List.forall_mem_cons.mpr ⟨fitsFirst, fitsLater⟩⟩, ?_⟩
      · rw [List.map_cons, same]
      · rw [encodeEach_cons, List.append_assoc]
        rfl

theorem failsAtEnd_readEach (formats : List Format) : FailsAtEnd (readEach formats) := by
  induction formats with
  | nil => exact Reader.failsAtEnd_pure _
  | cons format later ih =>
      exact format.failsAtEnd_read.bind fun _ => ih.bind fun _ => Reader.failsAtEnd_pure _

/-- Values are read from an input if and only if they have the wanted formats, all their counts can
be written, and the input begins with their bytes; what follows these is left. If bytes are missing
at the end of what was written, reading fails because the input ends. -/
theorem readEach_eq_ok_iff :
    (∀ (formats : List Format) (input rest : Bytes) (values : List TypedValue),
      (readEach formats).run input = .ok (values, rest) ↔
        FitEach formats values ∧ input = encodeEach values ++ rest) ∧
    ∀ (formats : List Format) (values : List TypedValue) (bytes : Bytes),
      FitEach formats values → bytes <+: encodeEach values → bytes ≠ encodeEach values →
        (readEach formats).run bytes = .error .endOfInput := by
  constructor
  · intro formats input rest values
    constructor
    · exact exact_readEach formats input rest values
    · rintro ⟨fits, rfl⟩
      exact reads_readEach fits rest
  · intro formats values bytes fits cut shorter
    obtain ⟨cause, failed⟩ := (exact_readEach formats).exists_error_of_cut
      (fun _ fitting => reads_readEach fitting) fits cut shorter
    rw [failed, failsAtEnd_readEach formats bytes cause failed]

/-- A negative number, a number that is none, and a sequence of sequences, one of them empty. -/
theorem readEach_eq_ok_of_nested :
    let formats : List Format := [.word .i16, .word .f32, .sequence (.sequence (.word .i8))]
    let values : List TypedValue := [⟨.word .i16, (-2 : Int16)⟩,
      ⟨.word .f32, (0x7FC00001 : UInt32)⟩,
      ⟨.sequence (.sequence (.word .i8)), [[], [(-1 : Int8), (5 : Int8)]]⟩]
    let bytes : Bytes := [0xFF, 0xFE, 0x7F, 0xC0, 0, 1, 0, 2, 0, 0, 0, 2, 0xFF, 5]
    FitEach formats values ∧ (readEach formats).run (bytes ++ [7]) = .ok (values, [7]) ∧
      (readEach formats).run (bytes.take 13) = .error .endOfInput := by
  intro formats values bytes
  have fits : FitEach formats values := by
    refine ⟨rfl, ?_⟩
    simp [values, Fits, Format.Fits]
  have written : bytes = encodeEach values := by decide +kernel
  refine ⟨fits, (readEach_eq_ok_iff.1 _ _ _ _).mpr ⟨fits, by rw [written]⟩, ?_⟩
  apply readEach_eq_ok_iff.2 formats values _ fits
  · rw [← written]
    exact List.take_prefix 13 bytes
  · rw [← written]
    decide

end TypedValue

end HotSwap
