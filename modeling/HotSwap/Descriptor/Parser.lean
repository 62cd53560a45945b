import HotSwap.Descriptor

/-! # Reading descriptors

A descriptor is read from the front of a text. Each reader gives back what it
left of the text, also when it fails, so that the place of a failure is known. -/

namespace HotSwap

/-- Why a text is not a descriptor. -/
inductive DescriptorError
  /-- The text ends where a type is expected. -/
  | missingType
  /-- No type begins with this character. -/
  | invalidType (found : Char)
  /-- The text ends within the name of a class. -/
  | missingTerminator (name : String)
  /-- The name of a class has no characters. -/
  | emptyName
  /-- A method descriptor does not begin with its parameters. -/
  | missingParameters
  /-- The text ends among the parameters of a method. -/
  | unclosedParameters
  /-- The text goes on after the descriptor. -/
  | leftover (found : Char)
  deriving DecidableEq, Repr

/-- The wording of a cause. -/
def DescriptorError.message : DescriptorError → String
  | .missingType => "Missing base type character"
  | .invalidType found => s!"Invalid base type character '{found}'"
  | .missingTerminator name => s!"Missing terminator for 'L{name}'"
  | .emptyName => "Empty class name"
  | .missingParameters => "Expected method descriptor to start with `(`"
  | .unclosedParameters => "Missing `)` in method descriptor"
  | .leftover found => s!"Unexpected leftover input '{found}'"

/-- What was read from the front of a text, and the rest of it. -/
abbrev Parse (α : Type) := Except DescriptorError α × List Char

namespace BaseType

/-- The primitive type with a letter. -/
def ofLetter? : Char → Option BaseType
  | 'B' => some byte
  | 'C' => some char
  | 'D' => some double
  | 'F' => some float
  | 'I' => some int
  | 'J' => some long
  | 'S' => some short
  | 'Z' => some boolean
  | _ => none

def parse : List Char → Parse BaseType
  | [] => (.error .missingType, [])
  | letter :: rest =>
      match ofLetter? letter with
      | some type => (.ok type, rest)
      | none => (.error (.invalidType letter), rest)

theorem ofLetter?_letter (type : BaseType) : ofLetter? type.letter = some type := by
  cases type <;> rfl

theorem letter_of_ofLetter? {letter : Char} {type : BaseType}
    (h : ofLetter? letter = some type) : letter = type.letter := by
  unfold ofLetter? at h
  split at h <;> simp at h <;> subst h <;> rfl

end BaseType

namespace ElementType

/-- The name of a class goes up to the first semicolon. -/
def parseObject (text : List Char) : Parse ElementType :=
  let name := text.takeWhile (· ≠ ';')
  match text.dropWhile (· ≠ ';') with
  | [] => (.error (.missingTerminator (String.ofList name)), [])
  | _ :: rest =>
      if name.isEmpty then (.error .emptyName, rest)
      else (.ok (.object (String.ofList name)), rest)

def parse : List Char → Parse ElementType
  | 'L' :: rest => parseObject rest
  | text =>
      match BaseType.parse text with
      | (.ok type, rest) => (.ok (.base type), rest)
      | (.error cause, rest) => (.error cause, rest)

theorem length_parse_lt {text rest : List Char} {type : ElementType}
    (h : parse text = (.ok type, rest)) : rest.length < text.length := by
  unfold parse at h
  split at h
  case h_1 after =>
    unfold parseObject at h
    have bound : (after.dropWhile (· ≠ ';')).length ≤ after.length :=
      (List.dropWhile_sublist _).length_le
    split at h
    case h_1 => simp at h
    case h_2 found =>
      rw [found] at bound
      dsimp only at h
      split at h
      · simp at h
      · simp only [Prod.mk.injEq] at h
        simp only [List.length_cons] at bound ⊢
        rw [← h.2]
        omega
  case h_2 =>
    cases text with
    | nil => simp [BaseType.parse] at h
    | cons letter after =>
        unfold BaseType.parse at h
        cases hl : BaseType.ofLetter? letter <;> simp_all

end ElementType

namespace FieldType

def parse (text : List Char) : Parse FieldType :=
  let dimensions := (text.takeWhile (· = '[')).length
  match ElementType.parse (text.dropWhile (· = '[')) with
  | (.ok element, rest) => (.ok ⟨dimensions, element⟩, rest)
  | (.error cause, rest) => (.error cause, rest)

/-- A type takes at least one character. -/
theorem length_parse_lt {text rest : List Char} {type : FieldType}
    (h : parse text = (.ok type, rest)) : rest.length < text.length := by
  unfold parse at h
  have bound : (text.dropWhile (· = '[')).length ≤ text.length :=
    (List.dropWhile_sublist _).length_le
  split at h
  case h_1 element after read =>
    have := ElementType.length_parse_lt read
    simp_all
    omega
  case h_2 => simp at h

end FieldType

namespace MethodType

/-- Read the parameters after some that are read already, of which the last one comes first. -/
def parseParameters (found : List FieldType) (text : List Char) : Parse (List FieldType) :=
  match text with
  | [] => (.error .unclosedParameters, [])
  | ')' :: rest => (.ok found.reverse, rest)
  | text =>
      match _h : FieldType.parse text with
      | (.ok type, rest) => parseParameters (type :: found) rest
      | (.error cause, rest) => (.error cause, rest)
termination_by text.length
decreasing_by exact FieldType.length_parse_lt _h

def parseResult : List Char → Parse (Option FieldType)
  | 'V' :: rest => (.ok none, rest)
  | text =>
      match FieldType.parse text with
      | (.ok type, rest) => (.ok (some type), rest)
      | (.error cause, rest) => (.error cause, rest)

def parse : List Char → Parse MethodType
  | '(' :: text =>
      match parseParameters [] text with
      | (.error cause, rest) => (.error cause, rest)
      | (.ok parameters, rest) =>
          match parseResult rest with
          | (.ok result, rest) => (.ok ⟨parameters, result⟩, rest)
          | (.error cause, rest) => (.error cause, rest)
  | text => (.error .missingParameters, text.tail)

end MethodType

/-- Read a text that has to be a descriptor as a whole. -/
def Parse.whole {α : Type} (parse : List Char → Parse α) (text : String) :
    Except DescriptorError α :=
  match parse text.toList with
  | (.error cause, _) => .error cause
  | (.ok value, []) => .ok value
  | (.ok _, found :: _) => .error (.leftover found)

def BaseType.ofText : String → Except DescriptorError BaseType :=
  Parse.whole BaseType.parse

def FieldType.ofText : String → Except DescriptorError FieldType :=
  Parse.whole FieldType.parse

def MethodType.ofText : String → Except DescriptorError MethodType :=
  Parse.whole MethodType.parse

end HotSwap
