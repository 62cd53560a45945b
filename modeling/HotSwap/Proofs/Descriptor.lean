import HotSwap.Descriptor.Parser
import Mathlib.Data.List.Basic

/-! # Descriptors are read as they are written

The text of a type shows where it ends: the name of a class goes up to the first semicolon, an
array is followed by its elements, and no type begins with the parenthesis that closes the
parameters. So a reader takes the text of what it gives and nothing else, whatever follows, and
it gives everything that has a text. -/

namespace HotSwap

/-- A list is split where a test fails for the first time. -/
theorem takeWhile_dropWhile_iff {α : Type} {test : α → Bool} {list front rest : List α} {stop : α} :
    list.takeWhile test = front ∧ list.dropWhile test = stop :: rest ↔
      (∀ item ∈ front, test item = true) ∧ test stop = false ∧ list = front ++ stop :: rest := by
  constructor
  · rintro ⟨rfl, dropped⟩
    refine ⟨List.all_eq_true.mp List.all_takeWhile, ?_, ?_⟩
    · have fails := List.head?_dropWhile_not test list
      rw [dropped] at fails
      exact fails
    · rw [← dropped, List.takeWhile_append_dropWhile]
  · rintro ⟨passes, fails, rfl⟩
    have stops : ¬test stop = true := by simp [fails]
    rw [List.takeWhile_append_of_pos passes, List.dropWhile_append_of_pos passes,
      List.takeWhile_cons_of_neg stops, List.dropWhile_cons_of_neg stops, List.append_nil]
    exact ⟨rfl, rfl⟩

section Readers

variable {text rest : List Char}

theorem BaseType.parse_eq_ok_iff {type : BaseType} :
    parse text = (.ok type, rest) ↔ text = type.letter :: rest := by
  cases text with
  | nil => simp [parse]
  | cons letter after =>
      rw [parse]
      cases found : ofLetter? letter with
      | none =>
          have other : letter ≠ type.letter := by
            rintro rfl
            cases found.symm.trans type.ofLetter?_letter
          simp [other]
      | some read =>
          obtain rfl := letter_of_ofLetter? found
          have same : read.letter = type.letter ↔ read = type := by
            refine ⟨fun letters => ?_, congrArg letter⟩
            rw [letters, type.ofLetter?_letter] at found
            exact (Option.some.inj found).symm
          simp [same]

namespace ElementType

variable {element : ElementType}

theorem parseObject_eq_ok_iff :
    parseObject text = (.ok element, rest) ↔
      ∃ name, element = .object name ∧ element.WellNamed ∧ text = name.toList ++ ';' :: rest := by
  constructor
  · intro read
    unfold parseObject at read
    dsimp only at read
    split at read
    · cases read
    · next stop after dropped =>
      split at read
      · cases read
      · next named =>
        cases read
        obtain ⟨passes, stops, eq⟩ := takeWhile_dropWhile_iff.mp ⟨rfl, dropped⟩
        obtain rfl : stop = ';' := by simpa using stops
        refine ⟨_, rfl, ⟨?_, ?_⟩, ?_⟩
        · simpa using named
        · intro ends
          rw [String.toList_ofList] at ends
          simpa using passes ';' ends
        · rw [String.toList_ofList]
          exact eq
  · rintro ⟨name, rfl, ⟨named, plain⟩, rfl⟩
    have passes : ∀ c ∈ name.toList, decide (c ≠ ';') = true := by
      intro c mem
      rw [decide_eq_true_eq]
      rintro rfl
      exact plain mem
    have stops : decide (';' ≠ ';') = false := rfl
    obtain ⟨taken, dropped⟩ := takeWhile_dropWhile_iff.mpr ⟨passes, stops, rfl⟩
    unfold parseObject
    dsimp only
    rw [taken, dropped]
    simp [named]

theorem parse_eq_ok_iff :
    parse text = (.ok element, rest) ↔ element.WellNamed ∧ text = element.render ++ rest := by
  unfold parse
  split
  · next after =>
    rw [parseObject_eq_ok_iff]
    cases element with
    | base type =>
        have other : 'L' ≠ type.letter := by cases type <;> decide
        simp [render, other]
    | object name => simp [render]
  · next notObject =>
    cases element with
    | base type =>
        have base : BaseType.parse text = (.ok type, rest) ↔ text = (base type).render ++ rest :=
          BaseType.parse_eq_ok_iff
        rw [← base]
        split
        · next found after read => simp [read, WellNamed]
        · next cause after read => simp [read]
    | object name =>
        have other : text ≠ (object name).render ++ rest := fun same => notObject _ same
        split <;> simp [other]

/-- No element type begins like an array, the end of the parameters or the lack of a result. -/
theorem exists_render_eq_cons (element : ElementType) :
    ∃ first more, element.render = first :: more ∧ first ≠ '[' ∧ first ≠ ')' ∧ first ≠ 'V' := by
  cases element with
  | base type => cases type <;> exact ⟨_, _, rfl, by decide⟩
  | object name => exact ⟨_, _, rfl, by decide⟩

end ElementType

instance : DecidablePred ElementType.WellNamed := fun element =>
  match element with
  | .base _ => isTrue trivial
  | .object name => inferInstanceAs (Decidable (name.toList ≠ [] ∧ ';' ∉ name.toList))

/-- Whether a type that holds a class has a name for it that can be read. -/
def FieldType.WellNamed (type : FieldType) : Prop :=
  type.element.WellNamed

instance : DecidablePred FieldType.WellNamed := fun type =>
  inferInstanceAs (Decidable type.element.WellNamed)

namespace FieldType

variable {type : FieldType}

/-- The brackets in front of an element type are those of the dimensions. -/
theorem parse_eq_ok_iff :
    parse text = (.ok type, rest) ↔ type.WellNamed ∧ text = type.render ++ rest := by
  obtain ⟨first, more, written, notBracket, -⟩ := type.element.exists_render_eq_cons
  have stops : decide (first = '[') = false := decide_eq_false notBracket
  unfold parse
  dsimp only
  constructor
  · intro read
    split at read
    · next element after readElement =>
      cases read
      obtain ⟨named, eq⟩ := ElementType.parse_eq_ok_iff.mp readElement
      refine ⟨named, ?_⟩
      dsimp only at written
      rw [written, List.cons_append] at eq
      obtain ⟨brackets, -, whole⟩ := takeWhile_dropWhile_iff.mp ⟨rfl, eq⟩
      have same : text.takeWhile (· = '[') =
          List.replicate (text.takeWhile (· = '[')).length '[' := by
        rw [List.eq_replicate_iff]
        exact ⟨rfl, fun c mem => of_decide_eq_true (brackets c mem)⟩
      rw [render, List.append_assoc, ← same, written]
      exact whole
    · cases read
  · rintro ⟨named, rfl⟩
    have brackets : ∀ c ∈ List.replicate type.dimensions '[', decide (c = '[') = true := by
      intro c mem
      exact decide_eq_true (List.eq_of_mem_replicate mem)
    have split : type.render ++ rest =
        List.replicate type.dimensions '[' ++ first :: (more ++ rest) := by
      rw [render, written, List.append_assoc, List.cons_append]
    obtain ⟨taken, dropped⟩ := takeWhile_dropWhile_iff.mpr ⟨brackets, stops, split⟩
    have read : ElementType.parse (first :: (more ++ rest)) = (.ok type.element, rest) := by
      rw [ElementType.parse_eq_ok_iff, written]
      exact ⟨named, rfl⟩
    rw [taken, dropped, read]
    simp

/-- No type begins like the end of the parameters or the lack of a result. -/
theorem exists_render_eq_cons (type : FieldType) :
    ∃ first more, type.render = first :: more ∧ first ≠ ')' ∧ first ≠ 'V' := by
  obtain ⟨first, more, written, -, others⟩ := type.element.exists_render_eq_cons
  cases brackets : type.dimensions with
  | zero =>
      refine ⟨first, more, ?_, others⟩
      rw [render, brackets, written]
      rfl
  | succ dimensions =>
      refine ⟨'[', List.replicate dimensions '[' ++ type.element.render, ?_, by decide⟩
      rw [render, brackets]
      rfl

end FieldType

/-- Whether the classes among the parameters and the result have names that can be read. -/
structure MethodType.WellNamed (type : MethodType) : Prop where
  parameters : ∀ parameter ∈ type.parameters, parameter.WellNamed
  result : ∀ result ∈ type.result, result.WellNamed

instance : DecidablePred MethodType.WellNamed := fun type =>
  decidable_of_iff ((∀ parameter ∈ type.parameters, parameter.WellNamed) ∧
      ∀ result ∈ type.result, result.WellNamed)
    ⟨fun both => ⟨both.1, both.2⟩, fun named => ⟨named.parameters, named.result⟩⟩

namespace MethodType

variable {type : MethodType}

theorem parseParameters_of_type {found : List FieldType} {parameter : FieldType}
    {after : List Char} (read : FieldType.parse text = (.ok parameter, after)) :
    parseParameters found text = parseParameters (parameter :: found) after := by
  obtain ⟨-, eq⟩ := FieldType.parse_eq_ok_iff.mp read
  obtain ⟨first, more, written, notEnd, -⟩ := parameter.exists_render_eq_cons
  rw [written, List.cons_append] at eq
  subst eq
  have goesOn : ∀ closed, first :: (more ++ after) ≠ ')' :: closed := by
    rintro closed ⟨⟩
    exact notEnd rfl
  rw [parseParameters.eq_3 _ _ (List.cons_ne_nil _ _) goesOn]
  split
  · next again _ readAgain =>
    cases readAgain.symm.trans read
    rfl
  · next readAgain => cases readAgain.symm.trans read

/-- Behind the parameters that were read already, the others are read one by one. -/
theorem parseParameters_eq_ok_iff {found parameters : List FieldType} :
    parseParameters found text = (.ok parameters, rest) ↔
      ∃ later, parameters = found.reverse ++ later ∧
        (∀ parameter ∈ later, parameter.WellNamed) ∧
          text = later.flatMap FieldType.render ++ ')' :: rest := by
  constructor
  · intro read
    fun_induction parseParameters found text with
    | case1 found => cases read
    | case2 found after =>
        cases read
        exact ⟨[], by simp⟩
    | case3 found text notEmpty notEnd parameter after readFirst ih =>
        obtain ⟨named, rfl⟩ := FieldType.parse_eq_ok_iff.mp readFirst
        obtain ⟨later, rfl, allNamed, rfl⟩ := ih read
        refine ⟨parameter :: later, ?_, List.forall_mem_cons.mpr ⟨named, allNamed⟩, ?_⟩
        · rw [List.reverse_cons, List.append_assoc, List.singleton_append]
        · rw [List.flatMap_cons, List.append_assoc]
    | case4 => cases read
  · rintro ⟨later, rfl, named, rfl⟩
    induction later generalizing found with
    | nil => simp [parseParameters]
    | cons parameter later ih =>
        rw [List.forall_mem_cons] at named
        have read : FieldType.parse ((parameter :: later).flatMap FieldType.render ++ ')' :: rest) =
            (.ok parameter, later.flatMap FieldType.render ++ ')' :: rest) := by
          rw [FieldType.parse_eq_ok_iff, List.flatMap_cons, List.append_assoc]
          exact ⟨named.1, rfl⟩
        rw [parseParameters_of_type read, ih named.2, List.reverse_cons, List.append_assoc,
          List.singleton_append]

/-- The text of a result. -/
def renderResult : Option FieldType → List Char
  | none => ['V']
  | some result => result.render

theorem render_eq (type : MethodType) :
    type.render =
      '(' :: (type.parameters.flatMap FieldType.render ++ ')' :: renderResult type.result) := by
  obtain ⟨parameters, result⟩ := type
  cases result <;> rfl

theorem parseResult_eq_ok_iff {result : Option FieldType} :
    parseResult text = (.ok result, rest) ↔
      (∀ type ∈ result, type.WellNamed) ∧ text = renderResult result ++ rest := by
  unfold parseResult
  split
  · next after =>
    cases result with
    | none => simp [renderResult]
    | some type =>
        obtain ⟨first, more, written, -, notVoid⟩ := type.exists_render_eq_cons
        simp [renderResult, written, notVoid.symm]
  · next notVoid =>
    cases result with
    | none =>
        have other : text ≠ renderResult none ++ rest := fun same => notVoid _ same
        split <;> simp [other]
    | some type =>
        have read : FieldType.parse text = (.ok type, rest) ↔
            type.WellNamed ∧ text = renderResult (some type) ++ rest :=
          FieldType.parse_eq_ok_iff
        simp only [Option.mem_some_iff, forall_eq', ← read]
        split
        · next found after readFound => simp [readFound]
        · next cause after readFailed => simp [readFailed]

theorem parse_eq_ok_iff :
    parse text = (.ok type, rest) ↔ type.WellNamed ∧ text = type.render ++ rest := by
  rw [render_eq]
  constructor
  · intro read
    unfold parse at read
    split at read
    · next text =>
      split at read
      · cases read
      · next parameters after readParameters =>
        split at read
        · next result last readResult =>
          cases read
          obtain ⟨_, rfl, named, rfl⟩ := parseParameters_eq_ok_iff.mp readParameters
          obtain ⟨resultNamed, rfl⟩ := parseResult_eq_ok_iff.mp readResult
          exact ⟨⟨named, resultNamed⟩, by simp⟩
        · cases read
    · cases read
  · rintro ⟨⟨named, resultNamed⟩, rfl⟩
    have readParameters : parseParameters []
        (type.parameters.flatMap FieldType.render ++ ')' :: (renderResult type.result ++ rest)) =
          (.ok type.parameters, renderResult type.result ++ rest) :=
      parseParameters_eq_ok_iff.mpr ⟨type.parameters, rfl, named, rfl⟩
    have readResult : parseResult (renderResult type.result ++ rest) = (.ok type.result, rest) :=
      parseResult_eq_ok_iff.mpr ⟨resultNamed, rfl⟩
    rw [List.cons_append, List.append_assoc, List.cons_append, parse, readParameters]
    dsimp only
    rw [readResult]

/-- The name of a class can have what begins an array or ends the parameters. -/
example : parse "([[L)([;J)V+".toList =
    (.ok ⟨[⟨2, .object ")(["⟩, ⟨0, .base .long⟩], none⟩, ['+']) :=
  parse_eq_ok_iff.mpr (by decide +kernel)

end MethodType

end Readers

namespace Parse

variable {α : Type} {parse : List Char → Parse α} {text : String}

/-- A whole text is read if nothing of it is left. -/
theorem whole_eq_ok_iff {value : α} :
    whole parse text = .ok value ↔ parse text.toList = (.ok value, []) := by
  unfold whole
  split
  · next read => simp [read]
  · next read => simp [read]
  · next read => simp [read]

theorem exists_whole_eq_error_iff :
    (∃ cause, whole parse text = .error cause) ↔ ¬∃ value, whole parse text = .ok value := by
  cases whole parse text <;> simp

end Parse

/-- A reader takes from the front of a text the text of a type whose classes have names, and it
takes exactly this, whatever follows. A whole text is read as a type if it is the text of such a
type, and every other text is refused. -/
theorem descriptor_eq_ok_iff :
    (∀ (text rest : List Char) (type : FieldType),
      FieldType.parse text = (.ok type, rest) ↔ type.WellNamed ∧ text = type.render ++ rest) ∧
    (∀ (text rest : List Char) (type : MethodType),
      MethodType.parse text = (.ok type, rest) ↔ type.WellNamed ∧ text = type.render ++ rest) ∧
    ∀ text : String,
      (∀ type, FieldType.ofText text = .ok type ↔ type.WellNamed ∧ text.toList = type.render) ∧
      (∀ type, MethodType.ofText text = .ok type ↔ type.WellNamed ∧ text.toList = type.render) ∧
      ((∃ cause, FieldType.ofText text = .error cause) ↔
        ¬∃ type : FieldType, type.WellNamed ∧ text.toList = type.render) ∧
      ((∃ cause, MethodType.ofText text = .error cause) ↔
        ¬∃ type : MethodType, type.WellNamed ∧ text.toList = type.render) := by
  have field (text : String) (type : FieldType) :
      FieldType.ofText text = .ok type ↔ type.WellNamed ∧ text.toList = type.render := by
    rw [FieldType.ofText, Parse.whole_eq_ok_iff, FieldType.parse_eq_ok_iff, List.append_nil]
  have method (text : String) (type : MethodType) :
      MethodType.ofText text = .ok type ↔ type.WellNamed ∧ text.toList = type.render := by
    rw [MethodType.ofText, Parse.whole_eq_ok_iff, MethodType.parse_eq_ok_iff, List.append_nil]
  refine ⟨fun text rest type => FieldType.parse_eq_ok_iff,
    fun text rest type => MethodType.parse_eq_ok_iff, fun text => ⟨field text, method text, ?_, ?_⟩⟩
  · simp only [← field]
    exact Parse.exists_whole_eq_error_iff
  · simp only [← method]
    exact Parse.exists_whole_eq_error_iff

end HotSwap
