import HotSwap.Proofs.Interchange
import HotSwap.Proofs.Resolution

/-! # Constants under other indices

If the entries of a pool are moved to other indices, and the indices in the entries and in
the code follow, then every index in the code stands for what it stood for before. No
comparison can tell the two versions apart. Entries that nothing refers to can be in the
new pool as well, and either pool can have resolved entries. -/

namespace HotSwap

variable {place : UInt16 → UInt16}

namespace Constant

/-- The same entry, with the indices of other entries replaced. The number of a bootstrap method is
not the index of an entry. -/
def reindex (place : UInt16 → UInt16) : Constant → Constant
  | utf8 text => utf8 text
  | integer value => integer value
  | float bits => float bits
  | long value => long value
  | double bits => double bits
  | classRef name => classRef (place name)
  | string text => string (place text)
  | member kind owner signature => member kind (place owner) (place signature)
  | nameAndType name descriptor => nameAndType (place name) (place descriptor)
  | methodHandle kind target => methodHandle kind (place target)
  | methodType descriptor => methodType (place descriptor)
  | dynamic bootstrap signature => dynamic bootstrap (place signature)
  | invokeDynamic bootstrap signature => invokeDynamic bootstrap (place signature)
  | moduleName name => moduleName (place name)
  | packageName name => packageName (place name)

end Constant

/-- Whether every index stands for the same thing at its new place. -/
structure Symbols.Follows (place : UInt16 → UInt16) (later symbols : Symbols) : Prop where
  className?_eq : ∀ index, later.className? (place index) = symbols.className? index
  member?_eq : ∀ index, later.member? (place index) = symbols.member? index
  loadable?_eq : ∀ index, later.loadable? (place index) = symbols.loadable? index

namespace ConstantPool

/-- Whether a pool has the entries of another one at other indices, and no entry at the new place of
an index without one. -/
def Reindexes (place : UInt16 → UInt16) (pool later : ConstantPool) : Prop :=
  ∀ index, later.get? (place index) = (pool.get? index).map (Constant.reindex place)

namespace Reindexes

variable {pool later : ConstantPool}

theorem text?_eq (moved : Reindexes place pool later) (index : UInt16) :
    later.text? (place index) = pool.text? index := by
  rw [text?, text?, moved index]
  cases pool.get? index with
  | none => rfl
  | some constant => cases constant <;> rfl

theorem nameAndType?_eq (moved : Reindexes place pool later) (index : UInt16) :
    later.nameAndType? (place index) = pool.nameAndType? index := by
  rw [nameAndType?, nameAndType?, moved index]
  cases pool.get? index with
  | none => rfl
  | some constant =>
      cases constant with
      | nameAndType name descriptor =>
          simp only [Option.map_some, Constant.reindex, moved.text?_eq]
      | _ => rfl

theorem className?_eq (moved : Reindexes place pool later) (sound : pool.Sound)
    (soundLater : later.Sound) (index : UInt16) :
    later.className? (place index) = pool.className? index := by
  rw [sound.className?_eq, soundLater.className?_eq, moved index]
  cases pool.get? index with
  | none => rfl
  | some constant =>
      cases constant with
      | classRef name => exact moved.text?_eq name
      | _ => rfl

theorem string?_eq (moved : Reindexes place pool later) (sound : pool.Sound)
    (soundLater : later.Sound) (index : UInt16) :
    later.string? (place index) = pool.string? index := by
  rw [sound.string?_eq, soundLater.string?_eq, moved index]
  cases pool.get? index with
  | none => rfl
  | some constant =>
      cases constant with
      | string text => exact moved.text?_eq text
      | _ => rfl

theorem member?_eq (moved : Reindexes place pool later) (sound : pool.Sound)
    (soundLater : later.Sound) (index : UInt16) :
    later.member? (place index) = pool.member? index := by
  rw [member?, member?, moved index]
  cases pool.get? index with
  | none => rfl
  | some constant =>
      cases constant with
      | member kind owner signature =>
          simp only [Option.map_some, Constant.reindex, moved.nameAndType?_eq,
            moved.className?_eq sound soundLater]
      | _ => rfl

theorem loadable?_eq (moved : Reindexes place pool later) (sound : pool.Sound)
    (soundLater : later.Sound) (index : UInt16) :
    later.loadable? (place index) = pool.loadable? index := by
  rw [loadable?, loadable?, moved index]
  cases pool.get? index with
  | none => rfl
  | some constant =>
      cases constant with
      | string | classRef | methodType | methodHandle =>
          simp only [Option.map_some, Constant.reindex, moved.text?_eq,
            moved.className?_eq sound soundLater, moved.string?_eq sound soundLater,
            moved.member?_eq sound soundLater]
      | _ => rfl

theorem follows (moved : Reindexes place pool later) (sound : pool.Sound)
    (soundLater : later.Sound) : later.symbols.Follows place pool.symbols :=
  ⟨moved.className?_eq sound soundLater, moved.member?_eq sound soundLater,
    moved.loadable?_eq sound soundLater⟩

end Reindexes

end ConstantPool

/-! ## Indices in the code -/

/-- The number of bytes of an index among the operands. It is in front of the others. -/
def Shape.indexSize : Shape → Nat
  | shortConstant => 1
  | classIndex | classDimensions | memberIndex | memberCount | callSite | constant
  | doubleConstant => 2
  | none | byte | short | elementType | slot | increment | jump | wideJump => 0

/-- The same operand bytes with the index among them replaced. -/
def Shape.reindex (place : UInt16 → UInt16) (shape : Shape) (bytes : Bytes) : Bytes :=
  match (shape.operands bytes).index? with
  | some index => Bytes.ofNat shape.indexSize (place index).toNat ++ bytes.drop shape.indexSize
  | Option.none => bytes

/-- The same operands with the index among them replaced. -/
def Operands.reindex (place : UInt16 → UInt16) : Operands → Operands
  | classRef index => classRef (place index)
  | arrayClass index dimensions => arrayClass (place index) dimensions
  | member index => member (place index)
  | interfaceMember index count => interfaceMember (place index) count
  | callSite index => callSite (place index)
  | constant index => constant (place index)
  | operands => operands

theorem Operands.index?_reindex (operands : Operands) :
    (operands.reindex place).index? = operands.index?.map place := by
  cases operands <;> rfl

namespace Instruction

/-- The encoding of an instruction with its index replaced. -/
def recode (place : UInt16 → UInt16) (instruction : Instruction) : Bytes :=
  match instruction.opcode.layout with
  | .fixed shape => instruction.encoding.take 1 ++ shape.reindex place (instruction.encoding.drop 1)
  | _ => instruction.encoding

/-- The same instruction with its index replaced. -/
def reindex (place : UInt16 → UInt16) (instruction : Instruction) : Instruction :=
  { instruction with
    encoding := instruction.recode place
    operands := instruction.operands.reindex place }

/-- Whether the new index of a constant fits into the one byte that `ldc` has for it. -/
def Fits (place : UInt16 → UInt16) (instruction : Instruction) : Prop :=
  instruction.opcode = .ldc → ∀ index ∈ instruction.operands.index?, (place index).toNat < 256

instance (place : UInt16 → UInt16) (instruction : Instruction) :
    Decidable (instruction.Fits place) :=
  -- given here so that not all words are tried
  have : Decidable (∀ index ∈ instruction.operands.index?, (place index).toNat < 256) :=
    Option.decidableForallMem _
  inferInstanceAs (Decidable (_ → _))

/-- Code that begins with the given instructions, with their indices replaced. What comes after
them stays as it is. -/
def recodeAll (place : UInt16 → UInt16) : List Instruction → Bytes → Bytes
  | [], code => code
  | instruction :: rest, code =>
      instruction.recode place ++ recodeAll place rest (code.drop instruction.encoding.length)

end Instruction

namespace Heading

/-- A heading is told by the bytes of the instruction alone. -/
theorem IsRead.take {position count : Nat} {input : Bytes} {heading : Heading}
    (h : IsRead position input heading) (enough : heading.length ≤ count) :
    IsRead position (input.take count) heading := by
  have keep {index : Nat} {byte : UInt8} (at_ : input[index]? = some byte)
      (lt : index < heading.length) : (input.take count)[index]? = some byte := by
    rw [List.getElem?_take_of_lt (by omega), at_]
  have keepInt {distance : Nat} {number : Int} (read : Bytes.intAt? input distance = some number)
      (le : distance + 4 ≤ heading.length) :
      Bytes.intAt? (input.take count) distance = some number := by
    rw [Bytes.intAt?_take (by omega), read]
  cases h with
  | plain first found layout => exact .plain (keep first (by simp only; omega)) found layout
  | widened first found layout second foundNext layoutNext widens =>
      exact .widened (keep first (by simp only; omega)) found layout
        (keep second (by simp only; omega)) foundNext layoutNext widens
  | range first found layout readLow readHigh ordered =>
      exact .range (keep first (by simp only; omega)) found layout
        (keepInt readLow (by simp only; omega)) (keepInt readHigh (by simp only; omega)) ordered
  | cases first found layout readCount natural =>
      exact .cases (keep first (by simp only; omega)) found layout
        (keepInt readCount (by simp only; omega)) natural

end Heading

namespace Shape

theorem length_reindex {shape : Shape} {bytes : Bytes} (enough : shape.indexSize ≤ bytes.length) :
    (shape.reindex place bytes).length = bytes.length := by
  unfold reindex
  split
  · rw [List.length_append, Bytes.length_ofNat, List.length_drop]
    omega
  · rfl

theorem indexSize_le_size (shape : Shape) : shape.indexSize ≤ shape.size := by
  cases shape <;> decide

/-- The index is replaced in the bytes, so it is read back. -/
theorem operands_reindex {shape : Shape} {bytes : Bytes} (length : bytes.length = shape.size)
    (fits : shape = .shortConstant → ∀ index ∈ (shape.operands bytes).index?,
      (place index).toNat < 256) :
    shape.operands (shape.reindex place bytes) = (shape.operands bytes).reindex place := by
  have wide (index : UInt16) : index.toNat < Bytes.capacity 2 := index.toNat_lt
  have front (index : UInt16) (rest : Bytes) :
      (Bytes.ofNat 2 index.toNat ++ rest).take 2 = Bytes.ofNat 2 index.toNat :=
    List.take_left' (Bytes.length_ofNat 2 _)
  have back (index : UInt16) (rest : Bytes) :
      (Bytes.ofNat 2 index.toNat ++ rest).drop 2 = rest :=
    List.drop_left' (Bytes.length_ofNat 2 _)
  cases shape with
  | shortConstant =>
      match bytes with
      | [first] =>
          have small : (place _).toNat < Bytes.capacity 1 := fits rfl _ rfl
          exact congrArg Operands.constant (Bytes.index_toNat_ofNat small)
  | classIndex | classDimensions | memberIndex | memberCount | callSite | constant
  | doubleConstant =>
      simp only [reindex, operands, Operands.index?, Operands.reindex, indexSize, front, back,
        Bytes.index_toNat_ofNat (wide _)]
  | none | byte | short | elementType | slot | increment | jump | wideJump => rfl

/-- Operands that can be widened have no index. -/
theorem reindex_of_wideSize? {shape : Shape} {size : Nat} (widens : shape.wideSize? = some size)
    (place : UInt16 → UInt16) :
    (∀ bytes, shape.reindex place bytes = bytes) ∧
      ∀ bytes, (shape.operands bytes).reindex place = shape.operands bytes := by
  cases shape with
  | slot | increment => exact ⟨fun _ => rfl, fun _ => rfl⟩
  | _ => cases widens

theorem literals_reindex (shape : Shape) (bytes : Bytes) :
    shape.literals (shape.reindex place bytes) = shape.literals bytes := by
  cases shape with
  | classDimensions =>
      exact List.drop_left' (Bytes.length_ofNat 2 _)
  | _ => rfl

end Shape

/-- Only one opcode has the index of a constant in one byte. -/
theorem Opcode.eq_ldc_of_layout {opcode : Opcode} (layout : opcode.layout = .fixed .shortConstant) :
    opcode = ldc := by
  have only : ∀ code : Fin 202, (mk code).layout = .fixed .shortConstant → mk code = ldc := by
    decide +kernel
  exact only opcode.code layout

namespace Instruction

variable {position : Nat} {input : Bytes} {instruction : Instruction}

/-- An instruction is read from its encoding alone. -/
theorem decode_encoding (read : decode position input = .ok instruction) :
    decode position instruction.encoding = .ok instruction := by
  obtain ⟨heading, isRead, enough, rfl⟩ := decode_eq_ok_iff.mp read
  refine decode_eq_ok_iff.mpr ⟨heading, isRead.take (Nat.le_refl _), ?_, ?_⟩
  · rw [List.length_take]
    omega
  · rw [List.take_take, Nat.min_self]

/-- The encoding with the index replaced is that of the instruction with the index replaced. -/
theorem decode_recode (read : decode position input = .ok instruction)
    (fits : instruction.Fits place) :
    decode position (instruction.recode place) = .ok (instruction.reindex place) ∧
      (instruction.recode place).length = instruction.encoding.length := by
  have alone := decode_encoding read
  have unchanged (same : instruction.recode place = instruction.encoding)
      (sameOperands : instruction.operands.reindex place = instruction.operands) :
      decode position (instruction.recode place) = .ok (instruction.reindex place) ∧
        (instruction.recode place).length = instruction.encoding.length := by
    rw [reindex, same, sameOperands]
    exact ⟨alone, rfl⟩
  obtain rfl := position_decode read
  cases encoded_of_decode read with
  | @plain opcode shape place' bytes layout length =>
      have recoded : recode place ⟨opcode, place', false, opcode.toByte :: bytes,
          shape.operands bytes⟩ = opcode.toByte :: shape.reindex place bytes := by
        simp only [recode, layout]
        rfl
      have sameLength : (shape.reindex place bytes).length = bytes.length :=
        Shape.length_reindex (length ▸ shape.indexSize_le_size)
      have operands : shape.operands (shape.reindex place bytes) =
          (shape.operands bytes).reindex place := by
        apply Shape.operands_reindex length
        rintro rfl
        exact fits (Opcode.eq_ldc_of_layout layout)
      rw [reindex, recoded, ← operands]
      refine ⟨decode_plain layout (sameLength.trans length) _, ?_⟩
      rw [List.length_cons, List.length_cons, sameLength]
  | @widened opcode shape place' bytes layout length =>
      obtain ⟨sameBytes, sameOperands⟩ := Shape.reindex_of_wideSize? length place
      apply unchanged
      · simp only [recode, layout, sameBytes]
        rfl
      · exact sameOperands bytes
  | range layout table | cases layout table =>
      apply unchanged
      · simp only [recode, layout]
      · rfl

variable {symbols later : Symbols}

/-- The index of an instruction stands for what it stood for, if the symbols follow. -/
theorem meaning?_reindex (follows : later.Follows place symbols) (instruction : Instruction) :
    (instruction.reindex place).meaning? later = instruction.meaning? symbols := by
  have same {α : Type} {first second : UInt16 → Option α} (index : Option UInt16)
      (moved : ∀ index, second (place index) = first index) :
      (index.map place).bind second = index.bind first := by
    cases index with
    | none => rfl
    | some index => exact moved index
  simp only [meaning?, reindex, Operands.index?_reindex, OpcodeGroup.meaning?,
    same _ follows.className?_eq, same _ follows.member?_eq, same _ follows.loadable?_eq]

theorem literals_reindex (encoded : instruction.Encoded) :
    (instruction.reindex place).literals = instruction.literals := by
  cases encoded with
  | @plain opcode shape place' bytes layout length =>
      simp only [literals, reindex, recode, layout]
      exact congrArg (_ :: ·) (shape.literals_reindex bytes)
  | @widened opcode shape place' bytes layout length =>
      simp only [literals, reindex, recode, layout]
      exact congrArg (_ :: ·) (shape.literals_reindex _)
  | range layout table | cases layout table => simp only [literals, reindex, recode, layout]

end Instruction

/-- The listing with the indices in its instructions replaced. -/
def Listing.reindex (place : UInt16 → UInt16) (listing : Listing) : Listing :=
  { listing with instructions := listing.instructions.map (·.reindex place) }

/-- The code with its indices replaced is listed as the instructions with theirs replaced. -/
theorem Cursor.Lists.recodeAll {cursor : Cursor} {listing : Listing} (h : cursor.Lists listing)
    (fits : ∀ instruction ∈ listing.instructions, instruction.Fits place) :
    Lists ⟨cursor.position, Instruction.recodeAll place listing.instructions cursor.rest⟩
        (listing.reindex place) ∧
      (Instruction.recodeAll place listing.instructions cursor.rest).length =
        cursor.rest.length := by
  induction h with
  | atEnd position => exact ⟨.atEnd position, rfl⟩
  | fault nonempty read => exact ⟨.fault nonempty read, rfl⟩
  | @step position input instruction listing read tail ih =>
      obtain ⟨rest, restLength⟩ := ih fun later mem => fits later (List.mem_cons_of_mem _ mem)
      obtain ⟨recoded, length⟩ :=
        Instruction.decode_recode read (fits instruction List.mem_cons_self)
      have bound := Instruction.length_encoding read
      have next : (instruction.reindex place).next = instruction.next := by
        rw [Instruction.next, Instruction.next, Instruction.reindex, length]
      have behind (rest : Bytes) : (instruction.recode place ++ rest).drop
          (instruction.reindex place).encoding.length = rest := List.drop_left
      constructor
      · dsimp only at rest
        rw [← behind (Instruction.recodeAll ..), ← next] at rest
        exact .step (Instruction.decode_append recoded _) rest
      · simp only [Instruction.recodeAll, List.length_append, length, restLength, List.length_drop]
        omega

/-- The body with the indices in its code replaced. -/
def Body.reindex (place : UInt16 → UInt16) (body : Body) : Body :=
  { body with
    code := Instruction.recodeAll place (Listing.ofCode body.code).instructions body.code }

namespace Version

/-- Every comparison gives the same for versions that are interchangeable. -/
theorem Interchangeable.sameVerdicts {first second : Version}
    (same : first.Interchangeable second) : first.SameVerdicts second := by
  constructor
  · exact fun other => ⟨same.equivalent_eq (.refl other), (refl other).equivalent_eq same⟩
  · exact fun other => ⟨same.relocation?_eq (.refl other), (refl other).relocation?_eq same⟩
  · exact fun mode other =>
      ⟨same.compare_eq (.refl other) mode, (refl other).compare_eq same mode⟩

end Version

namespace ConstantPool

variable {pool later : ConstantPool}

theorem Reindexes.interchangeable (moved : Reindexes place pool later) (sound : pool.Sound)
    (soundLater : later.Sound) {body : Body}
    (fits : ∀ instruction ∈ (Listing.ofCode body.code).instructions, instruction.Fits place) :
    (Version.ofPool body pool).Interchangeable (Version.ofPool (body.reindex place) later) := by
  have lists := Cursor.lists_list (.start body.code)
  obtain ⟨recoded, length⟩ := lists.recodeAll fits
  have listing : (Version.ofPool (body.reindex place) later).listing =
      (Listing.ofCode body.code).reindex place := Cursor.lists_iff.mp recoded
  refine ⟨rfl, rfl, rfl, length.symm, ?_, ?_⟩
  · rw [listing]
    rfl
  · rw [listing]
    refine List.forall₂_map_right_iff.mpr (List.forall₂_same.mpr ?_)
    intro instruction mem
    obtain ⟨position, input, read⟩ := (Consecutive.of_lists lists).exists_decode mem
    have encoded := Instruction.encoded_of_decode read
    have meaning := Instruction.meaning?_reindex (moved.follows sound soundLater) instruction
    exact ⟨rfl, rfl, rfl, meaning.symm, (Instruction.literals_reindex encoded).symm, encoded,
      Instruction.encoded_of_decode (Instruction.decode_recode read (fits instruction mem)).1⟩

/-- If a pool is rearranged, an index stands for the same at its new place, and no comparison can
tell whether a body has the old pool, or the new one with the indices in its code replaced. -/
theorem Reachable.indifferent_of_reindexes (reachable : pool.Reachable)
    (reachableLater : later.Reachable) (moved : Reindexes place pool later) :
    later.symbols.Follows place pool.symbols ∧
      ∀ body : Body,
        (∀ instruction ∈ (Listing.ofCode body.code).instructions, instruction.Fits place) →
          (Version.ofPool body pool).SameVerdicts (Version.ofPool (body.reindex place) later) := by
  have sound := reachable.sound
  have soundLater := reachableLater.sound
  exact ⟨moved.follows sound soundLater,
    fun body fits => (moved.interchangeable sound soundLater fits).sameVerdicts⟩

/-- A class is loaded. In the one pool its entry is resolved, and in the other one it comes after a
number. -/
theorem Reachable.indifferent_of_moved_class :
    let pool := Call.after (.resolve 2) (Call.after (.request (.classRef "A")) .empty)
    let later := Call.after (.request (.classRef "A")) (Call.after (.append (.integer 7)) .empty)
    let place (index : UInt16) : UInt16 := if index = 1 then 2 else if index = 2 then 3 else 0
    let old := Version.ofPool ⟨1, 0, 0, [0x12, 2, 0xb0], [], []⟩ pool
    let body : Body := ⟨1, 0, 0, [0x00, 0x12, 2, 0xb0], [], []⟩
    body.reindex place = { body with code := [0x00, 0x12, 3, 0xb0] } ∧
      later.symbols.loadable? 3 = some (.classRef "A") ∧
      old.relocation? (Version.ofPool (body.reindex place) later) = some ⟨#[⟨0, 0, 1⟩]⟩ := by
  intro pool later place old body
  have reachable : pool.Reachable := .call (.call .empty _) _
  have reachableLater : later.Reachable := .call (.call .empty _) _
  have absent (index : UInt16) (notFirst : index ≠ 1) (notSecond : index ≠ 2) :
      pool.get? index = none := by
    apply Option.eq_none_iff_forall_ne_some.mpr
    intro constant found
    have entries : pool.entries.toList = [(1, .utf8 "A"), (2, .classRef 1)] := by decide +kernel
    have mem := (SlotArray.get?_eq_some_iff reachable.sound.spaced).mp found
    simp_all [← UInt16.toNat_inj]
  have moved : Reindexes place pool later := by
    intro index
    by_cases first : index = 1
    · subst first
      decide +kernel
    · by_cases second : index = 2
      · subst second
        decide +kernel
      · rw [absent index first second]
        simp only [place, if_neg first, if_neg second]
        decide +kernel
  have fits : ∀ instruction ∈ (Listing.ofCode body.code).instructions, instruction.Fits place := by
    decide +kernel
  obtain ⟨follows, verdicts⟩ := reachable.indifferent_of_reindexes reachableLater moved
  have found : old.relocation? (Version.ofPool body pool) = some ⟨#[⟨0, 0, 1⟩]⟩ := by
    decide +kernel
  refine ⟨by decide +kernel, ?_, ?_⟩
  · exact (follows.loadable?_eq 2).trans (by decide +kernel)
  · rw [← ((verdicts body fits).relocation old).2, found]

end ConstantPool

end HotSwap
