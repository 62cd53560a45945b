import HotSwap.Proofs.ModifiedUtf8

/-! # Texts do not grow when they are written again

Reading a text forgets how it was written: a group may be longer than its unit needs, and a
surrogate without a partner becomes the replacement character. Written again, no unit takes
more bytes than the group that it came from, and the replacement character as many as the
surrogate. -/

namespace HotSwap

namespace Utf16

theorem toNat_ofNat {number : Nat} (valid : number.isValidChar) :
    (Char.ofNat number).toNat = number := by
  rw [Char.ofNat, dif_pos valid]
  rfl

theorem encodeChar_ofPair {lead trail : UInt16} (isLead : isLead lead = true)
    (isTrail : isTrail trail = true) : encodeChar (ofPair lead trail) = [lead, trail] := by
  simp only [Utf16.isLead, Utf16.isTrail, Bool.and_eq_true, decide_eq_true_eq] at isLead isTrail
  have number : (ofPair lead trail).toNat =
      0x10000 + (lead.toNat - 0xD800) * 0x400 + (trail.toNat - 0xDC00) := by
    exact toNat_ofNat (.inr (by omega))
  have high : 0xD800 + ((lead.toNat - 0xD800) * 0x400 + (trail.toNat - 0xDC00)) / 0x400 =
      lead.toNat := by omega
  have low : 0xDC00 + ((lead.toNat - 0xD800) * 0x400 + (trail.toNat - 0xDC00)) % 0x400 =
      trail.toNat := by omega
  rw [encodeChar, number, if_neg (by omega), Nat.add_assoc, Nat.add_sub_cancel_left, high, low,
    UInt16.ofNat_toNat, UInt16.ofNat_toNat]

/-- A unit that is no surrogate is the only unit of its character. -/
theorem encodeChar_ofUnit {unit : UInt16} (single : (isLead unit || isTrail unit) = false) :
    encodeChar (ofUnit unit) = [unit] := by
  have bound := unit.toNat_lt
  have valid : unit.toNat.isValidChar := by
    simp only [isLead, isTrail, Bool.or_eq_false_iff, Bool.and_eq_false_iff,
      decide_eq_false_iff_not] at single
    unfold Nat.isValidChar
    omega
  have number : (ofUnit unit).toNat = unit.toNat := by
    rw [ofUnit, single, if_neg Bool.false_ne_true]
    exact toNat_ofNat valid
  rw [encodeChar, number, if_pos bound, UInt16.ofNat_toNat]

/-- What stands for a surrogate is not written as this surrogate. -/
theorem encodeChar_ofUnit_eq_iff (unit : UInt16) :
    encodeChar (ofUnit unit) = [unit] ↔ (isLead unit || isTrail unit) = false := by
  constructor
  · intro same
    cases surrogate : (isLead unit || isTrail unit) with
    | false => rfl
    | true =>
        have replaced : encodeChar (ofUnit unit) = [0xFFFD] := by
          rw [ofUnit, if_pos surrogate]
          rfl
        rw [replaced, List.singleton_inj] at same
        subst same
        cases surrogate
  · exact encodeChar_ofUnit

theorem encodeChar_ofUnit_append_eq_iff (unit : UInt16) {units rest : List UInt16} :
    encodeChar (ofUnit unit) ++ units = unit :: rest ↔
      (isLead unit || isTrail unit) = false ∧ units = rest := by
  have oneUnit : (encodeChar (ofUnit unit)).length = [unit].length := by
    cases surrogate : (isLead unit || isTrail unit) with
    | false => rw [encodeChar_ofUnit surrogate]
    | true =>
        rw [ofUnit, if_pos surrogate]
        rfl
  rw [← encodeChar_ofUnit_eq_iff, ← List.singleton_append]
  constructor
  · intro same
    exact List.append_inj same oneUnit
  · rintro ⟨first, rfl⟩
    rw [first]

/-- Whether every surrogate among some units is part of a pair. -/
inductive Paired : List UInt16 → Prop
  | nil : Paired []
  | single {unit : UInt16} {rest : List UInt16}
      (noSurrogate : (isLead unit || isTrail unit) = false) (later : Paired rest) :
      Paired (unit :: rest)
  | pair {lead trail : UInt16} {rest : List UInt16} (isLead : isLead lead = true)
      (isTrail : isTrail trail = true) (later : Paired rest) : Paired (lead :: trail :: rest)

theorem paired_cons_iff {first : UInt16} {units : List UInt16}
    (alone : ∀ second rest, units = second :: rest → ¬(isLead first && isTrail second) = true) :
    Paired (first :: units) ↔ (isLead first || isTrail first) = false ∧ Paired units := by
  constructor
  · intro paired
    cases paired with
    | single noSurrogate later => exact ⟨noSurrogate, later⟩
    | pair lead trail later =>
        have both := alone _ _ rfl
        rw [lead, trail] at both
        exact absurd rfl both
  · rintro ⟨noSurrogate, later⟩
    exact .single noSurrogate later

theorem paired_cons_cons_iff {lead trail : UInt16} {rest : List UInt16}
    (isLead : isLead lead = true) (isTrail : isTrail trail = true) :
    Paired (lead :: trail :: rest) ↔ Paired rest := by
  constructor
  · intro paired
    cases paired with
    | single noSurrogate later =>
        rw [isLead] at noSurrogate
        cases noSurrogate
    | pair _ _ later => exact later
  · exact .pair isLead isTrail

/-- Units that were read as a text are written again if no surrogate among them had to be
replaced. -/
theorem encode_decode_eq_iff :
    (units : List UInt16) → (encode (decode units) = units ↔ Paired units)
  | [] => ⟨fun _ => .nil, fun _ => rfl⟩
  | [unit] => by
      have alone : ∀ second rest, [] = second :: rest →
          ¬(isLead unit && isTrail second) = true := nofun
      rw [paired_cons_iff alone, decode_singleton, encode, List.flatMap_cons,
        encodeChar_ofUnit_append_eq_iff]
      exact and_congr_right fun _ => ⟨fun _ => .nil, fun _ => rfl⟩
  | first :: second :: rest => by
      rw [decode_cons_cons]
      split
      · next paired =>
        rw [Bool.and_eq_true] at paired
        rw [paired_cons_cons_iff paired.1 paired.2, ← encode_decode_eq_iff rest, encode,
          List.flatMap_cons, encodeChar_ofPair paired.1 paired.2, ← encode]
        simp
      · next alone =>
        have alone : ∀ next later, second :: rest = next :: later →
            ¬(isLead first && isTrail next) = true := by
          rintro _ _ ⟨⟩
          exact alone
        rw [paired_cons_iff alone, ← encode_decode_eq_iff (second :: rest), encode,
          List.flatMap_cons, ← encode, encodeChar_ofUnit_append_eq_iff]

end Utf16

namespace ModifiedUtf8

/-- The number of bytes that units take. -/
def sizeOfUnits (units : List UInt16) : Nat :=
  (units.flatMap encodeUnit).length

theorem sizeOfUnits_cons (unit : UInt16) (units : List UInt16) :
    sizeOfUnits (unit :: units) = (encodeUnit unit).length + sizeOfUnits units := by
  rw [sizeOfUnits, List.flatMap_cons, List.length_append, ← sizeOfUnits]

/-- A unit that has lost its partner takes as many bytes as what stands for it. -/
theorem sizeOfUnits_encodeChar_ofUnit (unit : UInt16) :
    sizeOfUnits (Utf16.encodeChar (Utf16.ofUnit unit)) = (encodeUnit unit).length := by
  cases single : (Utf16.isLead unit || Utf16.isTrail unit) with
  | false => rw [Utf16.encodeChar_ofUnit single, sizeOfUnits_cons, sizeOfUnits]; simp
  | true =>
      have replaced : Utf16.ofUnit unit = Utf16.replacement := by
        rw [Utf16.ofUnit, if_pos single]
      simp only [Utf16.isLead, Utf16.isTrail, Bool.or_eq_true, Bool.and_eq_true,
        decide_eq_true_eq] at single
      rw [replaced, length_encodeUnit, bytesNeeded, if_neg (by omega), if_neg (by omega),
        if_neg (by omega)]
      rfl

/-- Units that were read as a text take as many bytes when the text is written. -/
theorem sizeOfUnits_encode_decode :
    (units : List UInt16) → sizeOfUnits (Utf16.encode (Utf16.decode units)) = sizeOfUnits units
  | [] => rfl
  | [unit] => by
      rw [Utf16.decode_singleton, Utf16.encode, List.flatMap_singleton,
        sizeOfUnits_encodeChar_ofUnit, sizeOfUnits, List.flatMap_singleton]
  | first :: second :: rest => by
      have append (front back : List UInt16) :
          sizeOfUnits (front ++ back) = sizeOfUnits front + sizeOfUnits back := by
        simp [sizeOfUnits]
      have cons (c : Char) (text : List Char) : sizeOfUnits (Utf16.encode (c :: text)) =
          sizeOfUnits (Utf16.encodeChar c) + sizeOfUnits (Utf16.encode text) :=
        append _ _
      rw [Utf16.decode_cons_cons]
      split
      · next paired =>
        rw [Bool.and_eq_true] at paired
        rw [cons, Utf16.encodeChar_ofPair paired.1 paired.2, sizeOfUnits_encode_decode rest,
          ← append]
        rfl
      · rw [cons, sizeOfUnits_encodeChar_ofUnit, sizeOfUnits_encode_decode (second :: rest),
          ← sizeOfUnits_cons]

/-- A text takes at most as many bytes as it was read from. -/
theorem length_encode_le {bytes : Bytes} {text : String} (read : decode? bytes = some text) :
    (encode text).length ≤ bytes.length := by
  obtain ⟨units, readUnits, rfl⟩ := Option.map_eq_some_iff.mp read
  obtain ⟨groups, rfl, rfl⟩ := units?_eq_some_iff.mp readUnits
  calc
    (encode (String.ofList (Utf16.decode (groups.map Group.unit)))).length
      = sizeOfUnits (Utf16.encode (Utf16.decode (groups.map Group.unit))) := by
        rw [encode, String.toList_ofList, sizeOfUnits]
    _ = sizeOfUnits (groups.map Group.unit) := sizeOfUnits_encode_decode _
    _ ≤ (groups.flatMap Group.bytes).length := length_flatMap_encodeUnit_le groups

/-- Groups are written again as they are if they are as short as they can be and no surrogate had
to be replaced. -/
theorem encode_eq_flatMap_bytes_iff (groups : List Group) :
    encode (String.ofList (Utf16.decode (groups.map Group.unit))) = groups.flatMap Group.bytes ↔
      (∀ group ∈ groups, group.bytes.length ≤ bytesNeeded group.unit) ∧
        Utf16.Paired (groups.map Group.unit) := by
  rw [encode, String.toList_ofList, ← Utf16.encode_decode_eq_iff, ← flatMap_encodeUnit_eq_iff]
  constructor
  · intro same
    -- the same bytes are read as the same units
    have units : Utf16.encode (Utf16.decode (groups.map Group.unit)) = groups.map Group.unit := by
      apply Option.some.inj
      rw [← units?_flatMap_encodeUnit, same]
      exact unitsAfter_flatMap_bytes groups []
    rw [units] at same
    exact ⟨same, units⟩
  · rintro ⟨same, units⟩
    rw [units, same]

/-- Bytes are read as a text exactly if they are a sequence of groups. Written again, the text takes
at most as many bytes, and the very same ones exactly if no group is longer than its unit needs and
no surrogate lacks its partner. -/
theorem decode?_groups :
    (∀ bytes : Bytes, (∃ text, decode? bytes = some text) ↔
      ∃ groups : List Group, bytes = groups.flatMap Group.bytes) ∧
    ∀ groups : List Group, ∃ text, decode? (groups.flatMap Group.bytes) = some text ∧
      (encode text).length ≤ (groups.flatMap Group.bytes).length ∧
      (encode text = groups.flatMap Group.bytes ↔
        (∀ group ∈ groups, group.bytes.length ≤ bytesNeeded group.unit) ∧
          Utf16.Paired (groups.map Group.unit)) := by
  have read (groups : List Group) : decode? (groups.flatMap Group.bytes) =
      some (String.ofList (Utf16.decode (groups.map Group.unit))) := by
    rw [decode?, units?_eq_some_iff.mpr ⟨groups, rfl, rfl⟩, Option.map_some]
  constructor
  · intro bytes
    constructor
    · rintro ⟨text, found⟩
      obtain ⟨units, readUnits, rfl⟩ := Option.map_eq_some_iff.mp found
      obtain ⟨groups, same, -⟩ := units?_eq_some_iff.mp readUnits
      exact ⟨groups, same⟩
    · rintro ⟨groups, rfl⟩
      exact ⟨_, read groups⟩
  · intro groups
    exact ⟨_, read groups, length_encode_le (read groups), encode_eq_flatMap_bytes_iff groups⟩

/-- A zero and a pair of surrogates as they are written; and a letter in two bytes in front of the
same surrogates the wrong way round. -/
theorem decode?_groups_of_surrogates :
    let lead : Group := .three 0xED 0xA0 0x80 (by decide) (by decide) (by decide)
    let trail : Group := .three 0xED 0xB0 0x80 (by decide) (by decide) (by decide)
    let tidy : List Group := [.two 0xC0 0x80 (by decide) (by decide), lead, trail]
    let letter : Group := .two 0xC1 0x81 (by decide) (by decide)
    let untidy : List Group := [letter, trail, lead]
    (∃ text, decode? (tidy.flatMap Group.bytes) = some text ∧
      encode text = tidy.flatMap Group.bytes) ∧
    ∃ text, decode? (untidy.flatMap Group.bytes) = some text ∧ text = "A\uFFFD\uFFFD" ∧
      (encode text).length ≤ 8 ∧ encode text ≠ untidy.flatMap Group.bytes := by
  intro lead trail tidy letter untidy
  constructor
  · obtain ⟨text, read, -, again⟩ := decode?_groups.2 tidy
    have paired : Utf16.Paired (tidy.map Group.unit) :=
      .single rfl (.pair rfl rfl .nil)
    exact ⟨text, read, again.mpr ⟨by decide, paired⟩⟩
  · obtain ⟨text, read, short, again⟩ := decode?_groups.2 untidy
    refine ⟨text, read, ?_, short, ?_⟩
    · have known : decode? (untidy.flatMap Group.bytes) = some "A\uFFFD\uFFFD" := by
        decide +kernel
      exact Option.some.inj (read.symm.trans known)
    · intro same
      have shortest := (again.mp same).1 letter List.mem_cons_self
      exact absurd shortest (by decide)

end ModifiedUtf8

end HotSwap
