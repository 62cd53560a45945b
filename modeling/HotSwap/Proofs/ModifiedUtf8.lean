import HotSwap.Proofs.Groups

/-! # Texts are read as they were written

A character of a text is no surrogate, so its code units are told apart from those of its
neighbours, and the group of bytes of a unit tells its own length. Reading undoes writing
character by character and unit by unit. -/

namespace HotSwap

namespace Utf16

/-- A character is below the surrogates or above them. -/
theorem toNat_bounds (c : Char) :
    c.toNat < 0xD800 ∨ 0xDFFF < c.toNat ∧ c.toNat < 0x110000 :=
  c.valid

/-- A character is read from its own units, whatever follows. -/
theorem decode_encodeChar_append (c : Char) (units : List UInt16) :
    decode (encodeChar c ++ units) = c :: decode units := by
  have bounds := toNat_bounds c
  unfold encodeChar
  split
  · next small =>
    have bits : (UInt16.ofNat c.toNat).toNat = c.toNat := UInt16.toNat_ofNat_of_lt' small
    have notLead : isLead (UInt16.ofNat c.toNat) = false := by
      rw [isLead, bits]
      simp only [Bool.and_eq_false_iff, decide_eq_false_iff_not]
      omega
    have notTrail : isTrail (UInt16.ofNat c.toNat) = false := by
      rw [isTrail, bits]
      simp only [Bool.and_eq_false_iff, decide_eq_false_iff_not]
      omega
    have single : ofUnit (UInt16.ofNat c.toNat) = c := by
      rw [ofUnit, notLead, notTrail, bits]
      exact Char.ofNat_toNat c
    cases units with
    | nil => rw [List.singleton_append, decode_singleton, single, decode_nil]
    | cons second rest =>
        rw [List.singleton_append, decode_cons_cons, notLead, Bool.false_and,
          if_neg Bool.false_ne_true, single]
  · next large =>
    have lead : (UInt16.ofNat (0xD800 + (c.toNat - 0x10000) / 0x400)).toNat =
        0xD800 + (c.toNat - 0x10000) / 0x400 :=
      UInt16.toNat_ofNat_of_lt' (show _ < 0x10000 by omega)
    have trail : (UInt16.ofNat (0xDC00 + (c.toNat - 0x10000) % 0x400)).toNat =
        0xDC00 + (c.toNat - 0x10000) % 0x400 :=
      UInt16.toNat_ofNat_of_lt' (show _ < 0x10000 by omega)
    have paired : (isLead (UInt16.ofNat (0xD800 + (c.toNat - 0x10000) / 0x400)) &&
        isTrail (UInt16.ofNat (0xDC00 + (c.toNat - 0x10000) % 0x400))) = true := by
      simp only [isLead, isTrail, lead, trail, Bool.and_eq_true, decide_eq_true_eq]
      omega
    have number : 0x10000 + (0xD800 + (c.toNat - 0x10000) / 0x400 - 0xD800) * 0x400 +
        (0xDC00 + (c.toNat - 0x10000) % 0x400 - 0xDC00) = c.toNat := by
      omega
    rw [List.cons_append, List.singleton_append, decode_cons_cons, if_pos paired, ofPair, lead,
      trail, number, Char.ofNat_toNat]

theorem decode_encode (text : List Char) : decode (encode text) = text := by
  induction text with
  | nil => rfl
  | cons c text ih => rw [encode, List.flatMap_cons, decode_encodeChar_append, ← encode, ih]

end Utf16

namespace ModifiedUtf8

/-- A unit is read from its own group of bytes, whatever follows. -/
theorem unitsAfter_encodeUnit_append (found : List UInt16) (unit : UInt16) (bytes : Bytes) :
    unitsAfter found (encodeUnit unit ++ bytes) = unitsAfter (unit :: found) bytes := by
  obtain ⟨group, written, same⟩ := Group.exists_of_unit unit
  rw [← written, group.unitsAfter_append, same]

theorem units?_flatMap_encodeUnit (units : List UInt16) :
    units? (units.flatMap encodeUnit) = some units := by
  have general (found : List UInt16) :
      unitsAfter found (units.flatMap encodeUnit) = some (found.reverse ++ units) := by
    induction units generalizing found with
    | nil => simp [unitsAfter]
    | cons unit units ih =>
        rw [List.flatMap_cons, unitsAfter_encodeUnit_append, ih, List.reverse_cons,
          List.append_assoc, List.singleton_append]
  exact general []

/-- The bytes of a text stand for this text. -/
theorem decode?_encode (text : String) : decode? (encode text) = some text := by
  rw [decode?, encode, units?_flatMap_encodeUnit, Option.map_some, Utf16.decode_encode,
    String.ofList_toList]

theorem encode_append (text more : String) : encode (text ++ more) = encode text ++ encode more := by
  rw [encode, String.toList_append, Utf16.encode, List.flatMap_append, List.flatMap_append]
  rfl

/-- A text is read as it was written. What is written has no zero byte and no byte that begins a
longer group than three bytes, and it is put together from what is written of the parts. -/
theorem encode_lossless (text : String) :
    decode? (encode text) = some text ∧
      (∀ byte ∈ encode text, byte ≠ 0 ∧ byte.toNat < 0xF0) ∧
      ∀ more : String, encode (text ++ more) = encode text ++ encode more := by
  refine ⟨decode?_encode text, ?_, encode_append text⟩
  intro byte mem
  obtain ⟨unit, -, memUnit⟩ := List.mem_flatMap.mp mem
  obtain ⟨group, written, -⟩ := Group.exists_of_unit unit
  rw [← written] at memUnit
  obtain ⟨positive, small⟩ := group.byte_bounds byte memUnit
  refine ⟨?_, small⟩
  rintro rfl
  exact absurd positive (Nat.lt_irrefl 0)

/-- The first and the last character of every length, with those around the surrogates. -/
theorem encode_lossless_at_bounds :
    let text := "\x00\x01\x7F\u0080\u07FF\u0800\uD7FF\uE000\uFFFF𐀀".push (Char.ofNat 0x10FFFF)
    decode? (encode text) = some text ∧
      (0xED ∈ encode text ∧ (0xED : UInt8) ≠ 0 ∧ (0xED : UInt8).toNat < 0xF0) ∧
      encode (text ++ "𐀀") = encode text ++ [0xED, 0xA0, 0x80, 0xED, 0xB0, 0x80] := by
  intro text
  have mem : 0xED ∈ encode text := by decide +kernel
  obtain ⟨read, bounds, append⟩ := encode_lossless text
  exact ⟨read, ⟨mem, bounds 0xED mem⟩, append "𐀀"⟩

end ModifiedUtf8

end HotSwap
