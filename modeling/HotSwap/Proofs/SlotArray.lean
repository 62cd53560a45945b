import HotSwap.SlotArray

/-! # Looking up in slot arrays

If every element takes at least one slot, the offsets increase from entry to entry, and
the bisection finds an element exactly at its own offset. Adding an element leaves all
earlier ones where they are. -/

namespace HotSwap.SlotArray

variable {α : Type} {slots : SlotArray α} {offset : Nat} {element : α}

/-- Whether offsets increase, up to the one that the next element gets. -/
structure Spaced (slots : SlotArray α) : Prop where
  increasing : slots.toList.Pairwise fun first second => first.1 < second.1
  below : ∀ entry ∈ slots.toList, entry.1 < slots.next

theorem spaced_empty (start : Nat) : (empty start : SlotArray α).Spaced :=
  ⟨.nil, List.forall_mem_nil _⟩

theorem Spaced.push (spaced : slots.Spaced) {width : Nat} (positive : 0 < width) (element : α) :
    (slots.push width element).Spaced := by
  constructor
  · rw [toList_push, List.pairwise_append]
    refine ⟨spaced.increasing, List.pairwise_singleton _ _, ?_⟩
    intro entry mem last memLast
    rw [List.mem_singleton.mp memLast]
    exact spaced.below entry mem
  · rw [toList_push, List.forall_mem_append, List.forall_mem_singleton]
    constructor
    · intro entry mem
      have := spaced.below entry mem
      simp only [SlotArray.push]
      omega
    · simp only [SlotArray.push]
      omega

theorem offset_lt_of_lt {entries : Array (Nat × α)}
    (increasing : entries.toList.Pairwise fun first second => first.1 < second.1)
    {index later : Nat} {entry other : Nat × α} (lt : index < later)
    (found : entries[index]? = some entry) (foundOther : entries[later]? = some other) :
    entry.1 < other.1 := by
  rw [← Array.getElem?_toList, List.getElem?_eq_some_iff] at found foundOther
  obtain ⟨_, rfl⟩ := found
  obtain ⟨_, rfl⟩ := foundOther
  exact List.pairwise_iff_getElem.mp increasing index later _ _ lt

theorem reach_le (entries : Array (Nat × α)) (offset : Nat) {low high : Nat} (le : low ≤ high) :
    reach entries offset low high ≤ high := by
  fun_induction reach entries offset low high with
  | case1 => exact le
  | case2 low high lt middle found element read past ih => exact ih (by omega)
  | case3 low high lt middle found element read past ih =>
      exact Nat.le_trans (ih (by omega)) (by omega)
  | case4 => exact le

/-- The bisection divides the entries into those that are not past the offset and those that
are. -/
theorem reach_divides {entries : Array (Nat × α)} {low high : Nat}
    (increasing : entries.toList.Pairwise fun first second => first.1 < second.1)
    (inside : high ≤ entries.size)
    (early : ∀ (index : Nat) (entry : Nat × α), index < low → entries[index]? = some entry →
      entry.1 ≤ offset)
    (late : ∀ (index : Nat) (entry : Nat × α), high ≤ index → entries[index]? = some entry →
      offset < entry.1) :
    ∀ (index : Nat) (entry : Nat × α), entries[index]? = some entry →
      (entry.1 ≤ offset ↔ index < reach entries offset low high) := by
  have ordered {index later : Nat} {entry other : Nat × α} (le : index ≤ later)
      (found : entries[index]? = some entry) (foundOther : entries[later]? = some other) :
      entry.1 ≤ other.1 := by
    rcases Nat.eq_or_lt_of_le le with rfl | lt
    · cases found.symm.trans foundOther
      exact Nat.le_refl _
    · exact Nat.le_of_lt (offset_lt_of_lt increasing lt found foundOther)
  fun_induction reach entries offset low high with
  | case1 low high lt middle missing =>
      rw [Array.getElem?_eq_none_iff] at missing
      omega
  | case2 low high lt middle found element read le ih =>
      apply ih inside _ late
      intro index entry before foundEntry
      exact Nat.le_trans (ordered (by omega) foundEntry read) le
  | case3 low high lt middle found element read past ih =>
      apply ih (by omega) early
      intro index entry after foundEntry
      exact Nat.lt_of_lt_of_le (Nat.lt_of_not_le past) (ordered after read foundEntry)
  | case4 low high ge =>
      intro index entry found
      constructor
      · intro le
        apply Nat.lt_of_not_le
        intro outside
        have past := late index entry (Nat.le_trans (Nat.le_of_not_lt ge) outside) found
        exact absurd le (Nat.not_le_of_lt past)
      · intro before
        exact early index entry before found

/-- A look-up finds an element exactly at its offset. -/
theorem get?_eq_some_iff (spaced : slots.Spaced) :
    slots.get? offset = some element ↔ (offset, element) ∈ slots.toList := by
  have divides : ∀ (index : Nat) (entry : Nat × α), slots.entries[index]? = some entry →
      (entry.1 ≤ offset ↔ index < reach slots.entries offset 0 slots.entries.size) := by
    apply reach_divides spaced.increasing (Nat.le_refl _)
    · intro index entry impossible
      exact absurd impossible (Nat.not_lt_zero index)
    · intro index entry outside found
      rw [Array.getElem?_eq_none outside] at found
      cases found
  constructor
  · intro h
    unfold get? at h
    split at h
    · cases h
    · next found entry read =>
      split at h
      · next same =>
        cases h
        subst same
        exact Array.mem_toList_iff.mpr (Array.mem_of_getElem? read)
      · cases h
  · intro mem
    obtain ⟨index, read⟩ := List.getElem?_of_mem mem
    rw [toList, Array.getElem?_toList] at read
    have reached := (divides index _ read).mp (Nat.le_refl _)
    have bound := reach_le slots.entries offset (Nat.zero_le slots.entries.size)
    generalize count : reach slots.entries offset 0 slots.entries.size = reached' at *
    -- the entry is not past the offset, and the next one would be
    have last : reached' = index + 1 := by
      apply Nat.le_antisymm _ reached
      apply Nat.le_of_not_lt
      intro further
      have next := Array.getElem?_eq_getElem (Nat.lt_of_lt_of_le further bound)
      have notPast := (divides _ _ next).mpr further
      have past := offset_lt_of_lt spaced.increasing (Nat.lt_succ_self index) read next
      exact absurd notPast (Nat.not_le_of_lt past)
    rw [get?, count, last, Nat.add_sub_cancel, read]
    exact if_pos rfl

theorem Spaced.get?_push (spaced : slots.Spaced) {width : Nat} (positive : 0 < width)
    (element : α) (offset : Nat) :
    (slots.push width element).get? offset =
      if offset = slots.next then some element else slots.get? offset := by
  apply Option.ext
  intro found
  rw [get?_eq_some_iff (spaced.push positive element), toList_push, List.mem_append,
    List.mem_singleton, Prod.mk.injEq]
  split
  · next same =>
    have absent : (offset, found) ∉ slots.toList := by
      intro mem
      have := spaced.below _ mem
      omega
    rw [same] at absent
    simp [absent, same, eq_comm]
  · next different => simp [different, get?_eq_some_iff spaced]

end HotSwap.SlotArray
