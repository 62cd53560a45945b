import HotSwap.Proofs.SlotArray
import Mathlib.Data.List.Induction
import Mathlib.Algebra.GroupWithZero.Nat

/-! # Where the elements of a slot array are

Elements that are added one after the other are laid out without gaps: each one begins where the
one before it ends. So every offset from the start up to the end is in exactly one element, and only
at the first of its slots is the element found. The bisection finds the same as a search through the
whole list. -/

namespace HotSwap.SlotArray

variable {α : Type} {start offset index inside : Nat} {items : List (Nat × α)} {item : Nat × α}

/-- The array to which elements were added with their widths, one after the other. -/
def ofList (start : Nat) (items : List (Nat × α)) : SlotArray α :=
  items.foldl (fun slots item => slots.push item.1 item.2) (empty start)

/-- The number of slots that some elements take. -/
def totalWidth (items : List (Nat × α)) : Nat :=
  (items.map Prod.fst).sum

theorem ofList_append (start : Nat) (items : List (Nat × α)) (item : Nat × α) :
    ofList start (items ++ [item]) = (ofList start items).push item.1 item.2 := by
  rw [ofList, List.foldl_append]
  rfl

theorem totalWidth_append (front back : List (Nat × α)) :
    totalWidth (front ++ back) = totalWidth front + totalWidth back := by
  rw [totalWidth, List.map_append, List.sum_append]
  rfl

theorem totalWidth_take_le (items : List (Nat × α)) {later : Nat} (le : index ≤ later) :
    totalWidth (items.take index) ≤ totalWidth (items.take later) := by
  obtain ⟨more, eq⟩ := List.take_prefix_take_left (l := items) le
  rw [← eq, totalWidth_append]
  exact Nat.le_add_right _ _

theorem totalWidth_take_succ (found : items[index]? = some item) :
    totalWidth (items.take (index + 1)) = totalWidth (items.take index) + item.1 := by
  rw [List.take_add_one, found, totalWidth_append]
  rfl

theorem totalWidth_take_add_le (found : items[index]? = some item) :
    totalWidth (items.take index) + item.1 ≤ totalWidth items := by
  have le := totalWidth_take_le items (Nat.succ_le_of_lt (List.getElem?_eq_some_iff.mp found).1)
  rwa [totalWidth_take_succ found, List.take_length] at le

theorem size_ofList (start : Nat) (items : List (Nat × α)) :
    (ofList start items).size = items.length := by
  induction items using List.reverseRecOn with
  | nil => rfl
  | append_singleton items item ih =>
      rw [ofList_append, size, push, Array.size_push, List.length_append]
      exact congrArg (· + 1) ih

theorem next_ofList (start : Nat) (items : List (Nat × α)) :
    (ofList start items).next = start + totalWidth items := by
  induction items using List.reverseRecOn with
  | nil => rfl
  | append_singleton items item ih =>
      rw [ofList_append, push, ih, totalWidth_append, ← Nat.add_assoc]
      rfl

/-- An element is behind all those that were added before it. -/
theorem getElem?_toList_ofList (start : Nat) (items : List (Nat × α)) (index : Nat) :
    (ofList start items).toList[index]? =
      items[index]?.map fun item => (start + totalWidth (items.take index), item.2) := by
  induction items using List.reverseRecOn with
  | nil => rfl
  | append_singleton items item ih =>
      have length : (ofList start items).toList.length = items.length := by
        rw [← size_ofList start items, toList, Array.length_toList, size]
      rw [ofList_append, toList_push, List.getElem?_append, List.getElem?_append, length, ih,
        next_ofList]
      split
      · next before => rw [List.take_append_of_le_length (Nat.le_of_lt before)]
      · next behind =>
        rcases Nat.eq_or_lt_of_le (Nat.le_of_not_lt behind) with rfl | past
        · rw [Nat.sub_self, List.take_left]
          rfl
        · rw [List.getElem?_eq_none, List.getElem?_eq_none]
          · rfl
          all_goals
            rw [List.length_singleton]
            omega

theorem map_snd_toList_ofList (start : Nat) (items : List (Nat × α)) :
    (ofList start items).toList.map Prod.snd = items.map Prod.snd := by
  apply List.ext_getElem?
  intro index
  rw [List.getElem?_map, getElem?_toList_ofList, List.getElem?_map, Option.map_map]
  rfl

theorem spaced_ofList (start : Nat) (positive : ∀ item ∈ items, 0 < item.1) :
    (ofList start items).Spaced := by
  induction items using List.reverseRecOn with
  | nil => exact spaced_empty start
  | append_singleton items item ih =>
      rw [List.forall_mem_append, List.forall_mem_singleton] at positive
      rw [ofList_append]
      exact (ih positive.1).push positive.2 item.2

/-- A look-up that is fast finds the same as one that goes through all entries. -/
theorem Spaced.get?_eq_lookup {slots : SlotArray α} (spaced : slots.Spaced) (offset : Nat) :
    slots.get? offset = slots.toList.lookup offset := by
  apply Option.ext
  intro element
  rw [get?_eq_some_iff spaced, List.lookup_eq_some_iff]
  constructor
  · intro mem
    obtain ⟨front, back, eq⟩ := List.append_of_mem mem
    refine ⟨front, back, eq, fun entry before => ?_⟩
    have increasing := spaced.increasing
    rw [eq, List.pairwise_append] at increasing
    have lt := increasing.2.2 entry before _ List.mem_cons_self
    simpa using Nat.ne_of_gt lt
  · rintro ⟨front, back, eq, -⟩
    rw [eq]
    exact List.mem_append_right _ List.mem_cons_self

/-- An element is found at its first slot, and nothing at the others. -/
theorem get?_ofList (positive : ∀ item ∈ items, 0 < item.1) (found : items[index]? = some item)
    (lt : inside < item.1) :
    (ofList start items).get? (start + totalWidth (items.take index) + inside) =
      if inside = 0 then some item.2 else none := by
  have spaced := spaced_ofList start positive
  split
  · next first =>
    subst first
    rw [get?_eq_some_iff spaced]
    apply List.mem_of_getElem? (i := index)
    rw [getElem?_toList_ofList, found]
    rfl
  · next later =>
    rw [Option.eq_none_iff_forall_ne_some]
    intro element there
    obtain ⟨other, read⟩ := List.getElem?_of_mem ((get?_eq_some_iff spaced).mp there)
    rw [getElem?_toList_ofList, Option.map_eq_some_iff] at read
    obtain ⟨_, -, same⟩ := read
    have eq := congrArg Prod.fst same
    dsimp only at eq
    -- the other element begins before the slot's own one ends, and not behind its beginning
    rcases Nat.lt_or_ge index other with after | before
    · have := totalWidth_take_le items (Nat.succ_le_of_lt after)
      rw [totalWidth_take_succ found] at this
      omega
    · have := totalWidth_take_le items before
      omega

theorem Spaced.get?_eq_none_of_next_le {slots : SlotArray α} (spaced : slots.Spaced)
    (past : slots.next ≤ offset) : slots.get? offset = none := by
  rw [Option.eq_none_iff_forall_ne_some]
  intro element found
  have := spaced.below _ ((get?_eq_some_iff spaced).mp found)
  dsimp only at this
  omega

theorem get?_ofList_of_lt (positive : ∀ item ∈ items, 0 < item.1) (before : offset < start) :
    (ofList start items).get? offset = none := by
  rw [Option.eq_none_iff_forall_ne_some]
  intro element found
  obtain ⟨index, read⟩ :=
    List.getElem?_of_mem ((get?_eq_some_iff (spaced_ofList start positive)).mp found)
  rw [getElem?_toList_ofList, Option.map_eq_some_iff] at read
  obtain ⟨_, -, same⟩ := read
  have eq := congrArg Prod.fst same
  dsimp only at eq
  omega

/-- Each element is found where those before it end, and nowhere else. The next one is going to be
where all of them end, the list has them in their order, with offsets that increase, and any look-up
gives what is found by going through the list. -/
theorem ofList_refines_search (start : Nat) (items : List (Nat × α))
    (positive : ∀ item ∈ items, 1 ≤ item.1) :
    let slots := ofList start items
    slots.size = items.length ∧
      slots.next = start + totalWidth items ∧
      slots.toList.map Prod.snd = items.map Prod.snd ∧
      (slots.toList.map Prod.fst).Pairwise (· < ·) ∧
      (∀ index, slots.toList[index]? =
        items[index]?.map fun item => (start + totalWidth (items.take index), item.2)) ∧
      (∀ offset, slots.get? offset = slots.toList.lookup offset) ∧
      (∀ index item, items[index]? = some item → ∀ inside < item.1,
        slots.get? (start + totalWidth (items.take index) + inside) =
          if inside = 0 then some item.2 else none) ∧
      ∀ offset, offset < start ∨ slots.next ≤ offset → slots.get? offset = none := by
  intro slots
  have spaced : slots.Spaced := spaced_ofList start positive
  refine ⟨size_ofList start items, next_ofList start items, map_snd_toList_ofList start items,
    List.pairwise_map.mpr spaced.increasing, getElem?_toList_ofList start items,
    spaced.get?_eq_lookup, fun index item found inside lt => get?_ofList positive found lt, ?_⟩
  rintro offset (before | past)
  · exact get?_ofList_of_lt positive before
  · exact spaced.get?_eq_none_of_next_le past

/-- Elements of one, three and two slots, from slot one on. -/
theorem ofList_refines_search_of_three :
    let items := [(1, 'a'), (3, 'b'), (2, 'c')]
    let slots := ofList 1 items
    (∀ item ∈ items, 1 ≤ item.1) ∧ slots.toList = [(1, 'a'), (2, 'b'), (5, 'c')] ∧
      slots.next = 7 ∧ slots.get? 2 = some 'b' ∧ slots.get? 4 = none ∧ slots.get? 0 = none ∧
      slots.get? 7 = none := by
  intro items slots
  have positive : ∀ item ∈ items, 1 ≤ item.1 := by decide
  obtain ⟨-, next, -, -, -, -, at_, outside⟩ := ofList_refines_search 1 items positive
  exact ⟨positive, rfl, next, at_ 1 (3, 'b') rfl 0 (by decide), at_ 1 (3, 'b') rfl 2 (by decide),
    outside 0 (by decide), outside 7 (by decide)⟩

end HotSwap.SlotArray
