import HotSwap.Text.ModifiedUtf8

/-! # The groups of a written text

A written text is a sequence of groups of bytes, each of which stands for a code unit. A group
has one of three shapes, which its first byte tells, and the bits that do not tell the shape make
up the unit. The shapes overlap: a unit that fits into a short group can be written in a longer
one too. Reading accepts every group, while writing takes the shortest one. -/

namespace HotSwap.ModifiedUtf8

/-- The bytes of a code unit, in one of the three shapes. -/
inductive Group
  | one (head : UInt8) (headBounds : 0 < head.toNat ∧ head.toNat < 0x80)
  | two (head tail : UInt8) (headBounds : 0xC0 ≤ head.toNat ∧ head.toNat < 0xE0)
      (tailBounds : 0x80 ≤ tail.toNat ∧ tail.toNat < 0xC0)
  | three (head middle tail : UInt8) (headBounds : 0xE0 ≤ head.toNat ∧ head.toNat < 0xF0)
      (middleBounds : 0x80 ≤ middle.toNat ∧ middle.toNat < 0xC0)
      (tailBounds : 0x80 ≤ tail.toNat ∧ tail.toNat < 0xC0)
  deriving DecidableEq, Repr

namespace Group

def bytes : Group → Bytes
  | one head _ => [head]
  | two head tail _ _ => [head, tail]
  | three head middle tail _ _ _ => [head, middle, tail]

/-- The bits that do not tell the shape: five of the first byte of two, four of the first byte of
three, and six of every other. -/
def number : Group → Nat
  | one head _ => head.toNat
  | two head tail _ _ => head.toNat % 0x20 * 0x40 + tail.toNat % 0x40
  | three head middle tail _ _ _ =>
      head.toNat % 0x10 * 0x1000 + middle.toNat % 0x40 * 0x40 + tail.toNat % 0x40

/-- The unit for which a group stands. -/
def unit (group : Group) : UInt16 :=
  UInt16.ofNat group.number

theorem number_lt (group : Group) : group.number < 0x10000 := by
  cases group <;> simp only [number] <;> omega

theorem toNat_unit (group : Group) : group.unit.toNat = group.number :=
  UInt16.toNat_ofNat_of_lt' group.number_lt

theorem toUInt16_eq {head : UInt8} (headBounds : 0 < head.toNat ∧ head.toNat < 0x80) :
    head.toUInt16 = (one head headBounds).unit := by
  rw [← UInt16.toNat_inj, toNat_unit, UInt8.toNat_toUInt16, number]

/-- A group is read as its unit, whatever follows. -/
theorem unitsAfter_append (group : Group) (found : List UInt16) (rest : Bytes) :
    unitsAfter found (group.bytes ++ rest) = unitsAfter (group.unit :: found) rest := by
  cases group with
  | one head headBounds =>
      have single : isSingle head = true := by simpa [isSingle] using headBounds
      rw [bytes, List.singleton_append, ← toUInt16_eq headBounds, unitsAfter.eq_def]
      simp only [single, if_true]
  | two head tail headBounds tailBounds =>
      have notSingle : isSingle head = false := by
        simp only [isSingle, Bool.and_eq_false_iff, decide_eq_false_iff_not]
        omega
      have isTwo : isHeadOfTwo head = true := by simpa [isHeadOfTwo] using headBounds
      have continues : isContinuation tail = true := by simpa [isContinuation] using tailBounds
      rw [bytes, List.cons_append, List.singleton_append, unitsAfter.eq_def]
      simp only [notSingle, isTwo, continues, if_true, Bool.false_eq_true, if_false]
      rfl
  | three head middle tail headBounds middleBounds tailBounds =>
      have notSingle : isSingle head = false := by
        simp only [isSingle, Bool.and_eq_false_iff, decide_eq_false_iff_not]
        omega
      have notTwo : isHeadOfTwo head = false := by
        simp only [isHeadOfTwo, Bool.and_eq_false_iff, decide_eq_false_iff_not]
        omega
      have isThree : isHeadOfThree head = true := by simpa [isHeadOfThree] using headBounds
      have continues : isContinuation middle = true := by
        simpa [isContinuation] using middleBounds
      have ends : isContinuation tail = true := by simpa [isContinuation] using tailBounds
      rw [bytes, List.cons_append, List.cons_append, List.singleton_append, unitsAfter.eq_def]
      simp only [notSingle, notTwo, isThree, continues, ends, Bool.and_self, if_true,
        Bool.false_eq_true, if_false]
      rfl

/-- No byte of a group is zero, and none begins a group of more than three bytes. -/
theorem byte_bounds (group : Group) :
    ∀ byte ∈ group.bytes, 0 < byte.toNat ∧ byte.toNat < 0xF0 := by
  cases group with
  | one head headBounds =>
      rw [bytes, List.forall_mem_singleton]
      omega
  | two head tail headBounds tailBounds =>
      rw [bytes, List.forall_mem_cons, List.forall_mem_singleton]
      omega
  | three head middle tail headBounds middleBounds tailBounds =>
      rw [bytes, List.forall_mem_cons, List.forall_mem_cons, List.forall_mem_singleton]
      omega

/-- A unit is written in a group that stands for it. -/
theorem exists_of_unit (unit : UInt16) :
    ∃ group : Group, group.bytes = encodeUnit unit ∧ group.unit = unit := by
  have bound := unit.toNat_lt
  have byte {number : Nat} (small : number < 0x100) : (UInt8.ofNat number).toNat = number :=
    UInt8.toNat_ofNat_of_lt' small
  have tail := byte (by omega : 0x80 + unit.toNat % 0x40 < 0x100)
  unfold encodeUnit
  dsimp only
  split
  · next isOne =>
    have head := byte (by omega : unit.toNat < 0x100)
    refine ⟨.one _ (by omega), rfl, ?_⟩
    rw [Group.unit, number, head, UInt16.ofNat_toNat]
  · next notOne =>
    split
    · next isTwo =>
      have head := byte (by omega : 0xC0 + unit.toNat / 0x40 < 0x100)
      have bits : (0xC0 + unit.toNat / 0x40) % 0x20 * 0x40 + (0x80 + unit.toNat % 0x40) % 0x40 =
          unit.toNat := by
        omega
      refine ⟨.two _ _ (by omega) (by omega), rfl, ?_⟩
      rw [Group.unit, number, head, tail, bits, UInt16.ofNat_toNat]
    · next notTwo =>
      have head := byte (by omega : 0xE0 + unit.toNat / 0x1000 < 0x100)
      have middle := byte (by omega : 0x80 + unit.toNat / 0x40 % 0x40 < 0x100)
      have bits : (0xE0 + unit.toNat / 0x1000) % 0x10 * 0x1000 +
          (0x80 + unit.toNat / 0x40 % 0x40) % 0x40 * 0x40 + (0x80 + unit.toNat % 0x40) % 0x40 =
          unit.toNat := by
        omega
      refine ⟨.three _ _ _ (by omega) (by omega) (by omega), rfl, ?_⟩
      rw [Group.unit, number, head, middle, tail, bits, UInt16.ofNat_toNat]

end Group

/-- The bytes that a unit needs. The unit zero has no group of one byte. -/
def bytesNeeded (unit : UInt16) : Nat :=
  if unit.toNat = 0 then 2
  else if unit.toNat < 0x80 then 1
  else if unit.toNat < 0x800 then 2
  else 3

theorem length_encodeUnit (unit : UInt16) : (encodeUnit unit).length = bytesNeeded unit := by
  unfold encodeUnit bytesNeeded
  dsimp only
  split
  · next one => rw [if_neg (by omega), if_pos one.2, List.length_singleton]
  · next notOne =>
    split
    · next two =>
      split
      · rfl
      · rw [if_neg (by omega)]
        rfl
    · next notTwo =>
      rw [if_neg (by omega), if_neg (by omega)]
      rfl

theorem bytesNeeded_le_three (unit : UInt16) : bytesNeeded unit ≤ 3 := by
  unfold bytesNeeded
  split
  · decide
  · split
    · decide
    · split <;> decide

theorem of_two_le_bytesNeeded {unit : UInt16} (long : 2 ≤ bytesNeeded unit) :
    ¬(0 < unit.toNat ∧ unit.toNat < 0x80) := by
  rintro ⟨positive, small⟩
  rw [bytesNeeded, if_neg (Nat.ne_of_gt positive), if_pos small] at long
  omega

theorem of_three_le_bytesNeeded {unit : UInt16} (long : 3 ≤ bytesNeeded unit) :
    0x800 ≤ unit.toNat := by
  apply Nat.le_of_not_lt
  intro small
  rw [bytesNeeded, if_pos small] at long
  split at long
  · omega
  · split at long <;> omega

namespace Group

/-- A group has at least the bytes that its unit needs. -/
theorem bytesNeeded_le (group : Group) : bytesNeeded group.unit ≤ group.bytes.length := by
  cases group with
  | one head headBounds =>
      rw [bytesNeeded, toNat_unit, number, if_neg (by omega), if_pos headBounds.2]
      exact Nat.le_refl 1
  | two head tail headBounds tailBounds =>
      have small : head.toNat % 0x20 * 0x40 + tail.toNat % 0x40 < 0x800 := by omega
      rw [bytesNeeded, toNat_unit, number, if_pos small]
      change _ ≤ 2
      split
      · exact Nat.le_refl 2
      · split <;> decide
  | three head middle tail headBounds middleBounds tailBounds => exact bytesNeeded_le_three _

/-- Only the shortest group of a unit is what the unit is written as. -/
theorem encodeUnit_eq_iff (group : Group) :
    encodeUnit group.unit = group.bytes ↔ group.bytes.length ≤ bytesNeeded group.unit := by
  constructor
  · intro same
    apply Nat.le_of_eq
    rw [← same, length_encodeUnit]
  · intro short
    have written (byte : UInt8) {number : Nat} (same : number = byte.toNat) :
        UInt8.ofNat number = byte := by
      rw [same, UInt8.ofNat_toNat]
    cases group with
    | one head headBounds =>
        rw [encodeUnit, toNat_unit, number, if_pos headBounds, UInt8.ofNat_toNat]
        rfl
    | two head tail headBounds tailBounds =>
        have long := of_two_le_bytesNeeded short
        rw [toNat_unit, number] at long
        rw [encodeUnit, toNat_unit, number, if_neg long, if_pos (by omega),
          written head (by omega), written tail (by omega), bytes]
    | three head middle tail headBounds middleBounds tailBounds =>
        have long := of_three_le_bytesNeeded short
        rw [toNat_unit, number] at long
        rw [encodeUnit, toNat_unit, number, if_neg (by omega), if_neg (by omega),
          written head (by omega), written middle (by omega), written tail (by omega), bytes]

end Group

variable {bytes : Bytes} {found units : List UInt16}

theorem unitsAfter_flatMap_bytes (groups : List Group) (found : List UInt16) :
    unitsAfter found (groups.flatMap Group.bytes) = some (found.reverse ++ groups.map Group.unit) := by
  induction groups generalizing found with
  | nil => simp [unitsAfter]
  | cons group groups ih =>
      rw [List.flatMap_cons, group.unitsAfter_append, ih, List.reverse_cons, List.append_assoc,
        List.singleton_append, List.map_cons]

/-- Bytes are read as units if they are a sequence of groups. -/
theorem exists_groups_of_unitsAfter (read : unitsAfter found bytes = some units) :
    ∃ groups : List Group,
      bytes = groups.flatMap Group.bytes ∧ units = found.reverse ++ groups.map Group.unit := by
  have push (group : Group) {found : List UInt16} {rest : Bytes}
      (later : ∃ groups : List Group, rest = groups.flatMap Group.bytes ∧
        units = (group.unit :: found).reverse ++ groups.map Group.unit) :
      ∃ groups : List Group, group.bytes ++ rest = groups.flatMap Group.bytes ∧
        units = found.reverse ++ groups.map Group.unit := by
    obtain ⟨groups, rfl, rfl⟩ := later
    refine ⟨group :: groups, rfl, ?_⟩
    rw [List.reverse_cons, List.append_assoc]
    rfl
  fun_induction unitsAfter found bytes with
  | case1 found =>
      cases read
      exact ⟨[], rfl, (List.append_nil _).symm⟩
  | case2 found head rest single ih =>
      have headBounds : 0 < head.toNat ∧ head.toNat < 0x80 := by simpa [isSingle] using single
      rw [Group.toUInt16_eq headBounds] at ih read
      exact push (.one head headBounds) (ih read)
  | case3 found head _ isTwo tail rest continues ih =>
      have headBounds : 0xC0 ≤ head.toNat ∧ head.toNat < 0xE0 := by
        simpa [isHeadOfTwo] using isTwo
      have tailBounds : 0x80 ≤ tail.toNat ∧ tail.toNat < 0xC0 := by
        simpa [isContinuation] using continues
      exact push (.two head tail headBounds tailBounds) (ih read)
  | case6 found head _ _ isThree middle tail rest continues ih =>
      have headBounds : 0xE0 ≤ head.toNat ∧ head.toNat < 0xF0 := by
        simpa [isHeadOfThree] using isThree
      rw [Bool.and_eq_true] at continues
      have middleBounds : 0x80 ≤ middle.toNat ∧ middle.toNat < 0xC0 := by
        simpa [isContinuation] using continues.1
      have tailBounds : 0x80 ≤ tail.toNat ∧ tail.toNat < 0xC0 := by
        simpa [isContinuation] using continues.2
      exact push (.three head middle tail headBounds middleBounds tailBounds) (ih read)
  | case4 | case5 | case7 | case8 | case9 => cases read

theorem units?_eq_some_iff :
    units? bytes = some units ↔
      ∃ groups : List Group, bytes = groups.flatMap Group.bytes ∧ units = groups.map Group.unit := by
  constructor
  · intro read
    exact exists_groups_of_unitsAfter read
  · rintro ⟨groups, rfl, rfl⟩
    exact unitsAfter_flatMap_bytes groups []

/-- The units of groups take at most the bytes of the groups when they are written. -/
theorem length_flatMap_encodeUnit_le (groups : List Group) :
    ((groups.map Group.unit).flatMap encodeUnit).length ≤ (groups.flatMap Group.bytes).length := by
  induction groups with
  | nil => exact Nat.le_refl 0
  | cons group groups ih =>
      rw [List.map_cons, List.flatMap_cons, List.flatMap_cons, List.length_append,
        List.length_append, length_encodeUnit]
      exact Nat.add_le_add group.bytesNeeded_le ih

/-- The units of groups are written as these groups if all of them are as short as they can be. -/
theorem flatMap_encodeUnit_eq_iff (groups : List Group) :
    (groups.map Group.unit).flatMap encodeUnit = groups.flatMap Group.bytes ↔
      ∀ group ∈ groups, group.bytes.length ≤ bytesNeeded group.unit := by
  induction groups with
  | nil => simp
  | cons group groups ih =>
      rw [List.map_cons, List.flatMap_cons, List.flatMap_cons, List.forall_mem_cons, ← ih,
        ← group.encodeUnit_eq_iff]
      constructor
      · intro same
        -- no group can make up for another one that is too long
        have lengths := congrArg List.length same
        have first := group.bytesNeeded_le
        have others := length_flatMap_encodeUnit_le groups
        rw [List.length_append, List.length_append, length_encodeUnit] at lengths
        apply List.append_inj same
        rw [length_encodeUnit]
        omega
      · rintro ⟨first, others⟩
        rw [first, others]

end HotSwap.ModifiedUtf8
