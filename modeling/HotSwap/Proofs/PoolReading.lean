import HotSwap.Proofs.ConstantPool
import HotSwap.Proofs.ModifiedUtf8
import HotSwap.Proofs.Wire

/-! # Constant pools are read as they were written

A constant is told by its tag, and its texts by their lengths. The indices are not written:
an entry gets its index back because the entries before it have the same widths. What a pool
keeps beside its entries is not written. -/

namespace HotSwap

open Reader (Reads)

namespace ReferenceKind

theorem ofNumber?_number (kind : ReferenceKind) : ofNumber? kind.number = some kind := by
  cases kind <;> rfl

theorem reads (kind : ReferenceKind) : Reads read (Word.u8.encode kind.number) kind := by
  refine (Reader.reads_word .u8 kind.number).bind_nil ?_
  rw [ofNumber?_number]
  exact Reader.reads_pure kind

end ReferenceKind

namespace Constant

/-- Whether the length of a text can be written in front of it. -/
def Fits : Constant → Prop
  | utf8 text => (ModifiedUtf8.encode text).length ≤ 65535
  | _ => True

instance : DecidablePred Fits := fun constant =>
  match constant with
  | utf8 text => inferInstanceAs (Decidable ((ModifiedUtf8.encode text).length ≤ 65535))
  | integer _ | float _ | long _ | double _ | classRef _ | string _ | member .. | nameAndType ..
  | methodHandle .. | methodType _ | dynamic .. | invokeDynamic .. | moduleName _
  | packageName _ => isTrue trivial

variable {constant : Constant} {text : String}

theorem reads_text (fits : (utf8 text).Fits) : Reads readText (utf8 text).payload text := by
  refine Reader.reads_count fits ?_
  intro length eq
  refine (Reader.reads_block eq.symm).bind_nil ?_
  rw [ModifiedUtf8.decode?_encode]
  exact Reader.reads_pure text

/-- What follows the tag is read as it was written. -/
theorem reads_payload (fits : constant.Fits) (index : Nat) :
    Reads (readPayload index constant.tag) constant.payload constant := by
  have word (kind : Word) (value : kind.Value) := Reader.reads_word kind value
  have pair (first second : UInt16) (build : UInt16 → UInt16 → Constant) :
      Reads (do return build (← Reader.u16) (← Reader.u16))
        (Word.u16.encode first ++ Word.u16.encode second) (build first second) :=
    (word .u16 first).bind ((word .u16 second).map _)
  cases constant with
  | utf8 text => exact (reads_text fits).map utf8
  | integer value => exact (word .i32 value).map integer
  | float bits => exact (word .f32 bits).map float
  | long value => exact (word .i64 value).map long
  | double bits => exact (word .f64 bits).map double
  | classRef name => exact (word .u16 name).map classRef
  | string text => exact (word .u16 text).map string
  | member kind owner signature =>
      cases kind with
      | field => exact pair owner signature (member .field)
      | method => exact pair owner signature (member .method)
      | interfaceMethod => exact pair owner signature (member .interfaceMethod)
  | nameAndType name descriptor => exact pair name descriptor nameAndType
  | methodHandle kind target => exact kind.reads.bind ((word .u16 target).map _)
  | methodType descriptor => exact (word .u16 descriptor).map methodType
  | dynamic bootstrap signature => exact pair bootstrap signature dynamic
  | invokeDynamic bootstrap signature => exact pair bootstrap signature invokeDynamic
  | moduleName name => exact (word .u16 name).map moduleName
  | packageName name => exact (word .u16 name).map packageName

theorem reads (fits : constant.Fits) (index : Nat) :
    Reads (read index) constant.encode constant :=
  (Reader.reads_word .u8 constant.tag).bind (reads_payload fits index)

end Constant

namespace ConstantPool

/-- The pool as it is when it was just read: nothing is resolved, and nothing was asked for. -/
def justRead (pool : ConstantPool) : ConstantPool :=
  ⟨pool.entries, [], []⟩

/-- Whether all constants fit. -/
def Fits (pool : ConstantPool) : Prop :=
  ∀ entry ∈ pool.entries.toList, entry.2.Fits

instance : DecidablePred Fits := fun pool =>
  inferInstanceAs (Decidable (∀ entry ∈ pool.entries.toList, entry.2.Fits))

theorem map_snd_slots (constants : List Constant) :
    (slots constants).toList.map (·.2) = constants := by
  induction constants using List.reverseRecOn with
  | nil => rfl
  | append_singleton constants constant ih =>
      rw [slots_append, SlotArray.toList_push, List.map_append, ih]
      rfl

theorem next_slots_le (front back : List Constant) :
    (slots front).next ≤ (slots (front ++ back)).next := by
  induction back using List.reverseRecOn with
  | nil => exact Nat.le_of_eq (by rw [List.append_nil])
  | append_singleton back constant ih =>
      rw [← List.append_assoc, slots_append]
      exact Nat.le_trans ih (Nat.le_add_right _ _)

variable {pool last : ConstantPool} {constant : Constant} {count : Nat} {bytes : Bytes}

theorem reads_readUpTo_nil (atEnd : ¬pool.next < count) : Reads (readUpTo count pool) [] pool := by
  intro rest
  rw [StateT.run, readUpTo, if_neg atEnd]
  rfl

theorem reads_readUpTo_cons (below : pool.next < count) (fits : constant.Fits)
    (room : pool.HasRoom constant)
    (later : Reads (readUpTo count (pool.push constant)) bytes last) :
    Reads (readUpTo count pool) (constant.encode ++ bytes) last := by
  intro rest
  have first : Constant.read pool.next (constant.encode ++ (bytes ++ rest)) =
      .ok (constant, bytes ++ rest) := Constant.reads fits pool.next _
  rw [StateT.run, readUpTo, if_pos below, List.append_assoc, first]
  dsimp only
  rw [if_pos room]
  exact later rest

/-- Behind the constants that were read already, the others are read one by one. -/
theorem reads_readUpTo (front back : List Constant)
    (room : (slots (front ++ back)).next ≤ 65535) (fits : ∀ constant ∈ back, constant.Fits) :
    Reads (readUpTo (slots (front ++ back)).next ⟨slots front, [], []⟩)
      (back.flatMap Constant.encode) ⟨slots (front ++ back), [], []⟩ := by
  induction back generalizing front with
  | nil =>
      rw [List.append_nil]
      exact reads_readUpTo_nil (Nat.lt_irrefl _)
  | cons constant back ih =>
      have split : front ++ constant :: back = (front ++ [constant]) ++ back := by simp
      rw [List.forall_mem_cons] at fits
      rw [split] at room ⊢
      have later := ih (front ++ [constant]) room fits.2
      have reached := next_slots_le (front ++ [constant]) back
      have positive := constant.width_pos
      rw [slots_append front constant, SlotArray.push] at reached
      dsimp only at reached
      refine reads_readUpTo_cons ?_ fits.1 (Nat.le_trans reached room) ?_
      · simp only [next]
        omega
      · rw [push, ← slots_append]
        exact later

/-- A pool whose constants fit is read as it was written, up to what it keeps beside its
entries. -/
theorem Sound.reads (sound : pool.Sound) (fits : pool.Fits) :
    Reads read pool.encode pool.justRead := by
  obtain ⟨constants, eq⟩ := sound.entries
  have room := sound.next_le
  have eachFits : ∀ constant ∈ constants, constant.Fits := by
    rw [← map_snd_slots constants, ← eq]
    exact List.forall_mem_map.mpr fits
  have written : pool.entries.toList.flatMap (·.2.encode) = constants.flatMap Constant.encode := by
    rw [eq]
    nth_rewrite 2 [← map_snd_slots constants]
    rw [List.flatMap_map]
  have whole := reads_readUpTo [] constants (by rwa [List.nil_append, ← eq]) eachFits
  rw [List.nil_append, ← eq, ← written] at whole
  refine Reader.reads_count room ?_
  intro count same
  rw [same]
  exact whole

end ConstantPool

end HotSwap
