import HotSwap.Proofs.Interning
import HotSwap.Proofs.Rewriting

/-! # Constant pools are told by their bytes

A pool that was built or read has room for all of its indices, so its count and its entries say
which constant is at which index. Only a text can be too long: no more than its length modulo
65536 is written in front of it. But a text that was read is never too long, whatever the bytes
were, so a pool with a text that is too long is read from no bytes at all. -/

namespace HotSwap

theorem ModifiedUtf8.length_encode_replicate (count : Nat) :
    (encode (String.ofList (List.replicate count 'a'))).length = count := by
  induction count with
  | zero => rfl
  | succ count ih =>
      rw [encode, String.toList_ofList] at ih ⊢
      rw [List.replicate_succ, Utf16.encode, List.flatMap_cons, List.flatMap_append,
        List.length_append, ← Utf16.encode, ih, Nat.add_comm]
      rfl

namespace ConstantPool

variable {pool again : ConstantPool} {input rest : Bytes}

theorem fits_iff_forall_toList : pool.Fits ↔ ∀ entry ∈ pool.toList, entry.2.Fits := by
  rw [toList, List.forall_mem_map]
  rfl

/-- No text that was read is too long to be written. -/
theorem fits_of_read (read : ConstantPool.read.run input = .ok (pool, rest)) : pool.Fits := by
  obtain ⟨image, shows_, -⟩ := takes_read input rest pool read
  exact shows_.fits

/-- A pool is read from its own bytes, up to where it ends, with the same constants at the same
indices, if the lengths of its texts can be written. If a length cannot be written, whatever is read
from its bytes is another pool. -/
theorem Reachable.reads_back (reachable : pool.Reachable) (rest : Bytes) :
    (pool.Fits → ∃ again, ConstantPool.read.run (pool.encode ++ rest) = .ok (again, rest) ∧
      again.toList = pool.toList) ∧
    (¬pool.Fits → ∀ (again : ConstantPool) (left : Bytes),
      ConstantPool.read.run (pool.encode ++ rest) = .ok (again, left) →
        again.toList ≠ pool.toList) := by
  constructor
  · intro fits
    exact ⟨pool.justRead, reachable.sound.reads fits rest, rfl⟩
  · intro tooLong again left read same
    apply tooLong
    rw [fits_iff_forall_toList, ← same, ← fits_iff_forall_toList]
    exact fits_of_read read

/-- A pool in which two entries take two indices each, one of them the last entry and the other one
not a number; and a pool with a text that is one byte longer than its length can say. -/
theorem reads_back_of_wide_entries :
    let pool := Call.afterAll [.append (.utf8 "a\x00𐀀"), .request (.double 0x7FF8000000000001),
      .request (.member .interfaceMethod "A" "m" "()V"), .resolve 5, .append (.long (-1))] .empty
    let long := String.ofList (List.replicate 65536 'a')
    let other := (Call.append (.utf8 long)).after .empty
    pool.Fits ∧ pool.next = 12 ∧
      (∃ again, ConstantPool.read.run (pool.encode ++ [1, 0]) = .ok (again, [1, 0]) ∧
        again.toList = pool.toList) ∧
      ¬other.Fits ∧
      ∀ (again : ConstantPool) (left : Bytes),
        ConstantPool.read.run (other.encode ++ [1, 0]) = .ok (again, left) →
          again.toList ≠ other.toList := by
  intro pool long other
  have reachable : pool.Reachable := .call (.call (.call (.call (.call .empty _) _) _) _) _
  have fits : pool.Fits := by decide +kernel
  have tooLong : ¬other.Fits := by
    intro fits
    have room : ConstantPool.empty.HasRoom (.utf8 long) := by decide
    have entry : (1, .utf8 long) ∈ other.entries.toList := by
      change _ ∈ ((Call.append (.utf8 long)).after .empty).entries.toList
      rw [Call.after_append, PoolM.append_run, if_pos room, push, SlotArray.toList_push]
      exact List.mem_append_right _ (List.mem_singleton_self _)
    have text : (Constant.utf8 long).Fits := fits _ entry
    have length : (ModifiedUtf8.encode long).length = 65536 :=
      ModifiedUtf8.length_encode_replicate 65536
    rw [Constant.Fits, length] at text
    omega
  exact ⟨fits, by decide +kernel, (reachable.reads_back [1, 0]).1 fits, tooLong,
    (Reachable.reads_back (.call .empty _) [1, 0]).2 tooLong⟩

end ConstantPool

end HotSwap
