import HotSwap.Proofs.Correspondence
import HotSwap.Proofs.Renumbering

/-! # Code behind the last counterpart

When the old code is at its end, the rest of the new code does not matter, nor does it matter what
comes after it. The instructions that can be read of a code are also the first ones of a longer
code, although what could not be read before may then be the beginning of an instruction. A
pairing takes none of those that are added: each old instruction has got its counterpart already,
and the search for one goes from front to back. -/

namespace HotSwap

/-- What can be read of a code is what is read first when other bytes follow. -/
theorem Cursor.Lists.instructions_append {cursor : Cursor} {listing : Listing}
    (h : Lists cursor listing) (trailing : Bytes) :
    listing.instructions <+: (list ⟨cursor.position, cursor.rest ++ trailing⟩).instructions := by
  induction h with
  | atEnd position => exact List.nil_prefix
  | fault nonempty read => exact List.nil_prefix
  | @step position input instruction listing read tail ih =>
      have length := Instruction.length_encoding read
      have rest : (input ++ trailing).drop instruction.encoding.length =
          input.drop instruction.encoding.length ++ trailing :=
        List.drop_append_of_le_length length.2
      have longer := Lists.step (Instruction.decode_append read trailing) (lists_list _)
      rw [rest] at longer
      rw [lists_iff.mp longer]
      exact List.cons_prefix_cons.mpr ⟨rfl, ih⟩

namespace Pairing

variable {oldSymbols newSymbols : Symbols} {relocation : Relocation} {old found : Instruction}
  {olds news rest : List Instruction} {targets : List (Nat × Nat)} {pairing : Pairing}

/-- The search for an instruction ends where it is found. -/
theorem firstFit?_append_of_eq_some {start : Nat}
    (h : firstFit? oldSymbols newSymbols relocation start old news = some (found, targets, rest))
    (later : List Instruction) :
    firstFit? oldSymbols newSymbols relocation start old (news ++ later) =
      some (found, targets, rest ++ later) := by
  induction news with
  | nil => cases h
  | cons new news ih =>
      rw [firstFit?] at h
      split at h
      · next fits =>
        cases h
        rw [List.cons_append, firstFit?, fits]
      · next unfit =>
        rw [List.cons_append, firstFit?, unfit]
        exact ih h

/-- Nothing is taken of what comes after the last counterpart. -/
theorem pairUp?_append_of_eq_some
    (h : pairUp? oldSymbols newSymbols relocation olds news = some pairing)
    (later : List Instruction) :
    pairUp? oldSymbols newSymbols relocation olds (news ++ later) = some pairing := by
  induction olds generalizing relocation news pairing with
  | nil => exact h
  | cons old olds ih =>
      cases news with
      | nil => cases h
      | cons new news =>
          rw [pairUp?] at h
          split at h
          · next fits =>
            obtain ⟨pairing, paired, rfl⟩ := Option.map_eq_some_iff.mp h
            rw [List.cons_append, pairUp?_cons fits, ih paired, Option.map_some]
          · next unfit =>
            split at h
            · next first =>
              obtain ⟨pairing, paired, rfl⟩ := Option.map_eq_some_iff.mp h
              simp only [List.cons_append, pairUp?, unfit,
                firstFit?_append_of_eq_some first later, ih paired, Option.map_some]
            · cases h

end Pairing

namespace Version

variable {old new : Version} {relocation : Relocation}

/-- The same version with more bytes at the end of its code. -/
def followedBy (version : Version) (trailing : Bytes) : Version :=
  { version with body := { version.body with code := version.body.code ++ trailing } }

theorem listing_followedBy (version : Version) (trailing : Bytes) :
    version.listing.instructions <+: (version.followedBy trailing).listing.instructions :=
  (Cursor.lists_list (.start version.body.code)).instructions_append trailing

/-- More code at the end of the new version is no obstacle. -/
theorem obstacle?_followedBy
    (compatible : Mode.switchable.obstacle? old.body new.body = none) (trailing : Bytes) :
    Mode.switchable.obstacle? old.body (new.followedBy trailing).body = none := by
  rw [Mode.obstacle?_eq_none_iff] at compatible ⊢
  obtain ⟨maxStack, maxLocals, entrySlots, lengths⟩ := compatible
  refine ⟨maxStack, maxLocals, entrySlots, ?_⟩
  simp only [Mode.admitsLengths, followedBy, List.length_append, decide_eq_true_eq] at lengths ⊢
  omega

theorem pairing?_followedBy {pairing : Pairing} (h : old.pairing? new = some pairing)
    (trailing : Bytes) : old.pairing? (new.followedBy trailing) = some pairing := by
  obtain ⟨later, longer⟩ := new.listing_followedBy trailing
  unfold pairing? at h ⊢
  split at h
  · next complete =>
    rw [if_pos complete, ← longer]
    exact Pairing.pairUp?_append_of_eq_some h later
  · cases h

/-- A relocation to a version leads to it also when more code is at its end, and this code may be
anything. -/
theorem relocation?_followedBy (h : old.relocation? new = some relocation) (trailing : Bytes) :
    old.relocation? (new.followedBy trailing) = some relocation := by
  obtain ⟨compatible, pairing, paired, settled, eq⟩ := relocation?_eq_some_iff.mp h
  apply relocation?_eq_some_iff.mpr
  exact ⟨obstacle?_followedBy compatible trailing, pairing, pairing?_followedBy paired trailing,
    settled, eq⟩

/-- At the end of the new code is the beginning of a switch. With the bytes that follow, it is
read to its end, and the jump in front of it goes to the same place as before. -/
theorem relocation?_followedBy_table :
    let old := ofCode [0xa7, 0, 3, 0xb1]
    let new := ofCode [0, 0xa7, 0, 4, 0, 0xb1, 0xaa, 0, 0, 0, 0, 0]
    let trailing : Bytes := [0, 0, 0, 0, 0, 0, 0, 0, 0, 0, 0, 0, 0xff]
    let relocation : Relocation := ⟨#[⟨0, 0, 1⟩, ⟨3, 4, 5⟩]⟩
    new.listing.instructions.length + 1 =
        (new.followedBy trailing).listing.instructions.length ∧
      old.relocation? new = some relocation ∧
      old.relocation? (new.followedBy trailing) = some relocation := by
  intro old new trailing relocation
  have h : old.relocation? new = some relocation := by decide +kernel
  exact ⟨by decide +kernel, h, relocation?_followedBy h trailing⟩

end Version

end HotSwap
