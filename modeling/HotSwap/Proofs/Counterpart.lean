import HotSwap.Proofs.Decoding
import HotSwap.Proofs.Matching
import Mathlib.Data.List.Forall2

/-! # Counterparts

An instruction is the counterpart of another one if it does the same in its place: the
operands stand for the same things or are the same numbers, and jumps go to the places
to which their targets have moved. An instruction that fits is a counterpart as soon as
the targets that were left to be compared correspond to each other. -/

namespace HotSwap

/-- Operands that mean the same, if `lands` says which offsets of jumps do. A constant that is
computed when it is loaded equals no other. What tells a call site or a primitive type is not
looked at, and the count of an interface method follows from its descriptor. -/
inductive Operands.Alike (old new : Symbols) (lands : Int → Int → Prop) :
    Operands → Operands → Prop
  | none : Alike old new lands .none .none
  | classRef {i j : UInt16} {name : String} (oldMeans : old.className? i = some name)
      (newMeans : new.className? j = some name) : Alike old new lands (.classRef i) (.classRef j)
  | arrayClass {i j : UInt16} {name : String} (dimensions : UInt8)
      (oldMeans : old.className? i = some name) (newMeans : new.className? j = some name) :
      Alike old new lands (.arrayClass i dimensions) (.arrayClass j dimensions)
  | member {i j : UInt16} {symbol : MemberSymbol} (oldMeans : old.member? i = some symbol)
      (newMeans : new.member? j = some symbol) : Alike old new lands (.member i) (.member j)
  | interfaceMember {i j : UInt16} {symbol : MemberSymbol} (oldCount newCount : UInt8)
      (oldMeans : old.member? i = some symbol) (newMeans : new.member? j = some symbol) :
      Alike old new lands (.interfaceMember i oldCount) (.interfaceMember j newCount)
  | callSite (i j : UInt16) : Alike old new lands (.callSite i) (.callSite j)
  | constant {i j : UInt16} {value : Loadable} (fixed : value ≠ .dynamic)
      (oldMeans : old.loadable? i = some value) (newMeans : new.loadable? j = some value) :
      Alike old new lands (.constant i) (.constant j)
  | byte (value : Int) : Alike old new lands (.byte value) (.byte value)
  | short (value : Int) : Alike old new lands (.short value) (.short value)
  | elementType (oldCode newCode : UInt8) :
      Alike old new lands (.elementType oldCode) (.elementType newCode)
  | slot (index : Nat) : Alike old new lands (.slot index) (.slot index)
  | increment (slot : Nat) (amount : Int) :
      Alike old new lands (.increment slot amount) (.increment slot amount)
  | jump {oldOffset newOffset : Int} (goes : lands oldOffset newOffset) :
      Alike old new lands (.jump oldOffset) (.jump newOffset)
  | tableSwitch {oldOtherwise newOtherwise : Int} (low high : Int) {olds news : List Int}
      (otherwise : lands oldOtherwise newOtherwise) (cases : List.Forall₂ lands olds news) :
      Alike old new lands (.tableSwitch oldOtherwise low high olds)
        (.tableSwitch newOtherwise low high news)
  | lookupSwitch {oldOtherwise newOtherwise : Int} {olds news : List (Int × Int)}
      (otherwise : lands oldOtherwise newOtherwise)
      (cases : List.Forall₂ (fun first second => first.1 = second.1 ∧ lands first.2 second.2)
        olds news) :
      Alike old new lands (.lookupSwitch oldOtherwise olds) (.lookupSwitch newOtherwise news)

theorem agree_eq_true_iff {α : Type} [DecidableEq α] {first second : Option α} :
    agree first second = true ↔ ∃ value, first = some value ∧ second = some value := by
  cases first with
  | none => simp [agree]
  | some value =>
      cases second with
      | none => simp [agree]
      | some other =>
          simp only [agree, beq_iff_eq, Option.some.injEq]
          exact ⟨fun eq => ⟨value, rfl, eq.symm⟩, fun ⟨_, eq, eq'⟩ => eq.trans eq'.symm⟩

theorem sameLoadable_eq_true_iff {first second : Option Loadable} :
    sameLoadable first second = true ↔
      ∃ value, value ≠ .dynamic ∧ first = some value ∧ second = some value := by
  rw [sameLoadable, Bool.and_eq_true, agree_eq_true_iff]
  constructor
  · rintro ⟨fixed, value, rfl, rfl⟩
    exact ⟨value, by simpa using fixed, rfl, rfl⟩
  · rintro ⟨value, fixed, rfl, rfl⟩
    exact ⟨by simpa using fixed, value, rfl, rfl⟩

namespace Operands

/-- Whether operands are those of a jump or a switch. -/
def hasOffsets : Operands → Bool
  | jump _ | tableSwitch .. | lookupSwitch .. => true
  | _ => false

variable {oldSymbols newSymbols : Symbols} {lands : Int → Int → Prop} {old new : Operands}

theorem alike_of_sameMeaning (same : old.sameMeaning oldSymbols newSymbols new = true) :
    Alike oldSymbols newSymbols lands old new := by
  unfold sameMeaning at same
  split at same
  · exact .none
  · obtain ⟨_, oldMeans, newMeans⟩ := agree_eq_true_iff.mp same
    exact .classRef oldMeans newMeans
  · rw [Bool.and_eq_true, beq_iff_eq] at same
    obtain ⟨class_, rfl⟩ := same
    obtain ⟨_, oldMeans, newMeans⟩ := agree_eq_true_iff.mp class_
    exact .arrayClass _ oldMeans newMeans
  · obtain ⟨_, oldMeans, newMeans⟩ := agree_eq_true_iff.mp same
    exact .member oldMeans newMeans
  · obtain ⟨_, oldMeans, newMeans⟩ := agree_eq_true_iff.mp same
    exact .interfaceMember _ _ oldMeans newMeans
  · exact .callSite _ _
  · obtain ⟨_, fixed, oldMeans, newMeans⟩ := sameLoadable_eq_true_iff.mp same
    exact .constant fixed oldMeans newMeans
  · cases beq_iff_eq.mp same
    exact .byte _
  · cases beq_iff_eq.mp same
    exact .short _
  · exact .elementType _ _
  · cases beq_iff_eq.mp same
    exact .slot _
  · rw [Bool.and_eq_true, beq_iff_eq, beq_iff_eq] at same
    obtain ⟨rfl, rfl⟩ := same
    exact .increment _ _
  · cases same

theorem Alike.tableSize_eq (alike : Alike oldSymbols newSymbols lands old new) :
    old.tableSize = new.tableSize := by
  cases alike with
  | tableSwitch low high otherwise cases => simp only [tableSize, cases.length_eq]
  | lookupSwitch otherwise cases => simp only [tableSize, cases.length_eq]
  | _ => rfl

theorem Alike.hasTable_eq (alike : Alike oldSymbols newSymbols lands old new) :
    old.hasTable = new.hasTable := by
  cases alike <;> rfl

theorem sameMeaning_of_alike (alike : Alike oldSymbols newSymbols lands old new)
    (noOffsets : old.hasOffsets = false) : old.sameMeaning oldSymbols newSymbols new = true := by
  cases alike with
  | none | callSite | elementType => rfl
  | classRef oldMeans newMeans | member oldMeans newMeans
  | interfaceMember _ _ oldMeans newMeans =>
      exact agree_eq_true_iff.mpr ⟨_, oldMeans, newMeans⟩
  | arrayClass dimensions oldMeans newMeans =>
      simp only [sameMeaning, beq_self_eq_true, Bool.and_true]
      exact agree_eq_true_iff.mpr ⟨_, oldMeans, newMeans⟩
  | constant fixed oldMeans newMeans =>
      exact sameLoadable_eq_true_iff.mpr ⟨_, fixed, oldMeans, newMeans⟩
  | byte | short | slot | increment => simp [sameMeaning]
  | jump | tableSwitch | lookupSwitch => cases noOffsets

end Operands

namespace Instruction

/-- Whether two jumps go to positions in the code, and the new one goes to the place of the target
of the old one. -/
def Lands (place : Nat → Nat) (old new : Instruction) (oldOffset newOffset : Int) : Prop :=
  ∃ target, old.target oldOffset = some target ∧ new.target newOffset = some (place target)

/-- Whether an instruction does the same as another one when old positions have moved. -/
structure Counterpart (oldSymbols newSymbols : Symbols) (place : Nat → Nat)
    (old new : Instruction) : Prop where
  opcode : old.opcode = new.opcode
  wide : old.wide = new.wide
  operands : Operands.Alike oldSymbols newSymbols (Lands place old new) old.operands new.operands

variable {oldSymbols newSymbols : Symbols} {place : Nat → Nat} {old new : Instruction}

theorem sameKind_iff : old.sameKind new = true ↔ old.opcode = new.opcode ∧ old.wide = new.wide := by
  simp [sameKind]

theorem lands_of_targetPairs? {offsets : List (Int × Int)} {targets : List (Nat × Nat)}
    (found : targetPairs? old new offsets = some targets)
    (settled : ∀ pair ∈ targets, place pair.1 = pair.2) :
    ∀ pair ∈ offsets, Lands place old new pair.1 pair.2 := by
  induction offsets generalizing targets with
  | nil => exact List.forall_mem_nil _
  | cons first rest ih =>
      simp only [targetPairs?, Option.bind_eq_bind, Option.bind_eq_some_iff] at found
      obtain ⟨oldTarget, oldFound, newTarget, newFound, later, foundLater, eq⟩ := found
      cases eq
      rw [List.forall_mem_cons] at settled ⊢
      obtain ⟨landed, settledLater⟩ := settled
      constructor
      · refine ⟨oldTarget, oldFound, ?_⟩
        rw [landed]
        exact newFound
      · exact ih foundLater settledLater

theorem targetPairs?_of_lands {offsets : List (Int × Int)}
    (lands : ∀ pair ∈ offsets, Lands place old new pair.1 pair.2) :
    ∃ targets, targetPairs? old new offsets = some targets ∧
      ∀ pair ∈ targets, place pair.1 = pair.2 := by
  induction offsets with
  | nil => exact ⟨[], rfl, List.forall_mem_nil _⟩
  | cons first rest ih =>
      rw [List.forall_mem_cons] at lands
      obtain ⟨⟨target, oldFound, newFound⟩, landsLater⟩ := lands
      obtain ⟨targets, found, settled⟩ := ih landsLater
      refine ⟨(target, place target) :: targets, ?_, ?_⟩
      · simp only [targetPairs?, oldFound, newFound, found]
        rfl
      · rw [List.forall_mem_cons]
        exact ⟨rfl, settled⟩

/-- The cases of two switches correspond if they have the same keys and their offsets do. -/
theorem forall₂_cases_iff {lands : Int → Int → Prop} {olds news : List (Int × Int)} :
    List.Forall₂ (fun first second => first.1 = second.1 ∧ lands first.2 second.2) olds news ↔
      olds.map (·.1) = news.map (·.1) ∧
        ∀ pair ∈ (olds.map (·.2)).zip (news.map (·.2)), lands pair.1 pair.2 := by
  induction olds generalizing news with
  | nil => cases news <;> simp
  | cons first olds ih =>
      cases news with
      | nil => simp
      | cons second news =>
          simp only [List.forall₂_cons, ih, List.map_cons, List.zip_cons_cons, List.cons.injEq,
            List.forall_mem_cons]
          exact and_and_and_comm

/-- An instruction that fits is a counterpart if the targets that it leads to correspond to each
other. -/
theorem counterpart_of_fit? {targets : List (Nat × Nat)}
    (fits : old.fit? oldSymbols newSymbols place new = some targets)
    (settled : ∀ pair ∈ targets, place pair.1 = pair.2)
    (sameSize : ∀ {oldOtherwise newOtherwise low high olds news},
      old.operands = .tableSwitch oldOtherwise low high olds →
      new.operands = .tableSwitch newOtherwise low high news → olds.length = news.length) :
    Counterpart oldSymbols newSymbols place old new := by
  unfold fit? at fits
  split at fits
  · next kind =>
    obtain ⟨opcode, wide⟩ := sameKind_iff.mp kind
    refine ⟨opcode, wide, ?_⟩
    unfold fitOperands? at fits
    split at fits
    · next oldOffset newOffset oldIs newIs =>
      rw [oldIs, newIs]
      split at fits
      · next oldTarget newTarget oldFound newFound =>
        refine .jump ⟨oldTarget, oldFound, ?_⟩
        split at fits
        · cases fits
          rw [newFound, settled _ List.mem_cons_self]
        · split at fits
          · next backward => rw [newFound, backward.2.2]
          · cases fits
      · cases fits
    · next oldOtherwise oldLow oldHigh olds newOtherwise newLow newHigh news oldIs newIs =>
      split at fits
      · next bounds =>
        obtain ⟨rfl, rfl⟩ := bounds
        have lands := lands_of_targetPairs? fits settled
        rw [oldIs, newIs]
        refine .tableSwitch _ _ (lands _ List.mem_cons_self) ?_
        rw [List.forall₂_iff_zip]
        exact ⟨sameSize oldIs newIs, fun mem => lands _ (List.mem_cons_of_mem _ mem)⟩
      · cases fits
    · next oldOtherwise olds newOtherwise news oldIs newIs =>
      split at fits
      · next keys =>
        have lands := lands_of_targetPairs? fits settled
        rw [oldIs, newIs]
        exact .lookupSwitch (lands _ List.mem_cons_self) (forall₂_cases_iff.mpr
          ⟨keys, fun pair mem => lands pair (List.mem_cons_of_mem _ mem)⟩)
      · cases fits
    · split at fits
      · next same => exact Operands.alike_of_sameMeaning same
      · cases fits
  · cases fits

/-- A counterpart fits, and the targets that it leads to correspond to each other. -/
theorem fit?_of_counterpart (counterpart : Counterpart oldSymbols newSymbols place old new)
    (sameDirection : ∀ {oldOffset newOffset}, old.operands = .jump oldOffset →
      new.operands = .jump newOffset → (0 < oldOffset ↔ 0 < newOffset)) :
    ∃ targets, old.fit? oldSymbols newSymbols place new = some targets ∧
      ∀ pair ∈ targets, place pair.1 = pair.2 := by
  obtain ⟨opcode, wide, alike⟩ := counterpart
  rw [fit?, if_pos (sameKind_iff.mpr ⟨opcode, wide⟩)]
  have unchanged (noOffsets : old.operands.hasOffsets = false) :
      fitOperands? oldSymbols newSymbols place old new = some [] := by
    have same := Operands.sameMeaning_of_alike alike noOffsets
    unfold fitOperands?
    split
    · next oldIs _ => rw [oldIs] at noOffsets; cases noOffsets
    · next oldIs _ => rw [oldIs] at noOffsets; cases noOffsets
    · next oldIs _ => rw [oldIs] at noOffsets; cases noOffsets
    · rw [if_pos same]
  cases noOffsets : old.operands.hasOffsets with
  | false => exact ⟨[], unchanged noOffsets, List.forall_mem_nil _⟩
  | true =>
      generalize oldIs : old.operands = oldOperands at alike noOffsets
      generalize newIs : new.operands = newOperands at alike
      unfold fitOperands?
      rw [oldIs, newIs]
      cases alike with
      | @jump oldOffset newOffset goes =>
          obtain ⟨target, oldFound, newFound⟩ := goes
          have direction := sameDirection oldIs newIs
          simp only [oldFound, newFound, and_true]
          split
          · exact ⟨_, rfl, by simp⟩
          · next notForward =>
            rw [if_pos (by omega)]
            exact ⟨[], rfl, List.forall_mem_nil _⟩
      | tableSwitch low high otherwise cases =>
          simp only [and_self, if_true]
          apply targetPairs?_of_lands
          rw [List.forall_mem_cons]
          exact ⟨otherwise, fun pair mem => List.forall₂_zip cases mem⟩
      | lookupSwitch otherwise cases =>
          obtain ⟨keys, lands⟩ := forall₂_cases_iff.mp cases
          simp only [keys, if_true]
          apply targetPairs?_of_lands
          rw [List.forall_mem_cons]
          exact ⟨otherwise, lands⟩
      | _ => cases noOffsets

/-- Counterparts are equally long, apart from padding. -/
theorem Counterpart.bareLength_eq
    (counterpart : Counterpart oldSymbols newSymbols place old new) :
    old.bareLength = new.bareLength := by
  simp only [bareLength, counterpart.opcode, counterpart.wide, counterpart.operands.tableSize_eq]

/-- Where positions behind an instruction are expected does not matter for whether it fits. -/
theorem fit?_congr {place' : Nat → Nat}
    (same : ∀ position ≤ old.position, place position = place' position) :
    old.fit? oldSymbols newSymbols place new = old.fit? oldSymbols newSymbols place' new := by
  unfold fit? fitOperands?
  split
  · split
    · next oldOffset newOffset _ _ =>
      split
      · next oldTarget newTarget oldFound newFound =>
        by_cases backward : oldOffset ≤ 0
        · have := target_eq_some_iff.mp oldFound
          rw [same oldTarget (by omega)]
        · simp [backward]
      · rfl
    · rfl
    · rfl
    · rfl
  · rfl

end Instruction

end HotSwap
