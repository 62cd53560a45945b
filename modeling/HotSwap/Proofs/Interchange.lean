import HotSwap.Proofs.Pairing
import HotSwap.Proofs.Renumbering
import HotSwap.Redefinition.Change

/-! # Versions that can take each other's place in a comparison

A comparison sees of an instruction only its position, its opcode, what its index stands for
and its literal bytes. Two instructions for which these are the same cannot be told apart, even if
they use different pools, and neither can versions made of such instructions. Equivalent
versions are of this kind; it follows that equivalence is symmetric and transitive, and that
every comparison gives the same result for equivalent versions. -/

namespace HotSwap

/-- Jumps and switches are not compared by what indices stand for. -/
theorem Operands.sameMeaning_of_hasOffsets {oldSymbols newSymbols : Symbols} {old new : Operands}
    (offsets : old.hasOffsets = true) : old.sameMeaning oldSymbols newSymbols new = false := by
  cases old with
  | jump | tableSwitch | lookupSwitch => simp [sameMeaning]
  | _ => cases offsets

namespace Instruction

/-- Whether two instructions are the same to all that a comparison sees of them. -/
structure Interchangeable (firstSymbols secondSymbols : Symbols) (first second : Instruction) :
    Prop where
  position : first.position = second.position
  opcode : first.opcode = second.opcode
  wide : first.wide = second.wide
  meaning : first.meaning? firstSymbols = second.meaning? secondSymbols
  literals : first.literals = second.literals
  firstEncoded : first.Encoded
  secondEncoded : second.Encoded

variable {oldSymbols newSymbols oldSymbols' newSymbols' : Symbols}
  {old new old' new' : Instruction} {place : Nat → Nat}

namespace Interchangeable

theorem refl {symbols : Symbols} {instruction : Instruction} (encoded : instruction.Encoded) :
    Interchangeable symbols symbols instruction instruction :=
  ⟨rfl, rfl, rfl, rfl, rfl, encoded, encoded⟩

theorem symm (same : old.Interchangeable oldSymbols oldSymbols' old') :
    old'.Interchangeable oldSymbols' oldSymbols old :=
  ⟨same.position.symm, same.opcode.symm, same.wide.symm, same.meaning.symm,
    same.literals.symm, same.secondEncoded, same.firstEncoded⟩

/-- Being renumbered depends only on what a comparison sees. -/
theorem renumbered (oldSame : old.Interchangeable oldSymbols oldSymbols' old')
    (newSame : new.Interchangeable newSymbols newSymbols' new')
    (h : old.Renumbered oldSymbols newSymbols new) :
    old'.Renumbered oldSymbols' newSymbols' new' := by
  obtain ⟨opcode, wide, meaning, literals⟩ := h
  rw [oldSame.opcode, newSame.opcode] at opcode
  rw [oldSame.wide, newSame.wide] at wide
  rw [oldSame.meaning, newSame.meaning] at meaning
  rw [oldSame.literals, newSame.literals] at literals
  exact ⟨opcode, wide, meaning, literals⟩

theorem equivalent_eq (oldSame : old.Interchangeable oldSymbols oldSymbols' old')
    (newSame : new.Interchangeable newSymbols newSymbols' new') :
    old.equivalent oldSymbols newSymbols new = old'.equivalent oldSymbols' newSymbols' new' := by
  rw [Bool.eq_iff_iff, equivalent_iff oldSame.firstEncoded newSame.firstEncoded,
    equivalent_iff oldSame.secondEncoded newSame.secondEncoded]
  exact ⟨oldSame.renumbered newSame, oldSame.symm.renumbered newSame.symm⟩

end Interchangeable

theorem renumbered_self_iff {symbols : Symbols} {instruction : Instruction} :
    instruction.Renumbered symbols symbols instruction ↔ instruction.Resolves symbols := by
  constructor
  · rintro ⟨-, -, ⟨meaning, fixed, means, -⟩, -⟩
    exact ⟨meaning, fixed, means⟩
  · rintro ⟨meaning, fixed, means⟩
    exact ⟨rfl, rfl, ⟨meaning, fixed, means, means⟩, rfl⟩

theorem Renumbered.interchangeable (renumbered : old.Renumbered oldSymbols newSymbols new)
    (position : old.position = new.position) (oldEncoded : old.Encoded)
    (newEncoded : new.Encoded) : old.Interchangeable oldSymbols newSymbols new := by
  obtain ⟨opcode, wide, ⟨meaning, -, oldMeans, newMeans⟩, literals⟩ := renumbered
  exact ⟨position, opcode, wide, oldMeans.trans newMeans.symm, literals, oldEncoded,
    newEncoded⟩

/-! ## Jumps and switches -/

/-- The opcode says whether there are offsets. -/
theorem Encoded.hasOffsets_iff {instruction : Instruction} (encoded : instruction.Encoded) :
    instruction.operands.hasOffsets = true ↔
      instruction.opcode.group ∈ [OpcodeGroup.jumps, .ranges, .cases] := by
  cases encoded with
  | @plain _ shape _ _ layout | @widened _ shape _ _ layout =>
      simp only [Opcode.group, layout, Layout.group]
      cases shape <;> simp [Shape.operands, Shape.group, Operands.hasOffsets]
  | range layout | cases layout =>
      simp [Opcode.group, layout, Layout.group, Operands.hasOffsets]

/-- All bytes of a jump or a switch have to be the same. -/
theorem Encoded.literals_eq {instruction : Instruction} (encoded : instruction.Encoded)
    (offsets : instruction.operands.hasOffsets = true) :
    instruction.literals = instruction.encoding := by
  rw [encoded.hasOffsets_iff] at offsets
  unfold literals
  split
  · next shape layout =>
    rw [Opcode.group, layout, Layout.group] at offsets
    have all : shape.literals (instruction.encoding.drop 1) = instruction.encoding.drop 1 := by
      cases shape with
      | jump | wideJump => rfl
      | _ => simp [Shape.group] at offsets
    rw [all, List.take_append_drop]
  · rfl

theorem Interchangeable.hasOffsets_eq
    (same : old.Interchangeable oldSymbols oldSymbols' old') :
    old.operands.hasOffsets = old'.operands.hasOffsets := by
  rw [Bool.eq_iff_iff, same.firstEncoded.hasOffsets_iff, same.secondEncoded.hasOffsets_iff,
    same.opcode]

/-- A jump or a switch can be interchanged with itself only. -/
theorem Interchangeable.eq_of_hasOffsets
    (same : old.Interchangeable oldSymbols oldSymbols' old')
    (offsets : old.operands.hasOffsets = true) : old = old' := by
  have offsets' : old'.operands.hasOffsets = true := same.hasOffsets_eq ▸ offsets
  apply same.firstEncoded.ext same.secondEncoded same.position same.opcode same.wide
  rw [← same.firstEncoded.literals_eq offsets, ← same.secondEncoded.literals_eq offsets',
    same.literals]

/-- What indices stand for plays no part when two jumps or switches are held against each other. -/
theorem fit?_of_hasOffsets (oldOffsets : old.operands.hasOffsets = true) :
    old.fit? oldSymbols newSymbols place new = old.fit? oldSymbols' newSymbols' place new := by
  unfold fit? fitOperands?
  split
  · split
    · rfl
    · rfl
    · rfl
    · rw [Operands.sameMeaning_of_hasOffsets oldOffsets,
        Operands.sameMeaning_of_hasOffsets oldOffsets]
  · rfl

/-- Unless two jumps or switches are held against each other, instructions fit if they are
equivalent, wherever positions have moved. -/
theorem fit?_of_noOffsets
    (noOffsets : (old.operands.hasOffsets && new.operands.hasOffsets) = false) :
    old.fit? oldSymbols newSymbols place new =
      if old.equivalent oldSymbols newSymbols new then some [] else none := by
  have clash {first second : Operands} (oldIs : old.operands = first)
      (newIs : new.operands = second) : (first.hasOffsets && second.hasOffsets) = false := by
    rw [← oldIs, ← newIs, noOffsets]
  have inPlace : old.sameInPlace oldSymbols newSymbols new =
      old.operands.sameMeaning oldSymbols newSymbols new.operands := by
    unfold sameInPlace
    split
    · next oldIs newIs => cases clash oldIs newIs
    · next oldIs newIs => cases clash oldIs newIs
    · next oldIs newIs => cases clash oldIs newIs
    · rfl
  have fits : fitOperands? oldSymbols newSymbols place old new =
      if old.operands.sameMeaning oldSymbols newSymbols new.operands then some [] else none := by
    unfold fitOperands?
    split
    · next oldIs newIs => cases clash oldIs newIs
    · next oldIs newIs => cases clash oldIs newIs
    · next oldIs newIs => cases clash oldIs newIs
    · rfl
  rw [fit?, equivalent, fits, inPlace]
  cases old.sameKind new <;> rfl

/-- Whether an instruction fits depends only on what a comparison sees. -/
theorem Interchangeable.fit?_eq (oldSame : old.Interchangeable oldSymbols oldSymbols' old')
    (newSame : new.Interchangeable newSymbols newSymbols' new') :
    old.fit? oldSymbols newSymbols place new = old'.fit? oldSymbols' newSymbols' place new' := by
  cases offsets : old.operands.hasOffsets && new.operands.hasOffsets with
  | true =>
      obtain ⟨oldOffsets, newOffsets⟩ := Bool.and_eq_true_iff.mp offsets
      obtain rfl := oldSame.eq_of_hasOffsets oldOffsets
      obtain rfl := newSame.eq_of_hasOffsets newOffsets
      exact fit?_of_hasOffsets oldOffsets
  | false =>
      have offsets' : (old'.operands.hasOffsets && new'.operands.hasOffsets) = false := by
        rw [← oldSame.hasOffsets_eq, ← newSame.hasOffsets_eq, offsets]
      rw [fit?_of_noOffsets offsets, fit?_of_noOffsets offsets', oldSame.equivalent_eq newSame]

end Instruction

open Instruction (Interchangeable)

variable {oldSymbols newSymbols oldSymbols' newSymbols' : Symbols}
  {old old' : Instruction} {olds news olds' news' : List Instruction}

/-! ## Walking and pairing up -/

theorem forall₂_equivalent_congr
    (oldSame : List.Forall₂ (Interchangeable oldSymbols oldSymbols') olds olds')
    (newSame : List.Forall₂ (Interchangeable newSymbols newSymbols') news news') :
    List.Forall₂ (fun first second => first.equivalent oldSymbols newSymbols second = true)
        olds news ↔
      List.Forall₂ (fun first second => first.equivalent oldSymbols' newSymbols' second = true)
        olds' news' := by
  induction oldSame generalizing news news' with
  | nil => cases newSame <;> simp
  | cons first rest ih =>
      cases newSame with
      | nil => simp
      | cons second later =>
          rw [List.forall₂_cons, List.forall₂_cons, first.equivalent_eq second, ih later]

namespace Pairing

/-- The first instruction that fits is found in the same place, with the same targets. -/
theorem firstFit?_congr (relocation : Relocation) (start : Nat)
    (oldSame : old.Interchangeable oldSymbols oldSymbols' old')
    (newSame : List.Forall₂ (Interchangeable newSymbols newSymbols') news news') :
    Option.Rel
      (fun found found' => found.1.Interchangeable newSymbols newSymbols' found'.1 ∧
        found.2.1 = found'.2.1 ∧
        List.Forall₂ (Interchangeable newSymbols newSymbols') found.2.2 found'.2.2)
      (firstFit? oldSymbols newSymbols relocation start old news)
      (firstFit? oldSymbols' newSymbols' relocation start old' news') := by
  induction newSame with
  | nil => exact .none
  | @cons new new' news news' first rest ih =>
      simp only [firstFit?]
      rw [← oldSame.position, ← first.position, oldSame.fit?_eq first]
      split
      · exact .some ⟨first, rfl, rest⟩
      · exact ih

/-- Interchangeable instructions are paired up with the same relocation, and its targets are
settled in the same way. -/
theorem pairUp?_congr (relocation : Relocation) (earlier : List (Nat × Nat))
    (oldSame : List.Forall₂ (Interchangeable oldSymbols oldSymbols') olds olds')
    (newSame : List.Forall₂ (Interchangeable newSymbols newSymbols') news news') :
    (pairUp? oldSymbols newSymbols relocation olds news).bind (settle? earlier) =
      (pairUp? oldSymbols' newSymbols' relocation olds' news').bind (settle? earlier) := by
  -- the pairs differ, but only relocation and targets are settled, so both runs keep in step
  induction oldSame generalizing relocation earlier news news' with
  | nil => rfl
  | @cons old old' olds olds' first rest ih =>
      cases newSame with
      | nil => rfl
      | @cons new new' news news' second later =>
          have found := firstFit?_congr relocation new.position first later
          simp only [pairUp?]
          rw [← first.position, ← second.position, first.fit?_eq second]
          split
          · rw [Option.bind_map, Option.bind_map, settle?_cons, settle?_cons]
            exact ih _ _ later
          · generalize firstFit? oldSymbols newSymbols relocation new.position old news = one
              at found
            generalize firstFit? oldSymbols' newSymbols' relocation new.position old' news' = other
              at found
            cases found with
            | none => rfl
            | some same =>
                obtain ⟨stop, targets, remaining⟩ := same
                simp only [Option.bind_map, settle?_cons, stop.position, targets]
                exact ih _ _ remaining

end Pairing

/-- A method handle stands for something if the method or field to which it leads does. -/
theorem Instruction.resolves_iff_of_methodHandle {constants : ConstantPool}
    {instruction : Instruction} {index target : UInt16} {kind : ReferenceKind}
    (group : instruction.opcode.group ∈ [OpcodeGroup.constants, .doubleConstants])
    (operand : instruction.operands.index? = some index)
    (entry : constants.get? index = some (.methodHandle kind target)) :
    instruction.Resolves constants.symbols ↔
      ∃ symbol, constants.symbols.member? target = some symbol := by
  have means : instruction.meaning? constants.symbols =
      ((constants.member? target).map (.methodHandle kind)).map .value := by
    have loads : constants.loadable? index =
        (constants.member? target).map (.methodHandle kind) := by
      rw [ConstantPool.loadable?, entry]
    rw [← loads, meaning?, operand]
    rcases List.mem_pair.mp group with group | group <;>
      rw [group, OpcodeGroup.meaning?, Option.bind_some, ConstantPool.symbols]
  rw [Resolves, means, ConstantPool.symbols]
  cases found : constants.member? target <;> simp [found]

namespace Version

/-- Whether two versions are the same to all that a comparison sees of them. -/
structure Interchangeable (first second : Version) : Prop where
  maxStack : first.body.maxStack = second.body.maxStack
  maxLocals : first.body.maxLocals = second.body.maxLocals
  entrySlots : first.body.entrySlots = second.body.entrySlots
  length : first.body.code.length = second.body.code.length
  isComplete : first.listing.isComplete = second.listing.isComplete
  instructions : List.Forall₂ (Instruction.Interchangeable first.symbols second.symbols)
    first.listing.instructions second.listing.instructions

variable {old new old' new' : Version}

namespace Interchangeable

theorem refl (version : Version) : version.Interchangeable version := by
  refine ⟨rfl, rfl, rfl, rfl, rfl, List.forall₂_same.mpr ?_⟩
  intro instruction mem
  exact .refl (version.consecutive_listing.encoded instruction mem)

theorem symm (same : old.Interchangeable old') : old'.Interchangeable old := by
  refine ⟨same.maxStack.symm, same.maxLocals.symm, same.entrySlots.symm, same.length.symm,
    same.isComplete.symm, List.Forall₂.flip ?_⟩
  exact same.instructions.imp fun _ _ pair => pair.symm

theorem obstacle?_eq (oldSame : old.Interchangeable old') (newSame : new.Interchangeable new')
    (mode : Mode) : mode.obstacle? old.body new.body = mode.obstacle? old'.body new'.body := by
  unfold Mode.obstacle?
  rw [oldSame.maxStack, oldSame.maxLocals, oldSame.entrySlots, oldSame.length, newSame.maxStack,
    newSame.maxLocals, newSame.entrySlots, newSame.length]

theorem walk_iff (oldSame : old.Interchangeable old') (newSame : new.Interchangeable new') :
    old.walk new = .equivalent ↔ old'.walk new' = .equivalent := by
  rw [walk_eq_equivalent_iff, walk_eq_equivalent_iff, oldSame.isComplete, newSame.isComplete,
    forall₂_equivalent_congr oldSame.instructions newSame.instructions]

theorem equivalent_eq (oldSame : old.Interchangeable old') (newSame : new.Interchangeable new') :
    old.equivalent new = old'.equivalent new' := by
  rw [Bool.eq_iff_iff, equivalent, equivalent, oldSame.obstacle?_eq newSame, Bool.and_eq_true,
    Bool.and_eq_true, beq_iff_eq, beq_iff_eq, oldSame.walk_iff newSame]

/-- The scan comes to the same relocation, or to none in both cases. -/
theorem relocation?_scan_eq (oldSame : old.Interchangeable old')
    (newSame : new.Interchangeable new') :
    (old.scan new).relocation? = (old'.scan new').relocation? := by
  have settled (first second : Version) : first.pairedRelocation? second =
      (first.pairing? second).bind (Pairing.settle? []) := rfl
  rw [relocation?_scan, relocation?_scan, settled, settled, pairing?, pairing?, oldSame.isComplete]
  split
  · exact Pairing.pairUp?_congr .empty [] oldSame.instructions newSame.instructions
  · rfl

theorem relocation?_eq (oldSame : old.Interchangeable old')
    (newSame : new.Interchangeable new') : old.relocation? new = old'.relocation? new' := by
  rw [relocation?, relocation?, oldSame.obstacle?_eq newSame,
    oldSame.relocation?_scan_eq newSame]

theorem compare_eq (oldSame : old.Interchangeable old') (newSame : new.Interchangeable new')
    (mode : Mode) : compare mode old new = compare mode old' new' := by
  have walked : (old.walk new == .equivalent) = (old'.walk new' == .equivalent) := by
    rw [Bool.eq_iff_iff, beq_iff_eq, beq_iff_eq, oldSame.walk_iff newSame]
  unfold compare compareCode sameLength
  rw [oldSame.obstacle?_eq newSame, oldSame.length, newSame.length, walked,
    oldSame.relocation?_scan_eq newSame]

end Interchangeable

/-- Equivalent versions are interchangeable. -/
theorem interchangeable_of_equivalent (h : old.equivalent new = true) :
    old.Interchangeable new := by
  rw [equivalent, Bool.and_eq_true, beq_iff_eq, Option.isNone_iff_eq_none,
    Mode.obstacle?_eq_none_iff, walk_eq_equivalent_iff_renumbered, List.forall₂_iff_zip] at h
  obtain ⟨⟨maxStack, maxLocals, entrySlots, length⟩, complete, complete', sameNumber, renumbered⟩ :=
    h
  refine ⟨maxStack, maxLocals, entrySlots, beq_iff_eq.mp length, complete.trans complete'.symm, ?_⟩
  rw [List.forall₂_iff_zip]
  refine ⟨sameNumber, fun mem => ?_⟩
  obtain ⟨firstMem, secondMem⟩ := List.of_mem_zip mem
  obtain ⟨position, same⟩ := renumbered mem
  exact same.interchangeable position (old.consecutive_listing.encoded _ firstMem)
    (new.consecutive_listing.encoded _ secondMem)

/-- A version is equivalent to itself if its code can be read up to its end and all indices in it
stand for something that can be compared. -/
theorem equivalent_self_iff {version : Version} :
    version.equivalent version = true ↔
      version.listing.isComplete = true ∧
        ∀ instruction ∈ version.listing.instructions, instruction.Resolves version.symbols := by
  have unobstructed : Mode.exact.obstacle? version.body version.body = none := by
    simp [Mode.obstacle?_eq_none_iff, Mode.admitsLengths]
  rw [equivalent, unobstructed, Option.isNone_none, Bool.true_and, beq_iff_eq,
    walk_eq_equivalent_iff_renumbered, List.forall₂_same]
  simp only [true_and, Instruction.renumbered_self_iff, and_self_left]

/-- Equivalence is symmetric and transitive. A version is equivalent to itself if its code can be
read up to its end and all its classes, members and constants resolve, none of them to a value that
is computed when it is loaded. For a method handle this means that its member resolves. -/
theorem equivalent_partialEquivalence (first second third : Version) :
    first.equivalent second = second.equivalent first ∧
      (first.equivalent second = true → second.equivalent third = true →
        first.equivalent third = true) ∧
      (first.equivalent first = true ↔
        first.listing.isComplete = true ∧
          ∀ instruction ∈ first.listing.instructions, instruction.Resolves first.symbols) ∧
      ∀ (constants : ConstantPool) (instruction : Instruction) (index target : UInt16)
        (kind : ReferenceKind),
        instruction.opcode.group ∈ [OpcodeGroup.constants, .doubleConstants] →
        instruction.operands.index? = some index →
        constants.get? index = some (.methodHandle kind target) →
          (instruction.Resolves constants.symbols ↔
            ∃ symbol, constants.symbols.member? target = some symbol) := by
  refine ⟨?_, ?_, equivalent_self_iff, ?_⟩
  · have swap {old new : Version} (h : old.equivalent new = true) :
        new.equivalent old = true := by
      have same := interchangeable_of_equivalent h
      rw [same.symm.equivalent_eq same, h]
    rw [Bool.eq_iff_iff]
    exact ⟨swap, swap⟩
  · intro firstSecond secondThird
    have same := interchangeable_of_equivalent firstSecond
    rw [same.equivalent_eq (.refl third), secondThird]
  · intro constants instruction index target kind group operand entry
    exact Instruction.resolves_iff_of_methodHandle group operand entry

/-- A version of a method in a class whose pool ends with a handle of another method, behind the
given entries. The code is given the index of the handle. -/
def ofHandle (front : List Constant) (code : UInt8 → Bytes) : Version :=
  let index (distance : Nat) := UInt16.ofNat (front.length + distance)
  let entries : List Constant :=
    [.utf8 "A", .classRef (index 1), .utf8 "f", .utf8 "()V", .nameAndType (index 3) (index 4),
      .member .method (index 2) (index 5), .methodHandle .invokeStatic (index 6)]
  ofPool ⟨1, 1, 1, code (UInt8.ofNat (front.length + 7)), [], []⟩
    ((front ++ entries).foldl .push .empty)

/-- An array is made and a method handle is loaded, in three classes with pools of their own. The
types of the arrays are not looked at. -/
theorem equivalent_partialEquivalence_of_handle :
    let first := ofHandle [] fun handle => [0x1a, 0xbc, 10, 0x12, handle, 0xb1]
    let second := ofHandle [.integer 7] fun handle => [0x1a, 0xbc, 11, 0x12, handle, 0xb1]
    let third := ofHandle [.utf8 "A", .classRef 1] fun handle => [0x1a, 0xbc, 4, 0x12, handle, 0xb1]
    let constants := ConstantPool.empty.push (.methodHandle .getField 5)
    let load : Instruction := ⟨.ldc, 0, false, [0x12, 1], .constant 1⟩
    first.equivalent second = true ∧ second.equivalent third = true ∧
      first.equivalent third = true ∧ second.equivalent first = true ∧
      (∀ instruction ∈ first.listing.instructions, instruction.Resolves first.symbols) ∧
      constants.get? 1 = some (.methodHandle .getField 5) ∧ ¬load.Resolves constants.symbols := by
  intro first second third constants load
  have firstSecond : first.equivalent second = true := by decide +kernel
  have secondThird : second.equivalent third = true := by decide +kernel
  have entry : constants.get? 1 = some (.methodHandle .getField 5) := by decide +kernel
  obtain ⟨symm, trans, self, handle⟩ := equivalent_partialEquivalence first second third
  have swapped : second.equivalent first = true := symm ▸ firstSecond
  have resolves := (self.mp (by decide +kernel)).2
  refine ⟨firstSecond, secondThird, trans firstSecond secondThird, swapped, resolves, entry, ?_⟩
  rw [handle constants load 1 5 .getField (by decide +kernel) rfl entry]
  have missing : constants.symbols.member? 5 = none := by decide +kernel
  simp [missing]

/-- A comparison gives the same result for versions that are equivalent to those compared. -/
theorem compare_congr_of_equivalent (oldSame : old.equivalent old' = true)
    (newSame : new.equivalent new' = true) :
    old.relocation? new = old'.relocation? new' ∧
      ∀ mode, compare mode old new = compare mode old' new' := by
  have olds := interchangeable_of_equivalent oldSame
  have news := interchangeable_of_equivalent newSame
  exact ⟨olds.relocation?_eq news, fun mode => olds.compare_eq news mode⟩

/-- An instruction is inserted in front of a loop. The constants are numbered in two ways in the old
version, and in two other ways in the new one. -/
theorem compare_congr_of_renumbered_loop :
    let loop (handle : UInt8) : Bytes := [0x12, handle, 0x57, 0xa7, 0xff, 0xfd]
    let old := ofHandle [] loop
    let old' := ofHandle [.integer 1] loop
    let new := ofHandle [.integer 1, .float 2] fun handle => 0 :: loop handle
    let new' := ofHandle [.string 2] fun handle => 0 :: loop handle
    old.equivalent old' = true ∧ new.equivalent new' = true ∧
      old'.relocation? new' = some ⟨#[⟨0, 0, 1⟩]⟩ ∧ old.relocation? new = old'.relocation? new' ∧
      ∀ mode, compare mode old new = compare mode old' new' := by
  intro loop old old' new new'
  have oldSame : old.equivalent old' = true := by decide +kernel
  have newSame : new.equivalent new' = true := by decide +kernel
  obtain ⟨relocations, changes⟩ := compare_congr_of_equivalent oldSame newSame
  exact ⟨oldSame, newSame, by decide +kernel, relocations, changes⟩

end Version

end HotSwap
