import HotSwap.Proofs.Correspondence
import HotSwap.Proofs.Interchange
import HotSwap.Proofs.Rewriting
import HotSwap.Report
import Mathlib.Data.List.Nodup

/-! # Reports on classes that were not changed

A relocation leads only from code that can be read up to its end and in which all indices stand
for something that can be compared. Such code is equivalent to itself, so a version that is
compared with itself is never taken for an extended one. A class that was read and is
written again is read as the same class, and every method is found in it by its own name
and descriptor. So a report on the two says of every method that nothing happened to it,
or that its code cannot be compared. -/

namespace HotSwap

namespace Instruction

variable {oldSymbols newSymbols symbols : Symbols} {place : Nat → Nat}
  {old new instruction : Instruction}

instance : Decidable (instruction.Resolves symbols) :=
  decidable_of_iff (∃ meaning ∈ instruction.meaning? symbols, meaning ≠ .value .dynamic)
    ⟨fun ⟨meaning, means, fixed⟩ => ⟨meaning, fixed, means⟩,
      fun ⟨meaning, fixed, means⟩ => ⟨meaning, means, fixed⟩⟩

/-- No index is looked up in a jump or a switch. -/
theorem Encoded.resolves_of_hasOffsets (encoded : instruction.Encoded)
    (offsets : instruction.operands.hasOffsets = true) : instruction.Resolves symbols := by
  refine ⟨.nothing, nofun, ?_⟩
  have group := encoded.hasOffsets_iff.mp offsets
  simp only [List.mem_cons, List.not_mem_nil, or_false] at group
  rcases group with group | group | group <;> rw [meaning?, group] <;> rfl

/-- What has a counterpart stands for something that can be compared. -/
theorem Counterpart.resolves (counterpart : Counterpart oldSymbols newSymbols place old new)
    (oldEncoded : old.Encoded) (newEncoded : new.Encoded) : old.Resolves oldSymbols := by
  cases offsets : old.operands.hasOffsets with
  | true => exact oldEncoded.resolves_of_hasOffsets offsets
  | false =>
      have noJump {offset : Int} (isJump : old.operands = .jump offset) : False := by
        rw [isJump] at offsets
        cases offsets
      obtain ⟨targets, fits, -⟩ :=
        fit?_of_counterpart counterpart fun oldIs _ => (noJump oldIs).elim
      rw [fit?_of_noOffsets (by rw [offsets, Bool.false_and])] at fits
      split at fits
      · next same =>
        have renumbered := (equivalent_iff oldEncoded newEncoded).mp same
        obtain ⟨meaning, fixed, means, -⟩ := renumbered.meaning
        exact ⟨meaning, fixed, means⟩
      · cases fits

end Instruction

namespace Version

variable {old new version : Version} {relocation : Relocation}

/-- Whether the code of a version can be read up to its end, and all indices in it stand for
something that can be compared. -/
def Usable (version : Version) : Prop :=
  version.listing.isComplete = true ∧
    ∀ instruction ∈ version.listing.instructions, instruction.Resolves version.symbols

instance : DecidablePred Usable := fun version =>
  inferInstanceAs (Decidable (_ ∧ ∀ instruction ∈ version.listing.instructions, _))

/-- A relocation leads from usable versions only. -/
theorem usable_of_relocation? (h : old.relocation? new = some relocation) : old.Usable := by
  obtain ⟨complete, pairing, built, settled, -⟩ := exists_built h
  have counterparts :=
    built.counterpart old.consecutive_listing new.consecutive_listing settled
  refine ⟨complete, fun instruction mem => ?_⟩
  have oldEncoded := old.consecutive_listing.encoded instruction mem
  rw [← built.pairs_fst] at mem
  obtain ⟨pair, pairMem, rfl⟩ := List.mem_map.mp mem
  have newMem : pair.2 ∈ new.listing.instructions :=
    built.pairs_snd_sublist.subset (List.mem_map_of_mem pairMem)
  exact (counterparts pair pairMem).resolves oldEncoded
    (new.consecutive_listing.encoded pair.2 newMem)

/-- A version that is compared with itself is found to be equivalent, or else to differ in its
code. -/
theorem compare_self (mode : Mode) (version : Version) :
    compare mode version version = if version.Usable then .equivalent else .different none := by
  have unobstructed (mode : Mode) : mode.obstacle? version.body version.body = none := by
    cases mode <;> simp [Mode.obstacle?_eq_none_iff, Mode.admitsLengths]
  have walked : (version.walk version == .equivalent) = decide version.Usable := by
    have same : version.equivalent version = (version.walk version == .equivalent) := by
      rw [equivalent, unobstructed, Option.isNone_none, Bool.true_and]
    rw [← same, Bool.eq_iff_iff, decide_eq_true_iff, equivalent_self_iff, Usable]
  rw [compare, unobstructed]
  simp only [compareCode, sameLength, beq_self_eq_true, Bool.true_and, walked, decide_eq_true_eq]
  split
  · rfl
  · next unusable =>
    cases mode with
    | exact => rfl
    | switchable =>
        have unrelated : (version.scan version).relocation? = none := by
          rw [Option.eq_none_iff_forall_ne_some]
          intro relocation found
          have leads : version.relocation? version = some relocation := by
            rw [relocation?, unobstructed, found]
          exact unusable (usable_of_relocation? leads)
        rw [unrelated]

end Version

namespace ClassFile

variable {file : ClassFile} {method : Method} {name descriptor : String}

/-- Whether no two methods have both the name and the descriptor in common. -/
def Distinct (file : ClassFile) : Prop :=
  (file.methods.map fun method => (file.methodName? method, file.methodDescriptor? method)).Nodup

instance : DecidablePred Distinct := fun _ =>
  inferInstanceAs (Decidable (List.Nodup _))

/-- A method is found by its own name and descriptor. -/
theorem Distinct.method?_eq_some (distinct : file.Distinct) (mem : method ∈ file.methods)
    (named : file.methodName? method = some name)
    (described : file.methodDescriptor? method = some descriptor) :
    file.method? name descriptor = some method := by
  have isFound : (file.method? name descriptor).isSome = true :=
    List.find?_isSome.mpr ⟨method, mem, by simp [named, described]⟩
  obtain ⟨found, eq⟩ := Option.isSome_iff_exists.mp isFound
  have matched := List.find?_some eq
  rw [Bool.and_eq_true, beq_iff_eq, beq_iff_eq, ← named, ← described] at matched
  have same : found = method :=
    List.inj_on_of_nodup_map distinct (List.mem_of_find?_eq_some eq) mem (Prod.ext_iff.mpr matched)
  rw [eq, same]

/-- What is said about a method that was not changed. -/
def verdict (file : ClassFile) (method : Method) : String :=
  match method.body? with
  | none => "skipped (no code)"
  | some body =>
      if (Version.ofPool body file.constants).Usable then "EMCP" else "differs (code differs)"

/-- The line on a method that was not changed, if there is a text for its name and its
descriptor. -/
def unchangedLine? (file : ClassFile) (method : Method) : Option String :=
  match file.methodName? method, file.methodDescriptor? method with
  | some name, some descriptor => some (name ++ descriptor ++ ": " ++ file.verdict method)
  | _, _ => none

/-- Whether a report is about a method. -/
def Selected (options : ReportOptions) (file : ClassFile) (method : Method) : Prop :=
  ∀ only ∈ options.only, file.methodName? method = some only

instance (options : ReportOptions) (file : ClassFile) : DecidablePred (file.Selected options) :=
  fun _ => inferInstanceAs (Decidable (∀ only ∈ options.only, _))

theorem fate_self (mode : Mode) (found : file.method? name descriptor = some method) :
    file.fate mode file method name descriptor = file.verdict method := by
  rw [fate, found, verdict]
  dsimp only
  cases method.body? with
  | none => rfl
  | some body =>
      dsimp only
      rw [Version.compare_self]
      split <;> rfl

theorem reportLine_self (options : ReportOptions) (distinct : file.Distinct)
    (mem : method ∈ file.methods) (named : (file.methodName? method).isSome = true)
    (described : (file.methodDescriptor? method).isSome = true) :
    ∃ line, file.unchangedLine? method = some line ∧
      file.reportLine options file method =
        if file.Selected options method then some line else none := by
  obtain ⟨name, isName⟩ := Option.isSome_iff_exists.mp named
  obtain ⟨descriptor, isDescriptor⟩ := Option.isSome_iff_exists.mp described
  have found := distinct.method?_eq_some mem isName isDescriptor
  have selected : options.only.all (· == name) = true ↔ file.Selected options method := by
    rw [Selected, isName]
    cases options.only with
    | none => simp
    | some only =>
        simp only [Option.all_some, beq_iff_eq, Option.mem_def, Option.some.injEq, forall_eq']
        exact eq_comm
  refine ⟨_, by rw [unchangedLine?, isName, isDescriptor], ?_⟩
  simp only [reportLine, isName, isDescriptor, Option.getD_some, fate_self options.mode found,
    selected]

/-- A report on a class and itself has one line for each method that it is about. -/
theorem map_some_report_self (options : ReportOptions) (distinct : file.Distinct)
    (named : ∀ method ∈ file.methods, (file.methodName? method).isSome = true)
    (described : ∀ method ∈ file.methods, (file.methodDescriptor? method).isSome = true) :
    (file.report options file).map some =
      (file.methods.filter fun method => file.Selected options method).map
        file.unchangedLine? := by
  have each : ∀ method ∈ file.methods, ∃ line, file.unchangedLine? method = some line ∧
      file.reportLine options file method =
        if file.Selected options method then some line else none := fun method mem =>
    reportLine_self options distinct mem (named method mem) (described method mem)
  rw [report]
  generalize file.methods = methods at each
  induction methods with
  | nil => rfl
  | cons method rest ih =>
      obtain ⟨⟨line, unchanged, told⟩, later⟩ := List.forall_mem_cons.mp each
      rw [List.filter_cons, List.filterMap_cons, told]
      by_cases selected : file.Selected options method
      · simp only [selected, decide_true, if_true, List.map_cons, unchanged, ih later]
      · simp only [selected, decide_false, if_false, Bool.false_eq_true, ih later]

end ClassFile

variable {input rest : Bytes} {file : ClassFile}

/-- The report on a class and on what is written of it has one line for each method that it is asked
about, in the order of the class. A method without code is skipped, and any other one is equivalent
if its code can be used in a comparison, and differs in its code if not. -/
theorem runReport_of_rewritten (options : ReportOptions)
    (read : ClassFile.read.run input = .ok (file, rest))
    (named : ∀ method ∈ file.methods, (file.methodName? method).isSome = true)
    (distinct : file.Distinct) :
    ∃ lines : List String,
      runReport options (some input) (some file.encode) =
        ⟨0, String.join (lines.map (· ++ "\n"))⟩ ∧
      lines.map some =
        (file.methods.filter fun method => file.Selected options method).map
          file.unchangedLine? := by
  have readAgain : ClassFile.read.run (file.encode ++ []) = .ok (file, []) :=
    ClassFile.reads_of_read read []
  rw [List.append_nil] at readAgain
  have described : ∀ method ∈ file.methods, (file.methodDescriptor? method).isSome = true := by
    intro method mem
    obtain ⟨descriptor, -, isDescriptor, -⟩ :=
      ((ClassFile.of_read read).1.methods method mem).slots
    exact Option.isSome_iff_exists.mpr ⟨descriptor, isDescriptor⟩
  refine ⟨file.report options file, ?_,
    ClassFile.map_some_report_self options distinct named described⟩
  simp only [runReport, Option.map_some, read, readAgain]

/-- A class with one method without code, and with methods of the same name that return, that load
a value which is still to be computed, and that consist of an unknown opcode. Between them is a
method of another name. -/
def imageOfOverloads : ClassImage :=
  let code (code : Bytes) : Attribute := ⟨3, Body.encode ⟨1, 4, 0, code, [], []⟩⟩
  { ClassFile.imageOfMethod 0 [] 0 [] with
    constants := ⟨9, [.text [0x66], .text [0x28, 0x29, 0x56], .text [0x43, 0x6F, 0x64, 0x65],
      .text [0x67], .text [0x28, 0x49, 0x29, 0x56], .text [0x28, 0x4A, 0x29, 0x56],
      .text [0x28, 0x46, 0x29, 0x56], .other (.dynamic 0 0)]⟩
    methods := [⟨0x400, 1, 2, []⟩, ⟨9, 1, 5, [code [0xB1]]⟩, ⟨9, 4, 2, [code [0xB1]]⟩,
      ⟨9, 1, 6, [code [0x12, 8, 0x57, 0xB1]]⟩, ⟨9, 1, 7, [code [0xFE]]⟩] }

/-- The report on all methods of one name in a class, in both modes. -/
theorem runReport_of_rewritten_overloads :
    let input := imageOfOverloads.encode ++ [7]
    ∃ file, ClassFile.read.run input = .ok (file, [7]) ∧ file.encode ≠ input ∧
      ∀ mode, runReport ⟨mode, some "f"⟩ (some input) (some file.encode) =
        ⟨0, "f()V: skipped (no code)\nf(I)V: EMCP\n" ++
          "f(J)V: differs (code differs)\nf(F)V: differs (code differs)\n"⟩ := by
  intro input
  have seen : (ClassFile.read.run input).map (fun found =>
      decide ((found.2 = [7] ∧ found.1.encode ≠ input) ∧
        ((∀ method ∈ found.1.methods, (found.1.methodName? method).isSome = true) ∧
          found.1.Distinct) ∧
        (found.1.methods.filter fun method =>
          found.1.Selected ⟨.exact, some "f"⟩ method).map found.1.unchangedLine? =
            ["f()V: skipped (no code)", "f(I)V: EMCP", "f(J)V: differs (code differs)",
              "f(F)V: differs (code differs)"].map some)) =
      .ok true := by
    decide +kernel
  obtain ⟨file, rest, read, ⟨rfl, changed⟩, ⟨named, distinct⟩, told⟩ :=
    Reader.exists_of_map_decide seen
  refine ⟨file, read, changed, fun mode => ?_⟩
  obtain ⟨lines, run, same⟩ := runReport_of_rewritten ⟨mode, some "f"⟩ read named distinct
  -- the mode makes no difference to which methods are selected
  cases List.map_injective_iff.mpr (fun _ _ => Option.some.inj) (same.trans told)
  exact run

end HotSwap
