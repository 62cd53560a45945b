import HotSwap.Proofs.Listing
import HotSwap.Proofs.Matching
import HotSwap.Redefinition.Scan

/-! # Pairing up instructions

A pairing gives every old instruction its counterpart in the new code. The next new
instruction is taken if it fits where the insertions so far are all there are, and
otherwise the first later one that fits if an insertion goes up to it. Only then are the
targets compared that could not be compared before. The scan comes to the same result,
although it puts targets aside and cuts them off again while it looks for an instruction. -/

namespace HotSwap

namespace Consecutive

variable {start : Nat} {instruction : Instruction} {rest : List Instruction}
  {insertions : List Insertion}

theorem before_le_position (h : Consecutive start (instruction :: rest))
    (before : ∀ insertion ∈ insertions, insertion.before < start) :
    ∀ insertion ∈ insertions, insertion.before ≤ instruction.position := by
  intro insertion mem
  rw [h.position_head]
  exact Nat.le_of_lt (before insertion mem)

theorem before_lt_next (h : Consecutive start (instruction :: rest))
    (before : ∀ insertion ∈ insertions, insertion.before ≤ instruction.position) :
    ∀ insertion ∈ insertions, insertion.before < instruction.next := by
  intro insertion mem
  exact Nat.lt_of_le_of_lt (before insertion mem) h.lt_next

end Consecutive

/-- Old instructions with their counterparts, the insertions between them, and the targets that are
to be compared when all insertions are known. -/
structure Pairing where
  relocation : Relocation
  pairs : List (Instruction × Instruction)
  targets : List (Nat × Nat)

namespace Pairing

/-- Put a pair in front, together with the targets to which it leads. -/
def cons (pairing : Pairing) (old new : Instruction) (targets : List (Nat × Nat)) : Pairing :=
  ⟨pairing.relocation, (old, new) :: pairing.pairs, targets ++ pairing.targets⟩

/-- Whether the targets that could not be compared before correspond to each other. -/
def isSettled (pairing : Pairing) : Bool :=
  pairing.targets.all fun (old, new) => pairing.relocation.toNew old == new

theorem isSettled_iff {pairing : Pairing} :
    pairing.isSettled = true ↔
      ∀ target ∈ pairing.targets, pairing.relocation.toNew target.1 = target.2 := by
  simp only [isSettled, List.all_eq_true, beq_iff_eq]

/-- The relocation, if the given targets and those of the pairs correspond to each other. -/
def settle? (earlier : List (Nat × Nat)) (pairing : Pairing) : Option Relocation :=
  if (earlier ++ pairing.targets).all fun (old, new) => pairing.relocation.toNew old == new then
    some pairing.relocation
  else none

theorem settle?_cons (earlier targets : List (Nat × Nat)) (old new : Instruction) :
    settle? earlier ∘ (·.cons old new targets) = settle? (earlier ++ targets) := by
  funext pairing
  simp only [Function.comp_apply, settle?, cons, List.append_assoc]

variable (oldSymbols newSymbols : Symbols)

/-- The first new instruction that fits if the insertion that begins at `start` ended before it,
with its targets and the instructions after it. -/
def firstFit? (relocation : Relocation) (start : Nat) (old : Instruction) :
    List Instruction → Option (Instruction × List (Nat × Nat) × List Instruction)
  | [] => none
  | new :: news =>
      let extended := relocation.add ⟨old.position, start, new.position⟩
      match old.fit? oldSymbols newSymbols extended.toNew new with
      | some targets => some (new, targets, news)
      | none => firstFit? relocation start old news

/-- Pair up old instructions with new ones, after some insertions. -/
def pairUp? (relocation : Relocation) : List Instruction → List Instruction → Option Pairing
  | [], _ => some ⟨relocation, [], []⟩
  | _ :: _, [] => none
  | old :: olds, new :: news =>
      match old.fit? oldSymbols newSymbols relocation.toNew new with
      | some targets => (pairUp? relocation olds news).map (·.cons old new targets)
      | none =>
          match firstFit? oldSymbols newSymbols relocation new.position old news with
          | some (found, targets, rest) =>
              let extended := relocation.add ⟨old.position, new.position, found.position⟩
              (pairUp? extended olds rest).map (·.cons old found targets)
          | none => none

/-- How a pairing comes about, pair by pair. -/
inductive Built : Relocation → List Instruction → List Instruction → Pairing → Prop
  | done (relocation : Relocation) (news : List Instruction) :
      Built relocation [] news ⟨relocation, [], []⟩
  | straight {relocation : Relocation} {old new : Instruction} {olds news : List Instruction}
      {targets : List (Nat × Nat)} {pairing : Pairing}
      (fits : old.fit? oldSymbols newSymbols relocation.toNew new = some targets)
      (rest : Built relocation olds news pairing) :
      Built relocation (old :: olds) (new :: news) (pairing.cons old new targets)
  | inserted {relocation : Relocation} {gap : Insertion} {old first found : Instruction}
      {olds skipped news : List Instruction} {targets : List (Nat × Nat)} {pairing : Pairing}
      (gapIs : gap = ⟨old.position, first.position, found.position⟩)
      (fits : old.fit? oldSymbols newSymbols (relocation.add gap).toNew found = some targets)
      (rest : Built (relocation.add gap) olds news pairing) :
      Built relocation (old :: olds) (first :: (skipped ++ found :: news))
        (pairing.cons old found targets)

variable {oldSymbols newSymbols}

theorem firstFit?_eq_some {relocation : Relocation} {start : Nat} {old found : Instruction}
    {news rest : List Instruction} {targets : List (Nat × Nat)}
    (h : firstFit? oldSymbols newSymbols relocation start old news =
      some (found, targets, rest)) :
    ∃ skipped, news = skipped ++ found :: rest ∧
      old.fit? oldSymbols newSymbols
        (relocation.add ⟨old.position, start, found.position⟩).toNew found = some targets := by
  induction news with
  | nil => cases h
  | cons new news ih =>
      simp only [firstFit?] at h
      split at h
      · next fits =>
        cases h
        exact ⟨[], rfl, fits⟩
      · obtain ⟨skipped, eq, fits⟩ := ih h
        exact ⟨new :: skipped, by rw [eq, List.cons_append], fits⟩

theorem built_of_pairUp? {relocation : Relocation} {olds news : List Instruction}
    {pairing : Pairing}
    (h : pairUp? oldSymbols newSymbols relocation olds news = some pairing) :
    Built oldSymbols newSymbols relocation olds news pairing := by
  induction olds generalizing relocation news pairing with
  | nil =>
      cases h
      exact .done relocation news
  | cons old olds ih =>
      cases news with
      | nil => cases h
      | cons new news =>
          simp only [pairUp?] at h
          split at h
          · next fits =>
            obtain ⟨pairing, rest, rfl⟩ := Option.map_eq_some_iff.mp h
            exact .straight fits (ih rest)
          · split at h
            · next found targets later first =>
              obtain ⟨pairing, rest, rfl⟩ := Option.map_eq_some_iff.mp h
              obtain ⟨skipped, rfl, fits⟩ := firstFit?_eq_some first
              exact .inserted rfl fits (ih rest)
            · cases h

section Insertions

variable {relocation : Relocation} {old new found : Instruction}
  {olds news skipped : List Instruction} {targets : List (Nat × Nat)}

theorem pairUp?_cons (fits : old.fit? oldSymbols newSymbols relocation.toNew new = some targets) :
    pairUp? oldSymbols newSymbols relocation (old :: olds) (new :: news) =
      (pairUp? oldSymbols newSymbols relocation olds news).map (·.cons old new targets) := by
  simp only [pairUp?, fits]

/-- Instructions that fit nowhere are skipped. -/
theorem firstFit?_append {start : Nat}
    (unfit : ∀ instruction ∈ skipped, ∀ place,
      old.fit? oldSymbols newSymbols place instruction = none)
    (fits : old.fit? oldSymbols newSymbols
      (relocation.add ⟨old.position, start, found.position⟩).toNew found = some targets) :
    firstFit? oldSymbols newSymbols relocation start old (skipped ++ found :: news) =
      some (found, targets, news) := by
  induction skipped with
  | nil => simp only [List.nil_append, firstFit?, fits]
  | cons first rest ih =>
      rw [List.forall_mem_cons] at unfit
      rw [List.cons_append, firstFit?, unfit.1]
      exact ih unfit.2

/-- If all instructions up to one that fits fit nowhere, they are an insertion. -/
theorem pairUp?_append
    (unfit : ∀ instruction ∈ new :: skipped, ∀ place,
      old.fit? oldSymbols newSymbols place instruction = none)
    (fits : old.fit? oldSymbols newSymbols
      (relocation.add ⟨old.position, new.position, found.position⟩).toNew found = some targets) :
    pairUp? oldSymbols newSymbols relocation (old :: olds) (new :: (skipped ++ found :: news)) =
      (pairUp? oldSymbols newSymbols
        (relocation.add ⟨old.position, new.position, found.position⟩) olds news).map
          (·.cons old found targets) := by
  rw [List.forall_mem_cons] at unfit
  simp only [pairUp?, unfit.1, firstFit?_append unfit.2 fits]

end Insertions

end Pairing

namespace Version

/-- The pairing of all the instructions of two versions, of which the old one is to have
instructions up to its end. -/
def pairing? (old new : Version) : Option Pairing :=
  if old.listing.isComplete then
    Pairing.pairUp? old.symbols new.symbols .empty old.listing.instructions
      new.listing.instructions
  else none

/-- The insertions that lead from one version to the other by the pairing of their instructions. -/
def pairedRelocation? (old new : Version) : Option Relocation := do
  let pairing ← old.pairing? new
  if pairing.isSettled then some pairing.relocation else none

end Version

namespace Alignment

/-- While the end of a gap is looked for, positions are expected where they are if an insertion
ended at the candidate. -/
theorem expected_gap (alignment : Alignment) (gap : Gap) (candidate : Nat)
    (open_ : alignment.gap = some gap)
    (before : ∀ insertion ∈ alignment.relocation.toList, insertion.before ≤ gap.before) :
    alignment.expected candidate =
      (alignment.relocation.add ⟨gap.before, gap.start, candidate⟩).toNew := by
  funext position
  have added := Relocation.toList_add alignment.relocation ⟨gap.before, gap.start, candidate⟩
  simp only [expected, open_]
  split
  · next behind =>
    have early : ∀ insertion ∈ alignment.relocation.toList, insertion.before ≤ position :=
      fun insertion mem => le_trans (before insertion mem) behind
    have earlyToo : ∀ insertion ∈
        (alignment.relocation.add ⟨gap.before, gap.start, candidate⟩).toList,
        insertion.before ≤ position :=
      Relocation.forall_mem_add.mpr ⟨early, behind⟩
    calc
      alignment.relocation.toNew position + (candidate - gap.start)
          = position + alignment.relocation.length + (candidate - gap.start) := by
        rw [Relocation.toNew_of_le early]
      _ = position + (alignment.relocation.add ⟨gap.before, gap.start, candidate⟩).length := by
        rw [Relocation.length_add, Insertion.length, Nat.add_assoc]
      _ = (alignment.relocation.add ⟨gap.before, gap.start, candidate⟩).toNew position :=
        (Relocation.toNew_of_le earlyToo).symm
  · next ahead =>
    refine (Relocation.toNew_of_append added ?_).symm
    intro insertion mem
    rw [List.mem_singleton] at mem
    subst mem
    exact Nat.lt_of_not_le ahead

end Alignment

namespace Comparison

variable (comparison : Comparison)

/-- The scan is complete if no target that was put aside is astray. -/
theorem finish_eq_complete_iff {relocation : Relocation} {deferred : Deferred} :
    finish relocation deferred = .complete ↔
      deferred.toList.all (fun (old, new) => relocation.toNew old == new) = true := by
  unfold finish Deferred.firstStray? Relocation.corresponds
  cases stray : deferred.toList.find? fun (old, new) => !(relocation.toNew old == new) with
  | none => simpa using stray
  | some pair =>
      have mem := List.mem_of_find?_eq_some stray
      have missed := List.find?_some stray
      simp only [reduceCtorEq, false_iff, List.all_eq_true]
      intro all
      simp [all pair mem] at missed

theorem atEnd_eq_complete_iff {fault : Option Fault} {otherwise : ScanEnd} :
    ScanEnd.atEnd fault otherwise = .complete ↔ fault = none ∧ otherwise = .complete := by
  cases fault <;> simp [ScanEnd.atEnd]

theorem findEnd_cons (alignment : Alignment) (old new : Instruction) (news : List Instruction)
    (deferred : Deferred) :
    (findEnd alignment old (new :: news)).run deferred =
      match (alignment.accepts old new).run deferred with
      | (true, kept) => (some (new.position, news), kept)
      | (false, kept) => (findEnd alignment old news).run kept := by
  simp only [findEnd, StateT.run, bind, StateT.bind]
  cases alignment.accepts old new deferred with
  | mk same kept => cases same <;> rfl

/-- Looking for the end of a gap finds the first instruction that fits there. -/
theorem findEnd_run (relocation : Relocation) (old : Instruction) (start : Nat)
    (before : ∀ insertion ∈ relocation.toList, insertion.before ≤ old.position)
    (news : List Instruction) (deferred : Deferred) :
    (findEnd (comparison.alignment relocation (some ⟨old.position, start⟩)) old news).run
        deferred =
      match Pairing.firstFit? comparison.oldSymbols comparison.newSymbols relocation start old
        news with
      | some (found, targets, rest) => (some (found.position, rest), deferred.append targets)
      | none => (none, deferred) := by
  induction news with
  | nil => rfl
  | cons new news ih =>
      rw [findEnd_cons, Alignment.accepts_run, Alignment.expected_gap _ _ _ rfl before]
      simp only [Pairing.firstFit?, alignment] at ih ⊢
      cases old.fit? comparison.oldSymbols comparison.newSymbols
          (relocation.add ⟨old.position, start, new.position⟩).toNew new with
      | some targets => rfl
      | none => exact ih

/-- The scan comes to the pairing of the instructions. What was put aside before is compared
together with the targets of the pairs. -/
theorem relocation?_scan (relocation : Relocation) (deferred : Deferred)
    (olds news : List Instruction) (start : Nat) (consecutive : Consecutive start olds)
    (before : ∀ insertion ∈ relocation.toList, insertion.before < start) :
    (comparison.scan relocation deferred olds news).relocation? =
      if comparison.oldFault.isNone then
        (Pairing.pairUp? comparison.oldSymbols comparison.newSymbols relocation olds news).bind
          (Pairing.settle? deferred.toList)
      else none := by
  -- what was put aside before an instruction is never cut off, so it is carried along
  induction olds generalizing relocation deferred news start with
  | nil =>
      simp only [scan, Scan.relocation?, atEnd_eq_complete_iff, finish_eq_complete_iff]
      cases comparison.oldFault with
      | some fault => simp
      | none => simp [Pairing.pairUp?, Pairing.settle?, -List.all_eq_true]
  | cons old olds ih =>
      cases news with
      | nil => simp [scan, Scan.relocation?, atEnd_eq_complete_iff, Pairing.pairUp?]
      | cons new news =>
          have expected : (comparison.alignment relocation none).expected new.position =
              relocation.toNew := rfl
          have early := consecutive.before_le_position before
          have earlier := consecutive.before_lt_next early
          rw [scan, Alignment.accepts_run, expected, Pairing.pairUp?]
          simp only [alignment] at *
          cases old.fit? comparison.oldSymbols comparison.newSymbols relocation.toNew new with
          | some targets =>
              have rest := ih relocation (deferred.append targets) news old.next consecutive.tail
                earlier
              simp only [if_true, rest, Deferred.toList_append, Option.bind_map,
                Pairing.settle?_cons]
          | none =>
              have found := comparison.findEnd_run relocation old new.position early news deferred
              simp only [alignment, Bool.false_eq_true, if_false] at found ⊢
              rw [found]
              cases Pairing.firstFit? comparison.oldSymbols comparison.newSymbols relocation
                  new.position old news with
              | none => simp [Scan.relocation?, atEnd_eq_complete_iff]
              | some triple =>
                  obtain ⟨stop, targets, later⟩ := triple
                  have rest := ih (relocation.add ⟨old.position, new.position, stop.position⟩)
                    (deferred.append targets) later old.next consecutive.tail
                    (Relocation.forall_mem_add.mpr ⟨earlier, consecutive.lt_next⟩)
                  simp only [rest, Deferred.toList_append, Option.bind_map, Pairing.settle?_cons]

end Comparison

namespace Version

theorem relocation?_scan (old new : Version) :
    (old.scan new).relocation? = old.pairedRelocation? new := by
  have scanned := Comparison.relocation?_scan
    ⟨old.symbols, new.symbols, old.listing.fault, new.listing.fault⟩ .empty .empty
    old.listing.instructions new.listing.instructions 0 old.consecutive_listing
    (List.forall_mem_nil _)
  rw [pairedRelocation?, pairing?, scan, scanned, Listing.isComplete]
  split <;> rfl

/-- A relocation leads from one version to another if it is that of a pairing whose targets
correspond to each other. -/
theorem relocation?_eq_some_iff {old new : Version} {relocation : Relocation} :
    old.relocation? new = some relocation ↔
      Mode.switchable.obstacle? old.body new.body = none ∧
        ∃ pairing, old.pairing? new = some pairing ∧ pairing.isSettled = true ∧
          pairing.relocation = relocation := by
  unfold relocation?
  cases Mode.switchable.obstacle? old.body new.body with
  | some obstacle => simp
  | none => simp [relocation?_scan, pairedRelocation?, Option.bind_eq_some_iff]

/-- The scan finds the insertions of the pairing. What it put aside for instructions that it did
not take, and where it looked for the end of a gap, makes no difference. -/
theorem relocation?_eq_pairedRelocation? (old new : Version) :
    old.relocation? new =
      if Mode.switchable.obstacle? old.body new.body = none then old.pairedRelocation? new
      else none := by
  unfold relocation?
  cases Mode.switchable.obstacle? old.body new.body with
  | some obstacle => rfl
  | none => exact relocation?_scan old new

end Version

end HotSwap
