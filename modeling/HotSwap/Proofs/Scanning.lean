import HotSwap.Proofs.Correspondence
import HotSwap.Proofs.Recording
import Mathlib.Logic.Relation

/-! # The course of a scan

A scan goes from point to point: at each step one old instruction is passed, and one or more new
ones. The insertions that are known at a point lie before the instructions that are left. This is
why the next one can be recorded, and why a gap never ends before it starts, on all the way of a
scan and whatever comes of it. -/

namespace HotSwap

/-- A point of a scan: what was found up to there, and the instructions that are left. -/
structure ScanPoint where
  relocation : Relocation
  deferred : Deferred
  olds : List Instruction
  news : List Instruction

namespace Comparison

/-- The scan from a point on. -/
def scanFrom (comparison : Comparison) (point : ScanPoint) : Scan :=
  comparison.scan point.relocation point.deferred point.olds point.news

/-- One step of a scan. Either the next new instruction takes the place of the next old one, or an
insertion is recorded that ends before a later one that does. -/
inductive Step (comparison : Comparison) : ScanPoint → ScanPoint → Prop
  | straight {relocation : Relocation} {deferred kept : Deferred} {old new : Instruction}
      {olds news : List Instruction}
      (accepted : ((comparison.alignment relocation none).accepts old new).run deferred =
        (true, kept)) :
      Step comparison ⟨relocation, deferred, old :: olds, new :: news⟩
        ⟨relocation, kept, olds, news⟩
  | recorded {relocation : Relocation} {deferred kept after : Deferred} {old new : Instruction}
      {olds news rest : List Instruction} {stop : Nat}
      (rejected : ((comparison.alignment relocation none).accepts old new).run deferred =
        (false, kept))
      (ends : (findEnd (comparison.alignment relocation (some ⟨old.position, new.position⟩)) old
        news).run kept = (some (stop, rest), after)) :
      Step comparison ⟨relocation, deferred, old :: olds, new :: news⟩
        ⟨relocation.add ⟨old.position, new.position, stop⟩, after, olds, rest⟩

/-- The points to which a scan comes. -/
abbrev Reaches (comparison : Comparison) : ScanPoint → ScanPoint → Prop :=
  Relation.ReflTransGen comparison.Step

/-- Which instructions may be held against each other at a point, and what is known then: the next
two, and if these do not match, the old one and any later new one. -/
inductive Asks (comparison : Comparison) : ScanPoint → Alignment → Instruction → Instruction → Prop
  | next (relocation : Relocation) (deferred : Deferred) (old new : Instruction)
      (olds news : List Instruction) :
      Asks comparison ⟨relocation, deferred, old :: olds, new :: news⟩
        (comparison.alignment relocation none) old new
  | candidate {relocation : Relocation} {deferred kept : Deferred} {old new later : Instruction}
      {olds news : List Instruction}
      (rejected : ((comparison.alignment relocation none).accepts old new).run deferred =
        (false, kept))
      (mem : later ∈ news) :
      Asks comparison ⟨relocation, deferred, old :: olds, new :: news⟩
        (comparison.alignment relocation (some ⟨old.position, new.position⟩)) old later

variable {comparison : Comparison} {point next : ScanPoint}

/-- A step leaves the rest of the scan to be done. -/
theorem Step.scanFrom_eq (step : comparison.Step point next) :
    comparison.scanFrom point = comparison.scanFrom next := by
  cases step with
  | straight accepted => simp only [scanFrom, scan, accepted, if_true]
  | recorded rejected ends =>
      simp only [scanFrom, scan, rejected, Bool.false_eq_true, if_false, ends]

/-- What is left to be done at a point of a scan is the rest of the scan. -/
theorem Reaches.scanFrom_eq (reached : comparison.Reaches point next) :
    comparison.scanFrom point = comparison.scanFrom next := by
  induction reached with
  | refl => rfl
  | tail earlier last ih => exact ih.trans last.scanFrom_eq

/-- A scan steps on until it ends, and has found then what is known at the last point. -/
theorem exists_last (comparison : Comparison) (relocation : Relocation) (deferred : Deferred)
    (olds news : List Instruction) :
    ∃ last, comparison.Reaches ⟨relocation, deferred, olds, news⟩ last ∧
      (∀ next, ¬comparison.Step last next) ∧
      (comparison.scan relocation deferred olds news).relocation = last.relocation := by
  induction olds generalizing relocation deferred news with
  | nil =>
      refine ⟨_, .refl, ?_, rfl⟩
      intro next step
      cases step
  | cons old olds ih =>
      cases news with
      | nil =>
          refine ⟨_, .refl, ?_, rfl⟩
          intro next step
          cases step
      | cons new news =>
          have goOn {next : ScanPoint} (olds_eq : next.olds = olds)
              (step : comparison.Step ⟨relocation, deferred, old :: olds, new :: news⟩ next) :
              ∃ last, comparison.Reaches ⟨relocation, deferred, old :: olds, new :: news⟩ last ∧
                (∀ next, ¬comparison.Step last next) ∧
                (comparison.scan relocation deferred (old :: olds) (new :: news)).relocation =
                  last.relocation := by
            obtain ⟨last, reached, stuck, found⟩ := ih next.relocation next.deferred next.news
            subst olds_eq
            refine ⟨last, .head step reached, stuck, ?_⟩
            rw [← found]
            exact congrArg Scan.relocation step.scanFrom_eq
          cases first : ((comparison.alignment relocation none).accepts old new).run deferred with
          | mk same kept =>
              cases same with
              | true => exact goOn rfl (.straight first)
              | false =>
                  cases ends : (findEnd (comparison.alignment relocation
                      (some ⟨old.position, new.position⟩)) old news).run kept with
                  | mk found after =>
                      cases found with
                      | some pair => exact goOn rfl (.recorded first ends)
                      | none =>
                          refine ⟨_, .refl, ?_, ?_⟩
                          · intro next step
                            cases step with
                            | straight accepted => cases first.symm.trans accepted
                            | recorded rejected ends' =>
                                cases first.symm.trans rejected
                                cases ends.symm.trans ends'
                          · simp only [scan, first, Bool.false_eq_true, if_false, ends]

/-- The end of a gap is the position of an instruction in it, and what is left comes after it. -/
theorem exists_of_findEnd {alignment : Alignment} {old : Instruction}
    {news rest : List Instruction} {deferred kept : Deferred} {stop : Nat}
    (ends : (findEnd alignment old news).run deferred = (some (stop, rest), kept)) :
    ∃ skipped found, news = skipped ++ found :: rest ∧ found.position = stop := by
  induction news generalizing deferred with
  | nil => cases ends
  | cons new news ih =>
      rw [findEnd_cons] at ends
      split at ends
      · cases ends
        exact ⟨[], new, rfl, rfl⟩
      · obtain ⟨skipped, found, eq, position⟩ := ih ends
        exact ⟨new :: skipped, found, by rw [eq, List.cons_append], position⟩

end Comparison

/-- Whether a relocation is made of insertions between the instructions of two codes. Each one is
before an old instruction of its own, and goes from one new instruction to another, from which it
is some way to the next insertion. -/
structure Relocation.WellFormed (relocation : Relocation) (olds news : List Instruction) :
    Prop where
  nonempty : ∀ insertion ∈ relocation.toList, insertion.start < insertion.stop
  apart : relocation.toList.Pairwise fun first second =>
    first.before < second.before ∧ first.stop < second.start
  beforeOld : ∀ insertion ∈ relocation.toList, ∃ old ∈ olds, insertion.before = old.position
  startsAtNew : ∀ insertion ∈ relocation.toList, ∃ new ∈ news, insertion.start = new.position
  stopsAtNew : ∀ insertion ∈ relocation.toList, ∃ new ∈ news, insertion.stop = new.position

/-- No two insertions are before the same old instruction. -/
theorem Relocation.WellFormed.nodup_before {relocation : Relocation}
    {olds news : List Instruction} (wellFormed : relocation.WellFormed olds news) :
    (relocation.toList.map (·.before)).Nodup := by
  rw [List.Nodup, List.pairwise_map]
  exact wellFormed.apart.imp fun both => Nat.ne_of_lt both.1

/-- An insertion that is some way behind all others may be added, if it is between instructions. -/
theorem Relocation.WellFormed.add {relocation : Relocation} {old first found : Instruction}
    {olds news : List Instruction} (wellFormed : relocation.WellFormed olds news)
    (oldMem : old ∈ olds) (firstMem : first ∈ news) (foundMem : found ∈ news)
    (nonempty : first.position < found.position)
    (behind : ∀ earlier ∈ relocation.toList,
      earlier.before < old.position ∧ earlier.stop < first.position) :
    (relocation.add ⟨old.position, first.position, found.position⟩).WellFormed olds news := by
  constructor
  · exact forall_mem_add.mpr ⟨wellFormed.nonempty, nonempty⟩
  · rw [toList_add, List.pairwise_append]
    refine ⟨wellFormed.apart, List.pairwise_singleton _ _, ?_⟩
    intro earlier mem gap isGap
    rw [List.mem_singleton.mp isGap]
    exact behind earlier mem
  · exact forall_mem_add.mpr ⟨wellFormed.beforeOld, old, oldMem, rfl⟩
  · exact forall_mem_add.mpr ⟨wellFormed.startsAtNew, first, firstMem, rfl⟩
  · exact forall_mem_add.mpr ⟨wellFormed.stopsAtNew, found, foundMem, rfl⟩

namespace ScanPoint

/-- What holds at all points of a scan through two codes: the insertions are well-formed, and lie
before the instructions that are left. -/
structure Within (olds news : List Instruction) (point : ScanPoint) : Prop where
  oldsLeft : point.olds <:+ olds
  newsLeft : point.news <:+ news
  wellFormed : point.relocation.WellFormed olds news
  recorded : point.relocation.Recorded
  beforeOlds : ∀ insertion ∈ point.relocation.toList, ∀ old ∈ point.olds,
    insertion.before < old.position
  beforeNews : ∀ insertion ∈ point.relocation.toList, ∀ new ∈ point.news,
    insertion.stop < new.position

variable {olds news : List Instruction} {oldStart newStart : Nat} {comparison : Comparison}
  {point next : ScanPoint}

theorem within_start (olds news : List Instruction) :
    Within olds news ⟨.empty, .empty, olds, news⟩ := by
  refine ⟨List.suffix_refl _, List.suffix_refl _, ?_, .empty, ?_, ?_⟩
  · exact ⟨List.forall_mem_nil _, .nil, List.forall_mem_nil _, List.forall_mem_nil _,
      List.forall_mem_nil _⟩
  · exact List.forall_mem_nil _
  · exact List.forall_mem_nil _

/-- What is left of a code is one instruction after the other. -/
theorem exists_consecutive {left all : List Instruction} {start : Nat}
    (consecutive : Consecutive start all) (suffix : left <:+ all) :
    ∃ middle, Consecutive middle left := by
  obtain ⟨front, rfl⟩ := suffix
  obtain ⟨middle, -, rest⟩ := consecutive.drop_append
  exact ⟨middle, rest⟩

namespace Within

variable {relocation : Relocation} {deferred kept : Deferred} {old new found : Instruction}
  {oldsLeft newsLeft skipped rest : List Instruction}

/-- The next two instructions are behind all insertions. -/
theorem behind
    (within : Within olds news ⟨relocation, deferred, old :: oldsLeft, new :: newsLeft⟩) :
    ∀ earlier ∈ relocation.toList,
      earlier.before < old.position ∧ earlier.stop < new.position := by
  intro earlier mem
  constructor
  · exact within.beforeOlds earlier mem old List.mem_cons_self
  · exact within.beforeNews earlier mem new List.mem_cons_self

/-- An insertion that begins at the next new instruction can be recorded before the next old one. -/
theorem admits (within : Within olds news ⟨relocation, deferred, old :: oldsLeft, new :: newsLeft⟩)
    (consecutive : Consecutive newStart news) (mem : found ∈ newsLeft) :
    relocation.Admits ⟨old.position, new.position, found.position⟩ := by
  obtain ⟨middle, left⟩ := exists_consecutive consecutive within.newsLeft
  refine ⟨left.position_lt mem, ?_⟩
  intro last isLast
  obtain ⟨before, stop⟩ := within.behind last (List.mem_of_getLast? isLast)
  exact ⟨before, Nat.le_of_lt stop⟩

/-- Passing an old and a new instruction changes nothing about the insertions. -/
theorem straight
    (within : Within olds news ⟨relocation, deferred, old :: oldsLeft, new :: newsLeft⟩) :
    Within olds news ⟨relocation, kept, oldsLeft, newsLeft⟩ := by
  refine ⟨?_, ?_, within.wellFormed, within.recorded, ?_, ?_⟩
  · exact (List.suffix_cons _ _).trans within.oldsLeft
  · exact (List.suffix_cons _ _).trans within.newsLeft
  · intro insertion mem later inLeft
    exact within.beforeOlds insertion mem later (List.mem_cons_of_mem _ inLeft)
  · intro insertion mem later inLeft
    exact within.beforeNews insertion mem later (List.mem_cons_of_mem _ inLeft)

/-- A recorded insertion is between instructions, and before those that are left then. -/
theorem recordedGap
    (within : Within olds news
      ⟨relocation, deferred, old :: oldsLeft, new :: (skipped ++ found :: rest)⟩)
    (consecutive : Consecutive oldStart olds) (newConsecutive : Consecutive newStart news) :
    Within olds news
      ⟨relocation.add ⟨old.position, new.position, found.position⟩, kept, oldsLeft, rest⟩ := by
  have admits := within.admits newConsecutive (List.mem_append_right skipped List.mem_cons_self)
  obtain ⟨oldMiddle, oldLeft⟩ := exists_consecutive consecutive within.oldsLeft
  have restLeft : found :: rest <:+ news :=
    ((List.suffix_append skipped _).trans (List.suffix_cons new _)).trans within.newsLeft
  obtain ⟨newMiddle, newLeft⟩ := exists_consecutive newConsecutive restLeft
  refine ⟨?_, ?_, ?_, .add within.recorded admits, ?_, ?_⟩
  · exact (List.suffix_cons _ _).trans within.oldsLeft
  · exact (List.suffix_cons _ _).trans restLeft
  · apply within.wellFormed.add _ _ _ admits.nonempty within.behind
    · exact within.oldsLeft.subset List.mem_cons_self
    · exact within.newsLeft.subset List.mem_cons_self
    · exact restLeft.subset List.mem_cons_self
  · rw [Relocation.forall_mem_add]
    constructor
    · intro insertion mem later inLeft
      exact within.beforeOlds insertion mem later (List.mem_cons_of_mem _ inLeft)
    · exact fun later inLeft => oldLeft.position_lt inLeft
  · rw [Relocation.forall_mem_add]
    constructor
    · intro insertion mem later inLeft
      apply within.beforeNews insertion mem later
      exact List.mem_cons_of_mem _ (List.mem_append_right _ (List.mem_cons_of_mem _ inLeft))
    · exact fun later inLeft => newLeft.position_lt inLeft

/-- One step keeps the insertions well-formed. -/
theorem step (within : Within olds news point) (consecutive : Consecutive oldStart olds)
    (newConsecutive : Consecutive newStart news) (step : comparison.Step point next) :
    Within olds news next := by
  cases step with
  | straight accepted => exact within.straight
  | recorded rejected ends =>
      obtain ⟨skipped, found, rfl, rfl⟩ := Comparison.exists_of_findEnd ends
      exact within.recordedGap consecutive newConsecutive

/-- A whole run keeps the insertions well-formed. -/
theorem of_reaches (consecutive : Consecutive oldStart olds)
    (newConsecutive : Consecutive newStart news)
    (reached : comparison.Reaches ⟨.empty, .empty, olds, news⟩ point) :
    Within olds news point := by
  induction reached with
  | refl => exact within_start olds news
  | tail earlier last ih => exact ih.step consecutive newConsecutive last

/-- A step records only what can be recorded. -/
theorem admits_of_step (within : Within olds news point)
    (newConsecutive : Consecutive newStart news) (step : comparison.Step point next)
    {insertion : Insertion} (records : next.relocation = point.relocation.add insertion) :
    point.relocation.Admits insertion := by
  cases step with
  | straight accepted =>
      have count := congrArg (·.toList.length) records
      simp [Relocation.toList_add] at count
  | recorded rejected ends =>
      obtain ⟨skipped, found, rfl, rfl⟩ := Comparison.exists_of_findEnd ends
      have same := congrArg Relocation.toList records
      rw [Relocation.toList_add, Relocation.toList_add, List.append_cancel_left_eq,
        List.singleton_inj] at same
      rw [← same]
      exact within.admits newConsecutive (List.mem_append_right skipped List.mem_cons_self)

/-- A candidate for the end of a gap is never before the gap. -/
theorem start_le_of_asks (within : Within olds news point)
    (newConsecutive : Consecutive newStart news) {alignment : Alignment}
    (asks : comparison.Asks point alignment old new) :
    ∀ gap ∈ alignment.gap, gap.start ≤ new.position := by
  intro gap isOpen
  cases asks with
  | next => cases isOpen
  | candidate rejected mem =>
      cases isOpen
      obtain ⟨middle, left⟩ := exists_consecutive newConsecutive within.newsLeft
      exact Nat.le_of_lt (left.position_lt mem)

end Within

end ScanPoint

namespace Version

variable {old new : Version} {relocation : Relocation}

/-- The comparison that a scan makes. -/
def comparison (old new : Version) : Comparison :=
  ⟨old.symbols, new.symbols, old.listing.fault, new.listing.fault⟩

/-- The point from which a scan starts. -/
def startPoint (old new : Version) : ScanPoint :=
  ⟨.empty, .empty, old.listing.instructions, new.listing.instructions⟩

/-- At the end of a scan, what was found is known at a point to which the scan came. -/
theorem exists_last_scan (old new : Version) :
    ∃ last, (old.comparison new).Reaches (old.startPoint new) last ∧
      (∀ next, ¬(old.comparison new).Step last next) ∧
      (old.scan new).relocation = last.relocation :=
  (old.comparison new).exists_last .empty .empty old.listing.instructions
    new.listing.instructions

theorem within_of_reaches {point : ScanPoint}
    (reached : (old.comparison new).Reaches (old.startPoint new) point) :
    point.Within old.listing.instructions new.listing.instructions :=
  .of_reaches old.consecutive_listing new.consecutive_listing reached

theorem relocation_scan_of_relocation? (h : old.relocation? new = some relocation) :
    (old.scan new).relocation = relocation := by
  unfold relocation? at h
  split at h
  · cases h
  · unfold Scan.relocation? at h
    split at h
    · exact Option.some.inj h
    · cases h

/-- Wherever a scan comes, it records only insertions that can be recorded there, and a candidate
for the end of a gap is never before its start. It goes on like this until there is no further step,
and what it has found then, well or not, was recorded in order. A relocation between two versions
is made of insertions between their instructions, no two of them before the same old one. -/
theorem wellFormed_of_scan (old new : Version) :
    (∀ point, (old.comparison new).Reaches (old.startPoint new) point →
      old.scan new = (old.comparison new).scanFrom point ∧
      (∀ next insertion, (old.comparison new).Step point next →
        next.relocation = point.relocation.add insertion → point.relocation.Admits insertion) ∧
      ∀ alignment first second, (old.comparison new).Asks point alignment first second →
        ∀ gap ∈ alignment.gap, gap.start ≤ second.position) ∧
    (∃ last, (old.comparison new).Reaches (old.startPoint new) last ∧
      (∀ next, ¬(old.comparison new).Step last next) ∧
      (old.scan new).relocation = last.relocation ∧ last.relocation.Recorded) ∧
    ∀ relocation, old.relocation? new = some relocation →
      relocation.WellFormed old.listing.instructions new.listing.instructions ∧
        (relocation.toList.map (·.before)).Nodup := by
  obtain ⟨last, reachedLast, stuck, found⟩ := old.exists_last_scan new
  have atEnd := within_of_reaches reachedLast
  refine ⟨?_, ⟨last, reachedLast, stuck, found, atEnd.recorded⟩, ?_⟩
  · intro point reached
    have within := within_of_reaches reached
    refine ⟨reached.scanFrom_eq, ?_, ?_⟩
    · intro next insertion step records
      exact within.admits_of_step new.consecutive_listing step records
    · intro alignment first second asks
      exact within.start_le_of_asks new.consecutive_listing asks
  · intro relocation h
    rw [← relocation_scan_of_relocation? h, found]
    exact ⟨atEnd.wellFormed, atEnd.wellFormed.nodup_before⟩

/-- Code is inserted in front of the first instruction and in front of one that jumps to itself,
which is a candidate for the end of the second gap. -/
theorem wellFormed_of_inserted_twice :
    let old := ofCode [0x1a, 0xa7, 0, 0, 0xb1]
    let new := ofCode [0, 0x1a, 0, 0xa7, 0, 0, 0xb1]
    let jump : Instruction := ⟨⟨0xa7⟩, 1, false, [0xa7, 0, 0], .jump 0⟩
    let newJump : Instruction := ⟨⟨0xa7⟩, 3, false, [0xa7, 0, 0], .jump 0⟩
    let olds := [jump, ⟨⟨0xb1⟩, 4, false, [0xb1], .none⟩]
    let news := [newJump, ⟨⟨0xb1⟩, 6, false, [0xb1], .none⟩]
    let first := Relocation.empty.add ⟨0, 0, 1⟩
    let relocation := first.add ⟨1, 2, 3⟩
    let point : ScanPoint :=
      ⟨first, .empty, olds, ⟨⟨0⟩, 2, false, [0], .none⟩ :: news⟩
    let next : ScanPoint := ⟨relocation, .empty, olds.tail, news.tail⟩
    (old.comparison new).Reaches (old.startPoint new) point ∧
      (old.comparison new).Step point next ∧ first.Admits ⟨1, 2, 3⟩ ∧
      (old.comparison new).Asks point ((old.comparison new).alignment first (some ⟨1, 2⟩)) jump
        newJump ∧ 2 ≤ newJump.position ∧
      old.relocation? new = some relocation ∧
      relocation.WellFormed old.listing.instructions new.listing.instructions := by
  intro old new jump newJump olds news first relocation point next
  obtain ⟨along, -, wellFormed⟩ := wellFormed_of_scan old new
  have start : old.startPoint new =
      ⟨.empty, .empty, ⟨⟨0x1a⟩, 0, false, [0x1a], .none⟩ :: olds,
        ⟨⟨0⟩, 0, false, [0], .none⟩ :: ⟨⟨0x1a⟩, 1, false, [0x1a], .none⟩ ::
          ⟨⟨0⟩, 2, false, [0], .none⟩ :: news⟩ := by
    unfold startPoint
    congr 1 <;> decide +kernel
  have reached : (old.comparison new).Reaches (old.startPoint new) point := by
    rw [start]
    exact .single (.recorded rfl rfl)
  have step : (old.comparison new).Step point next :=
    .recorded rfl rfl
  have asks : (old.comparison new).Asks point
      ((old.comparison new).alignment first (some ⟨1, 2⟩)) jump newJump :=
    .candidate rfl List.mem_cons_self
  have found : old.relocation? new = some relocation := by decide +kernel
  obtain ⟨-, admits, notBefore⟩ := along point reached
  exact ⟨reached, step, admits next ⟨1, 2, 3⟩ step rfl, asks,
    notBefore _ jump newJump asks ⟨1, 2⟩ rfl, found, (wellFormed relocation found).1⟩

end Version

end HotSwap
