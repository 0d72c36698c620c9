import Lynox.Bulk.Operations
import Mathlib.Logic.Relation

/-!
# What an operation does to the runs

Every operation on the ledger is a sequence of statements, and there are few kinds of them
(`Ledger.Statement`) : rows change in place (`Run.Move`), one run's read is started, one run is
opened for writing, a run is inserted, runs that were never approved are deleted, a probe is
filed. Each kind carries the guard under which the code issues it. An invariant of the ledger
is proved once for each kind; `Ledger.statements_step` says that no operation does anything
else.

Some guards rest on an invariant of their own, `Ledger.Staged` : a run has an approval exactly
from its approval on, an approved or previewed run is complete, nothing was done for an
unapproved one, an undo's source was approved, and at most one run holds the read slot and at
most one started judge waits. `approvedAt` is never cleared, so it is the sign that lasts.
-/

namespace Lynox.Bulk

variable {V : Type} {D : Deps V}

/-! ## Columns -/

/-- The columns of a run no operation changes. -/
structure RunFrame where
  id : String
  createdAt : Time
  targetSystem : String
  atomic : Bool
  kind : RunKind
  targetCollection : Option String
  principal : Option String
  mandateId : Option String
  listSource : Option String
  judgeRule : Option String
  judgeRuleHash : Option String

def Run.frame (x : Run) : RunFrame where
  id := x.id
  createdAt := x.createdAt
  targetSystem := x.targetSystem
  atomic := x.atomic
  kind := x.kind
  targetCollection := x.targetCollection
  principal := x.principal
  mandateId := x.mandateId
  listSource := x.listSource
  judgeRule := x.judgeRule
  judgeRuleHash := x.judgeRuleHash

/-- What else the checksum of a run is taken over, its targets apart, and its approval. -/
structure RunTerms where
  sourceRunId : Option String
  ruleHash : String
  contractJson : Option String
  startDomains : Option String
  approvedAt : Option Time
  approvalChecksum : Option String

def Run.terms (x : Run) : RunTerms where
  sourceRunId := x.sourceRunId
  ruleHash := x.ruleHash
  contractJson := x.contractJson
  startDomains := x.startDomains
  approvedAt := x.approvedAt
  approvalChecksum := x.approvalChecksum

/-- Where a run stands. -/
structure RunStage where
  phase : Phase
  haltReason : Option HaltReason
  listState : Option ListState
  costCapUsd : Option ℚ

def Run.stage (x : Run) : RunStage :=
  ⟨x.phase, x.haltReason, x.listState, x.costCapUsd⟩

/-- What was decided for a target. -/
def Target.decided (t : Target) : TargetPlan × Option Time :=
  (t.plan, t.judgedAt)

/-- What was done for a target. -/
def Target.traces (t : Target) : Option Time × Option Time × Bool × ℕ × Bool :=
  (t.appliedAt, t.undoneAt, t.writeSent, t.unknownSends, t.foundUnsent)

theorem Target.untouched_of_traces {t t' : Target} (h : t'.traces = t.traces) (ht : t.Untouched) :
    t'.Untouched := by
  simp only [traces, Prod.mk.injEq] at h
  exact ⟨h.1.trans ht.applied, h.2.1.trans ht.undone, h.2.2.1.trans ht.sent,
    h.2.2.2.1.trans ht.unknown, h.2.2.2.2.trans ht.found⟩

/-- A target whose send ended unclear was marked before. -/
def Target.Marked (t : Target) : Prop :=
  0 < t.unknownSends → t.writeSent = true

def Run.Marked (x : Run) : Prop :=
  ∀ t ∈ x.targets, t.Marked

/-- A target of a planned run : nothing was done for it, and it has an after-state unless it is
invalid. -/
structure Target.Prepared (t : Target) : Prop where
  untouched : t.Untouched
  after : t.change ≠ .invalid → t.afterPlanned.isSome = true

/-- Every target that is not invalid holds a before-image and, in a judged run, a verdict. -/
def Run.Complete (x : Run) : Prop :=
  ∀ t ∈ x.targets, t.change ≠ .invalid →
    t.before.isSome = true ∧ (x.judgeRule.isSome = true → t.judgedAt.isSome = true)

/-! ## Moves of one run -/

/-- What an operation does to a run in place, the starts and openings apart. -/
inductive Run.Move : Run → Run → Prop
  /-- Counters, connections and claims. -/
  | notes {x x' : Run} (frame : x'.frame = x.frame) (terms : x'.terms = x.terms)
      (stage : x'.stage = x.stage) (decided : x'.targets.map Target.decided =
        x.targets.map Target.decided)
      (marks : x'.targets.map Target.traces = x.targets.map Target.traces) : Move x x'
  /-- The marks of the effect, on a run that was approved. -/
  | records {x x' : Run} (approved : x.approvedAt.isSome = true) (frame : x'.frame = x.frame)
      (terms : x'.terms = x.terms) (stage : x'.stage = x.stage)
      (decided : x'.targets.map Target.decided = x.targets.map Target.decided)
      (marked : x.Marked → x'.Marked) : Move x x'
  /-- The phase of a run that was approved. -/
  | turns {x x' : Run} (approved : x.approvedAt.isSome = true) (frame : x'.frame = x.frame)
      (terms : x'.terms = x.terms) (targets : x'.targets = x.targets)
      (list : x'.listState = x.listState)
      (left : x'.unapproved = false) (opened : x'.mayWrite = true → x.mayWrite = true)
      (ended : x'.haltReason.any HaltReason.endsUnapproved = true →
        x'.phase = .aborted → x.haltReason = x'.haltReason ∧ x.phase = .aborted) : Move x x'
  /-- The targets of a planned run : a page of its list, a read, a verdict. -/
  | prepares {x x' : Run} (planned : x.phase = .planned) (frame : x'.frame = x.frame)
      (terms : x'.terms = x.terms) (stage : x'.stage = x.stage)
      (prepared : (∀ t ∈ x.targets, t.Prepared) → ∀ t ∈ x'.targets, t.Prepared) : Move x x'
  /-- The list of a planned run is read, and has targets. -/
  | lists {x x' : Run} (planned : x.phase = .planned) (frame : x'.frame = x.frame)
      (source : x'.sourceRunId = x.sourceRunId) (approved : x'.approvedAt = x.approvedAt)
      (targets : x'.targets = x.targets) (phase : x'.phase = .planned)
      (halted : x'.haltReason = some .listed) (cap : x'.costCapUsd = x.costCapUsd) : Move x x'
  /-- A planned run is previewed. -/
  | previews {x x' : Run} (planned : x.phase = .planned) (frame : x'.frame = x.frame)
      (source : x'.sourceRunId = x.sourceRunId) (approved : x'.approvedAt = x.approvedAt)
      (targets : x'.targets = x.targets) (phase : x'.phase = .previewed)
      (list : x'.listState ≠ some .pending) (cap : x'.costCapUsd = x.costCapUsd)
      (complete : (∀ t ∈ x.targets, t.Prepared) → x'.Complete) : Move x x'
  /-- An unapproved run is ended. -/
  | ends {x x' : Run} (unapproved : x.unapproved = true) (frame : x'.frame = x.frame)
      (terms : x'.terms = x.terms) (targets : x'.targets = x.targets)
      (phase : x'.phase = .aborted) : Move x x'
  /-- A run is halted where it is. -/
  | halts {x x' : Run} (frame : x'.frame = x.frame) (terms : x'.terms = x.terms)
      (targets : x'.targets = x.targets) (phase : x'.phase = x.phase)
      (list : x'.listState = x.listState) (cap : x'.costCapUsd = x.costCapUsd)
      (reason : ∃ reason, x'.haltReason = some reason ∧ reason.endsUnapproved = false) : Move x x'
  /-- A target of a previewed run is taken out, or put back. -/
  | selects {x x' : Run} (previewed : x.phase = .previewed) (frame : x'.frame = x.frame)
      (terms : x'.terms = x.terms) (stage : x'.stage = x.stage)
      (targets : ∃ f : Target → Target, x'.targets = x.targets.map f ∧
        ∀ t, (f t).change = t.change ∧ (f t).before = t.before ∧ (f t).judgedAt = t.judgedAt ∧
          (f t).traces = t.traces) : Move x x'

theorem Run.Move.refl (x : Run) : x.Move x :=
  .notes rfl rfl rfl rfl rfl

theorem Run.Move.frame {x x' : Run} (h : x.Move x') : x'.frame = x.frame := by
  cases h <;> assumption

theorem Run.Move.source {x x' : Run} (h : x.Move x') : x'.sourceRunId = x.sourceRunId := by
  cases h <;> first | assumption | exact congrArg RunTerms.sourceRunId ‹x'.terms = x.terms›

theorem Run.Move.approvedAt {x x' : Run} (h : x.Move x') : x'.approvedAt = x.approvedAt := by
  cases h <;> first | assumption | exact congrArg RunTerms.approvedAt ‹x'.terms = x.terms›

theorem Run.Move.judgeRule {x x' : Run} (h : x.Move x') : x'.judgeRule = x.judgeRule :=
  congrArg RunFrame.judgeRule h.frame

/-- A judged run that was started and is not approved. -/
def Run.holdsJudge (x : Run) : Bool :=
  x.judgeStarted && x.unapproved

theorem Run.reading_congr {x x' : Run} (hframe : x'.frame = x.frame) (hstage : x'.stage = x.stage) :
    x'.reading = x.reading := by
  rw [reading, reading, show x'.phase = x.phase from congrArg RunStage.phase hstage,
    show x'.haltReason = x.haltReason from congrArg RunStage.haltReason hstage,
    show x'.targetSystem = x.targetSystem from congrArg RunFrame.targetSystem hframe]

theorem Run.holdsJudge_congr {x x' : Run} (hrule : x'.judgeRule = x.judgeRule)
    (hcap : x'.costCapUsd = x.costCapUsd) (hphase : x'.unapproved = x.unapproved) :
    x'.holdsJudge = x.holdsJudge := by
  rw [holdsJudge, holdsJudge, judgeStarted, judgeStarted, hrule, hcap, hphase]

/-- No move takes the read slot. -/
theorem Run.Move.reading {x x' : Run} (h : x.Move x') (hr : x'.reading = true) :
    x.reading = true := by
  have hplanned : x'.phase = .planned ∧ x'.haltReason = none := by
    simp only [Run.reading, Bool.and_eq_true, decide_eq_true_eq, Option.isNone_iff_eq_none] at hr
    exact hr.1
  cases h with
  | notes frame terms stage decided marks => exact reading_congr frame stage ▸ hr
  | records approved frame terms stage decided marked => exact reading_congr frame stage ▸ hr
  | prepares planned frame terms stage prepared => exact reading_congr frame stage ▸ hr
  | selects previewed frame terms stage targets => exact reading_congr frame stage ▸ hr
  | turns approved frame terms targets list left => simp [Run.unapproved, hplanned.1] at left
  | lists planned frame source approved targets phase halted => simp [hplanned.2] at halted
  | previews planned frame source approved targets phase => simp [hplanned.1] at phase
  | ends unapproved frame terms targets phase => simp [hplanned.1] at phase
  | halts frame terms targets phase list cap reason =>
    obtain ⟨reason, hhalt, -⟩ := reason
    simp [hplanned.2] at hhalt

/-- No move starts a judge. -/
theorem Run.Move.holdsJudge {x x' : Run} (h : x.Move x') (hj : x'.holdsJudge = true) :
    x.holdsJudge = true := by
  have hrule := h.judgeRule
  have hstage (stage : x'.stage = x.stage) : x.holdsJudge = true := by
    have hphase : x'.phase = x.phase := congrArg RunStage.phase stage
    have hsame : x'.unapproved = x.unapproved := by rw [unapproved, unapproved, hphase]
    exact holdsJudge_congr hrule (congrArg RunStage.costCapUsd stage) hsame ▸ hj
  have hunapproved : x'.unapproved = true := by
    simp only [Run.holdsJudge, Bool.and_eq_true] at hj
    exact hj.2
  cases h with
  | notes frame terms stage decided marks => exact hstage stage
  | records approved frame terms stage decided marked => exact hstage stage
  | prepares planned frame terms stage prepared => exact hstage stage
  | selects previewed frame terms stage targets => exact hstage stage
  | turns approved frame terms targets list left =>
    rw [left] at hunapproved
    cases hunapproved
  | lists planned frame source approved targets phase halted cap =>
    have hsame : x'.unapproved = x.unapproved := by simp [unapproved, phase, planned]
    exact holdsJudge_congr hrule cap hsame ▸ hj
  | previews planned frame source approved targets phase list cap =>
    have hsame : x'.unapproved = x.unapproved := by simp [unapproved, phase, planned]
    exact holdsJudge_congr hrule cap hsame ▸ hj
  | ends unapproved frame terms targets phase => simp [Run.unapproved, phase] at hunapproved
  | halts frame terms targets phase list cap =>
    have hsame : x'.unapproved = x.unapproved := by rw [unapproved, unapproved, phase]
    exact holdsJudge_congr hrule cap hsame ▸ hj

/-! ## Runs in their stage -/

/-- A run has an approval exactly from its approval on; from its preview on it is complete, and
until its approval nothing was done for it. -/
structure Run.Staged (x : Run) : Prop where
  approved : x.approvedAt.isSome = true → x.unapproved = false
  reached : x.unapproved = false → x.phase ≠ .aborted → x.approvedAt.isSome = true
  ended : x.phase = .aborted → x.haltReason.any HaltReason.endsUnapproved = true →
    x.approvedAt = none
  untouched : x.approvedAt = none → x.Untouched
  planned : x.phase = .planned → ∀ t ∈ x.targets, t.change ≠ .invalid → t.afterPlanned.isSome = true
  complete : x.approvedAt.isSome = true ∨ x.phase = .previewed →
    x.Complete ∧ x.listState ≠ some .pending

namespace Run

variable {x x' : Run}

theorem unapproved_congr (h : x'.phase = x.phase) : x'.unapproved = x.unapproved := by
  rw [unapproved, unapproved, h]

theorem exists_of_map_eq {α : Type} {f : Target → α}
    (h : x'.targets.map f = x.targets.map f) {t' : Target} (ht : t' ∈ x'.targets) :
    ∃ t ∈ x.targets, f t = f t' :=
  List.mem_map.mp (h ▸ List.mem_map_of_mem ht)

theorem untouched_of_traces (h : x'.targets.map Target.traces = x.targets.map Target.traces)
    (hx : x.Untouched) : x'.Untouched := by
  intro t' ht'
  obtain ⟨t, ht, he⟩ := exists_of_map_eq h ht'
  exact Target.untouched_of_traces he.symm (hx t ht)

theorem complete_of_decided (hjudge : x'.judgeRule = x.judgeRule)
    (h : x'.targets.map Target.decided = x.targets.map Target.decided) (hx : x.Complete) :
    x'.Complete := by
  intro t' ht' hchange
  obtain ⟨t, ht, he⟩ := exists_of_map_eq h ht'
  simp only [Target.decided, Target.plan, Prod.mk.injEq, TargetPlan.mk.injEq] at he
  rw [← he.1.2.2.1] at hchange
  rw [← he.1.2.2.2.1, ← he.2, hjudge]
  exact hx t ht hchange

theorem planned_of_decided (h : x'.targets.map Target.decided = x.targets.map Target.decided)
    (hx : ∀ t ∈ x.targets, t.change ≠ .invalid → t.afterPlanned.isSome = true) :
    ∀ t ∈ x'.targets, t.change ≠ .invalid → t.afterPlanned.isSome = true := by
  intro t' ht' hchange
  obtain ⟨t, ht, he⟩ := exists_of_map_eq h ht'
  simp only [Target.decided, Target.plan, Prod.mk.injEq, TargetPlan.mk.injEq] at he
  rw [← he.1.2.2.1] at hchange
  rw [← he.1.2.2.2.2.1]
  exact hx t ht hchange

theorem Staged.approvedAt_eq_none (h : x.Staged) (hunapproved : x.unapproved = true) :
    x.approvedAt = none := by
  by_contra hsome
  rw [h.approved (Option.isSome_iff_ne_none.mpr hsome)] at hunapproved
  cases hunapproved

theorem unapproved_of_planned (h : x.phase = .planned) : x.unapproved = true := by
  simp [unapproved, h]

/-- A planned run has no approval, so its targets are prepared. -/
theorem Staged.prepared (h : x.Staged) (hplanned : x.phase = .planned) :
    ∀ t ∈ x.targets, t.Prepared := by
  have hnone := h.approvedAt_eq_none (unapproved_of_planned hplanned)
  exact fun t ht => ⟨h.untouched hnone t ht, h.planned hplanned t ht⟩

/-- A run whose phase, reason and approval did not change. -/
theorem Staged.congr (h : x.Staged) (hphase : x'.phase = x.phase)
    (hhalt : x'.haltReason = x.haltReason) (hat : x'.approvedAt = x.approvedAt)
    (untouched : x.approvedAt = none → x'.Untouched)
    (planned : x.phase = .planned → ∀ t ∈ x'.targets, t.change ≠ .invalid →
      t.afterPlanned.isSome = true)
    (complete : x.approvedAt.isSome = true ∨ x.phase = .previewed →
      x'.Complete ∧ x'.listState ≠ some .pending) : x'.Staged where
  approved h' := unapproved_congr hphase ▸ h.approved (hat ▸ h')
  reached h' hne := hat ▸ h.reached (unapproved_congr hphase ▸ h') (hphase ▸ hne)
  ended h' hreason := hat ▸ h.ended (hphase ▸ h') (hhalt ▸ hreason)
  untouched h' := untouched (hat ▸ h')
  planned h' := planned (hphase ▸ h')
  complete h' := complete (by rwa [hat, hphase] at h')

end Run

/-- A move keeps a run in its stage. -/
theorem Run.Staged.move {x x' : Run} (h : x.Staged) (hm : x.Move x') : x'.Staged := by
  have hjudge := hm.judgeRule
  have hat := hm.approvedAt
  cases hm with
  | notes frame terms stage decided marks =>
    have hlist : x'.listState = x.listState := congrArg RunStage.listState stage
    refine h.congr (congrArg RunStage.phase stage) (congrArg RunStage.haltReason stage) hat
      (fun h' => untouched_of_traces marks (h.untouched h'))
      (fun h' => planned_of_decided decided (h.planned h')) (fun h' => ?_)
    exact ⟨complete_of_decided hjudge decided (h.complete h').1, hlist ▸ (h.complete h').2⟩
  | records approved frame terms stage decided marked =>
    have hlist : x'.listState = x.listState := congrArg RunStage.listState stage
    refine h.congr (congrArg RunStage.phase stage) (congrArg RunStage.haltReason stage) hat
      (fun h' => by simp [h'] at approved)
      (fun h' => planned_of_decided decided (h.planned h')) (fun h' => ?_)
    exact ⟨complete_of_decided hjudge decided (h.complete h').1, hlist ▸ (h.complete h').2⟩
  | turns approved frame terms targets list left opened ended =>
    have hcomplete := h.complete (.inl approved)
    have hdecided : x'.targets.map Target.decided = x.targets.map Target.decided := by rw [targets]
    refine ⟨fun _ => left, fun _ _ => hat ▸ approved, fun hphase hreason => ?_,
      fun h' => ?_, fun hphase => ?_, fun _ => ?_⟩
    · obtain ⟨hhalt, habort⟩ := ended hreason hphase
      exact hat ▸ h.ended habort (hhalt ▸ hreason)
    · rw [hat] at h'
      simp [h'] at approved
    · simp [Run.unapproved, hphase] at left
    · exact ⟨complete_of_decided hjudge hdecided hcomplete.1, list ▸ hcomplete.2⟩
  | prepares planned frame terms stage prepared =>
    have hprepared := prepared (h.prepared planned)
    refine h.congr (congrArg RunStage.phase stage) (congrArg RunStage.haltReason stage) hat
      (fun _ t ht => (hprepared t ht).untouched) (fun _ t ht => (hprepared t ht).after)
      (fun h' => ?_)
    rw [h.approvedAt_eq_none (unapproved_of_planned planned), planned] at h'
    rcases h' with h' | h' <;> cases h'
  | lists planned frame source approved targets phase halted cap =>
    have hnone := h.approvedAt_eq_none (unapproved_of_planned planned)
    refine ⟨fun h' => ?_, fun h' => ?_, fun h' => ?_, fun _ => ?_, fun _ => ?_, fun h' => ?_⟩
    · rw [hat, hnone] at h'
      cases h'
    · simp [Run.unapproved, phase] at h'
    · rw [phase] at h'
      cases h'
    · rw [Run.Untouched, targets]
      exact h.untouched hnone
    · rw [targets]
      exact h.planned planned
    · rw [hat, hnone, phase] at h'
      rcases h' with h' | h' <;> cases h'
  | previews planned frame source approved targets phase list cap complete =>
    have hprepared := h.prepared planned
    have hunapproved : x'.unapproved = true := by simp [Run.unapproved, phase]
    have hnone := h.approvedAt_eq_none (unapproved_of_planned planned)
    refine ⟨fun h' => ?_, fun h' => ?_, fun h' => ?_, fun _ => ?_, fun h' => ?_,
      fun _ => ⟨complete hprepared, list⟩⟩
    · rw [hat, hnone] at h'
      cases h'
    · rw [hunapproved] at h'
      cases h'
    · rw [phase] at h'
      cases h'
    · intro t ht
      rw [targets] at ht
      exact (hprepared t ht).untouched
    · rw [phase] at h'
      cases h'
  | ends unapproved frame terms targets phase =>
    have hnone := h.approvedAt_eq_none unapproved
    refine ⟨fun h' => ?_, fun _ hne => absurd phase hne, fun _ _ => hat.trans hnone, fun _ => ?_,
      fun h' => ?_, fun h' => ?_⟩
    · rw [hat, hnone] at h'
      cases h'
    · rw [Run.Untouched, targets]
      exact h.untouched hnone
    · rw [phase] at h'
      cases h'
    · rw [hat, hnone, phase] at h'
      rcases h' with h' | h' <;> cases h'
  | halts frame terms targets phase list cap reason =>
    obtain ⟨reason, hhalt, hends⟩ := reason
    have hdecided : x'.targets.map Target.decided = x.targets.map Target.decided := by rw [targets]
    refine ⟨fun h' => ?_, fun h' hne => ?_, fun _ h' => ?_, fun h' => ?_, fun h' => ?_, fun h' => ?_⟩
    · exact unapproved_congr phase ▸ h.approved (hat ▸ h')
    · exact hat ▸ h.reached (unapproved_congr phase ▸ h') (phase ▸ hne)
    · simp [hhalt, hends] at h'
    · rw [Run.Untouched, targets]
      exact h.untouched (hat ▸ h')
    · rw [targets]
      exact h.planned (phase ▸ h')
    · have := h.complete (by rwa [hat, phase] at h')
      exact ⟨complete_of_decided hjudge hdecided this.1, list ▸ this.2⟩
  | selects previewed frame terms stage targets =>
    obtain ⟨f, hf, hkeep⟩ := targets
    have hlist : x'.listState = x.listState := congrArg RunStage.listState stage
    refine h.congr (congrArg RunStage.phase stage) (congrArg RunStage.haltReason stage) hat
      (fun h' => ?_) (fun h' => ?_) (fun h' => ⟨?_, hlist ▸ (h.complete h').2⟩)
    · intro t' ht'
      rw [hf] at ht'
      obtain ⟨t, ht, rfl⟩ := List.mem_map.mp ht'
      exact Target.untouched_of_traces (hkeep t).2.2.2 (h.untouched h' t ht)
    · rw [previewed] at h'
      cases h'
    · intro t' ht' hchange
      rw [hf] at ht'
      obtain ⟨t, ht, rfl⟩ := List.mem_map.mp ht'
      rw [(hkeep t).1] at hchange
      rw [(hkeep t).2.1, (hkeep t).2.2.1, hjudge]
      exact (h.complete h').1 t ht hchange

/-! ## Statements -/

/-- The owner's start clears the halt of a planned run. It sets a spend limit only where it
starts the judge. -/
structure Run.Start (x x' : Run) : Prop where
  frame : x'.frame = x.frame
  source : x'.sourceRunId = x.sourceRunId
  approved : x'.approvedAt = x.approvedAt
  targets : x'.targets = x.targets
  list : x'.listState = x.listState
  planned : x.phase = .planned
  phase : x'.phase = .planned
  cap : x'.costCapUsd.isSome = true → x.costCapUsd.isSome = true ∨ x.judging = true

/-- A previewed run is approved under its checksum, or an approved run resumed. -/
structure Run.Opening (D : Deps V) (x x' : Run) : Prop where
  frame : x'.frame = x.frame
  source : x'.sourceRunId = x.sourceRunId
  ruleHash : x'.ruleHash = x.ruleHash
  contractJson : x'.contractJson = x.contractJson
  startDomains : x'.startDomains = x.startDomains
  decided : x'.targets.map Target.decided = x.targets.map Target.decided
  marks : x'.targets.map Target.traces = x.targets.map Target.traces
  list : x'.listState = x.listState
  before : x.phase = .previewed ∨ x.phase = .approved ∨ x.phase = .writing
  checksum : x'.approvalChecksum = some (D.keyedHash x.checksumParts) ∨
    x.approvedAt.isSome = true ∧ x'.approvalChecksum = x.approvalChecksum
  approved : x'.approvedAt.isSome = true
  phase : x'.phase = .approved ∨ x'.phase = .writing

/-- A run as it is planned : halted unless there is nothing to read, without a spend limit, and
an undo's source was approved. -/
structure Run.New (L : Ledger) (r : Run) : Prop where
  fresh : L.runRow r.id = none
  approved : r.approvedAt = none
  unapproved : r.unapproved = true
  halted : r.phase = .planned → r.haltReason.isSome = true
  cap : r.costCapUsd = none
  untouched : r.Untouched
  planned : r.phase = .planned → ∀ t ∈ r.targets, t.change ≠ .invalid → t.afterPlanned.isSome = true
  complete : r.phase = .previewed → r.Complete ∧ r.listState ≠ some .pending
  source : ∀ s, r.sourceRunId = some s →
    ∃ y, L.runRow s = some y ∧ y.approvedAt.isSome = true

/-- One statement, under the guard the code issues it under. -/
inductive Ledger.Statement (D : Deps V) : Ledger → Ledger → Prop
  | rows {L : Ledger} (e : RunEdit) (moves : ∀ x ∈ L.runs, x.Move (e.apply x)) :
      Statement D L (L.mapRuns e)
  | starts {L : Ledger} {id : String} {x : Run} (e : RunEdit) (row : L.runRow id = some x)
      (start : x.Start (e.apply x))
      (reader : (externalHostOf x.targetSystem).isSome = true → ∀ y ∈ L.runs, y.reading = true →
        y.id = id)
      (judge : x.judging = true → ∀ y ∈ L.runs, y.holdsJudge = true → y.id = id) :
      Statement D L (L.editRun id e)
  | opens {L : Ledger} {id : String} {x : Run} (e : RunEdit) (row : L.runRow id = some x)
      (opening : x.Opening D (e.apply x)) (alone : L.openInFamily id (some id) = none) :
      Statement D L (L.editRun id e)
  | inserts {L : Ledger} {r : Run} (new : r.New L) : Statement D L (L.insertRun r)
  | deletes {L : Ledger} (p : Run → Bool)
      (unapproved : ∀ x ∈ L.runs, p x = true → x.approvedAt = none) :
      Statement D L (L.deleteRuns p)
  | files {L : Ledger} (probes : List HostProbe) : Statement D L { L with probes := probes }

/-- At most one run satisfies `p`. -/
def Ledger.AtMostOne (p : Run → Bool) (L : Ledger) : Prop :=
  ∀ x ∈ L.runs, ∀ y ∈ L.runs, p x = true → p y = true → x.id = y.id

/-- Every run in its stage; every source in the ledger, approved, and there before the runs that
take it back; one reader, and one started judge. -/
structure Ledger.Staged (L : Ledger) : Prop where
  runs : ∀ x ∈ L.runs, x.Staged
  source : ∀ x ∈ L.runs, ∀ s, x.sourceRunId = some s →
    s ≠ x.id ∧ ∃ y, L.runRow s = some y ∧ y.approvedAt.isSome = true
  order : L.runs.Pairwise fun a b => a.sourceRunId ≠ some b.id
  reader : L.AtMostOne Run.reading
  judge : L.AtMostOne Run.holdsJudge

namespace Ledger

variable {L L' : Ledger}

/-! ### At most one -/

theorem AtMostOne.mapRuns {p : Run → Bool} {e : RunEdit} (h : L.AtMostOne p)
    (hp : ∀ x ∈ L.runs, p (e.apply x) = true → p x = true) : (L.mapRuns e).AtMostOne p := by
  intro x hx y hy hpx hpy
  obtain ⟨a, ha, rfl⟩ := mem_mapRuns.mp hx
  obtain ⟨b, hb, rfl⟩ := mem_mapRuns.mp hy
  rw [e.keeps, e.keeps]
  exact h a ha b hb (hp a ha hpx) (hp b hb hpy)

/-- An edit of the one run that may satisfy `p`. -/
theorem AtMostOne.editRun {p : Run → Bool} {e : RunEdit} {id : String}
    (h : ∀ y ∈ L.runs, p y = true → y.id = id) : (L.editRun id e).AtMostOne p := by
  have hall : ∀ x ∈ (L.editRun id e).runs, p x = true → x.id = id := by
    intro x hx hp
    obtain ⟨q, hq, rfl⟩ := mem_mapRuns.mp hx
    rw [RunEdit.keeps]
    by_cases hid : q.id = id
    · exact hid
    · simp only [RunEdit.under, hid, decide_false] at hp
      exact h q hq hp
  exact fun x hx y hy hpx hpy => (hall x hx hpx).trans (hall y hy hpy).symm

theorem AtMostOne.of_subset {p : Run → Bool} (h : L.AtMostOne p)
    (hsub : ∀ x ∈ L'.runs, p x = true → x ∈ L.runs) : L'.AtMostOne p :=
  fun x hx y hy hpx hpy => h x (hsub x hx hpx) y (hsub y hy hpy) hpx hpy

/-! ### Staged ledgers -/

theorem staged_empty : empty.Staged :=
  ⟨by simp [empty], by simp [empty], List.Pairwise.nil, by simp [AtMostOne, empty],
    by simp [AtMostOne, empty]⟩

/-- Rows changed in place, each from a staged run to a staged one with its links and its
approval. -/
theorem Staged.mapRuns {e : RunEdit} (h : L.Staged)
    (hstaged : ∀ x ∈ L.runs, x.Staged → (e.apply x).Staged)
    (hsource : ∀ x ∈ L.runs, (e.apply x).sourceRunId = x.sourceRunId)
    (hat : ∀ x ∈ L.runs, x.approvedAt.isSome = true → (e.apply x).approvedAt.isSome = true)
    (reader : (L.mapRuns e).AtMostOne Run.reading)
    (judge : (L.mapRuns e).AtMostOne Run.holdsJudge) : (L.mapRuns e).Staged where
  reader := reader
  judge := judge
  runs := by
    intro x hx
    obtain ⟨q, hq, rfl⟩ := mem_mapRuns.mp hx
    exact hstaged q hq (h.runs q hq)
  source := by
    intro x hx s hs
    obtain ⟨q, hq, rfl⟩ := mem_mapRuns.mp hx
    obtain ⟨hne, y, hy, hya⟩ := h.source q hq s (hsource q hq ▸ hs)
    refine ⟨e.keeps q ▸ hne, e.apply y, ?_, hat y (mem_of_runRow hy) hya⟩
    rw [runRow_mapRuns, hy]
    rfl
  order := by
    simp only [Ledger.mapRuns, List.pairwise_map]
    refine h.order.imp_of_mem fun {a b} ha hb hab => ?_
    rw [hsource a ha, e.keeps b]
    exact hab

/-- What an edit of one run does to every run. -/
theorem forall_under {id : String} {x : Run} {e : RunEdit} {P : Run → Run → Prop}
    (row : L.runRow id = some x) (hedit : P x (e.apply x)) (hsame : ∀ y ∈ L.runs, P y y) :
    ∀ y ∈ L.runs, P y ((e.under fun r => r.id = id).apply y) := by
  intro y hy
  simp only [RunEdit.under]
  split
  · next hid =>
    obtain rfl : y = x := Option.some.inj
      ((runRow_of_mem hy).symm.trans ((of_decide_eq_true hid) ▸ row))
    exact hedit
  · exact hsame y hy

theorem Staged.editRun {id : String} {x : Run} {e : RunEdit} (h : L.Staged)
    (row : L.runRow id = some x) (hstaged : (e.apply x).Staged)
    (hsource : (e.apply x).sourceRunId = x.sourceRunId)
    (hat : x.approvedAt.isSome = true → (e.apply x).approvedAt.isSome = true)
    (reader : (L.editRun id e).AtMostOne Run.reading)
    (judge : (L.editRun id e).AtMostOne Run.holdsJudge) : (L.editRun id e).Staged :=
  h.mapRuns
    (forall_under (P := fun y y' => y.Staged → y'.Staged) row (fun _ => hstaged) fun _ _ hy => hy)
    (forall_under (P := fun y y' => y'.sourceRunId = y.sourceRunId) row hsource fun _ _ => rfl)
    (forall_under (P := fun y y' => y.approvedAt.isSome = true → y'.approvedAt.isSome = true) row
      hat fun _ _ hy => hy) reader judge

/-- An edit of one run that does not come to satisfy `p`. -/
theorem AtMostOne.editRow {p : Run → Bool} {id : String} {x : Run} {e : RunEdit}
    (h : L.AtMostOne p) (row : L.runRow id = some x) (hp : p (e.apply x) = true → p x = true) :
    (L.editRun id e).AtMostOne p :=
  h.mapRuns (forall_under (P := fun y y' => p y' = true → p y = true) row hp fun _ _ hy => hy)

theorem runs_insertRun {r : Run} (h : L.runRow r.id = none) :
    (L.insertRun r).runs = L.runs ++ [r] := by
  rw [insertRun, dif_neg (Table.find_eq_none.mp h)]

theorem Staged.runs_deleteRuns {p : Run → Bool} (h : L.Staged)
    (hp : ∀ x ∈ L.runs, p x = true → x.approvedAt = none) :
    (L.deleteRuns p).runs = L.runs.filter fun x => !p x := by
  refine runs_deleteRuns_of fun x hx s hs q hq hqp => ?_
  obtain ⟨-, y, hy, hya⟩ := h.source x hx s hs
  obtain rfl : q = y := Option.some.inj (hq.symm.trans hy)
  simp [hp q (mem_of_runRow hq) hqp] at hya

end Ledger

theorem Run.New.staged {L : Ledger} {r : Run} (h : r.New L) : r.Staged where
  approved h' := by simp [h.approved] at h'
  reached h' _ := by simp [h.unapproved] at h'
  ended _ _ := h.approved
  untouched _ := h.untouched
  planned := h.planned
  complete h' := h.complete (h'.resolve_left (by simp [h.approved]))

theorem Run.Staged.start {x x' : Run} (h : x.Staged) (hs : x.Start x') : x'.Staged where
  approved h' := unapproved_congr (hs.phase.trans hs.planned.symm) ▸ h.approved (hs.approved ▸ h')
  reached h' := by simp [Run.unapproved, hs.phase] at h'
  ended h' := by simp [hs.phase] at h'
  untouched h' := by
    rw [Run.Untouched, hs.targets]
    exact h.untouched (hs.approved ▸ h')
  planned _ := by
    rw [hs.targets]
    exact h.planned hs.planned
  complete h' := by
    rw [hs.approved, h.approvedAt_eq_none (unapproved_of_planned hs.planned), hs.phase] at h'
    rcases h' with h' | h' <;> cases h'

/-- A start that starts no judge holds none it did not hold. -/
theorem Run.Start.holdsJudge {x x' : Run} (hs : x.Start x') (hj : x'.holdsJudge = true)
    (hjudging : ¬x.judging = true) : x.holdsJudge = true := by
  have hrule : x'.judgeRule = x.judgeRule := congrArg RunFrame.judgeRule hs.frame
  simp only [Run.holdsJudge, judgeStarted, Bool.and_eq_true, hrule] at hj ⊢
  exact ⟨⟨hj.1.1, (hs.cap hj.1.2).resolve_right hjudging⟩, unapproved_of_planned hs.planned⟩

theorem Run.Opening.left {x x' : Run} (ho : x.Opening D x') : x'.unapproved = false := by
  rcases ho.phase with h' | h' <;> simp [Run.unapproved, h']

theorem Run.Staged.opening {x x' : Run} (h : x.Staged) (ho : x.Opening D x') : x'.Staged := by
  have hleft := ho.left
  have hcomplete : x.Complete ∧ x.listState ≠ some .pending := by
    refine h.complete (ho.before.symm.imp (fun hphase => h.reached ?_ ?_) fun hphase => hphase)
    · rcases hphase with h' | h' <;> simp [Run.unapproved, h']
    · rcases hphase with h' | h' <;> simp [h']
  refine ⟨fun _ => hleft, fun _ _ => ho.approved, fun h' => ?_, fun h' => ?_, fun h' => ?_, fun _ => ?_⟩
  · rcases ho.phase with hphase | hphase <;> rw [hphase] at h' <;> cases h'
  · have := ho.approved
    simp [h'] at this
  · rcases ho.phase with hphase | hphase <;> rw [hphase] at h' <;> cases h'
  · exact ⟨complete_of_decided (congrArg RunFrame.judgeRule ho.frame) ho.decided hcomplete.1,
      ho.list ▸ hcomplete.2⟩

/-- Every statement keeps the ledger staged. -/
theorem Ledger.Staged.statement {L L' : Ledger} (h : L.Staged) (hs : Statement D L L') :
    L'.Staged := by
  cases hs with
  | rows e moves =>
    exact h.mapRuns (fun x hx hx' => hx'.move (moves x hx)) (fun x hx => (moves x hx).source)
      (fun x hx hx' => (moves x hx).approvedAt ▸ hx')
      (h.reader.mapRuns fun x hx => (moves x hx).reading)
      (h.judge.mapRuns fun x hx => (moves x hx).holdsJudge)
  | @starts id x e row start reader judge =>
    refine h.editRun row ((h.runs _ (mem_of_runRow row)).start start) start.source
      (fun hx => start.approved ▸ hx) ?_ ?_
    · by_cases hext : (externalHostOf x.targetSystem).isSome = true
      · exact AtMostOne.editRun (reader hext)
      · refine h.reader.editRow row fun hr => ?_
        have hsystem := congrArg RunFrame.targetSystem start.frame
        simp only [Run.reading, Bool.and_eq_true] at hr
        exact absurd ((show _ = x.targetSystem from hsystem) ▸ hr.2) hext
    · by_cases hjudging : x.judging = true
      · exact AtMostOne.editRun (judge hjudging)
      · exact h.judge.editRow row fun hj => start.holdsJudge hj hjudging
  | opens e row opening alone =>
    have hleft := opening.left
    refine h.editRun row ((h.runs _ (mem_of_runRow row)).opening opening) opening.source
      (fun _ => opening.approved) (h.reader.editRow row fun hr => ?_)
      (h.judge.editRow row fun hj => ?_)
    · simp only [Run.reading, Bool.and_eq_true, decide_eq_true_eq] at hr
      simp [Run.unapproved, hr.1.1] at hleft
    · simp [Run.holdsJudge, hleft] at hj
  | inserts new =>
    have hruns := runs_insertRun new.fresh
    refine ⟨fun x hx => ?_, fun x hx s hs => ?_, ?_, ?_, ?_⟩
    · rw [hruns, List.mem_append, List.mem_singleton] at hx
      rcases hx with hx | rfl
      · exact h.runs x hx
      · exact new.staged
    · rw [hruns, List.mem_append, List.mem_singleton] at hx
      rcases hx with hx | rfl
      · obtain ⟨hne, y, hy, hya⟩ := h.source x hx s hs
        exact ⟨hne, y, runRow_insertRun_of_some hy, hya⟩
      · obtain ⟨y, hy, hya⟩ := new.source s hs
        refine ⟨?_, y, runRow_insertRun_of_some hy, hya⟩
        rintro rfl
        simp [new.fresh] at hy
    · rw [hruns, List.pairwise_append]
      refine ⟨h.order, List.pairwise_singleton .., ?_⟩
      rintro a ha b hb hs
      obtain rfl := List.mem_singleton.mp hb
      obtain ⟨-, y, hy, -⟩ := h.source a ha _ hs
      simp [new.fresh] at hy
    · refine h.reader.of_subset fun x hx hr => ?_
      rw [hruns, List.mem_append, List.mem_singleton] at hx
      refine hx.resolve_right ?_
      rintro rfl
      simp only [Run.reading, Bool.and_eq_true, decide_eq_true_eq] at hr
      have := new.halted hr.1.1
      simp [Option.isNone_iff_eq_none.mp hr.1.2] at this
    · refine h.judge.of_subset fun x hx hj => ?_
      rw [hruns, List.mem_append, List.mem_singleton] at hx
      refine hx.resolve_right ?_
      rintro rfl
      simp [Run.holdsJudge, Run.judgeStarted, new.cap] at hj
  | deletes p unapproved =>
    have hruns := h.runs_deleteRuns unapproved
    have hsub : ∀ x ∈ (L.deleteRuns p).runs, x ∈ L.runs := fun x hx =>
      List.mem_of_mem_filter (hruns ▸ hx)
    refine ⟨fun x hx => h.runs x (hsub x hx), fun x hx s hs => ?_, ?_,
      h.reader.of_subset fun x hx _ => hsub x hx, h.judge.of_subset fun x hx _ => hsub x hx⟩
    · obtain ⟨hne, y, hy, hya⟩ := h.source x (hsub x hx) s hs
      have hkept : y ∈ (L.deleteRuns p).runs := by
        rw [hruns, List.mem_filter]
        refine ⟨mem_of_runRow hy, ?_⟩
        by_contra hdrop
        simp [unapproved y (mem_of_runRow hy) (by simpa using hdrop)] at hya
      exact ⟨hne, y, id_of_runRow hy ▸ runRow_of_mem hkept, hya⟩
    · rw [hruns]
      exact h.order.filter _
  | files probes => exact ⟨h.runs, h.source, h.order, h.reader, h.judge⟩

end Lynox.Bulk
