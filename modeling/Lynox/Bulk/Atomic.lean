import Lynox.Bulk.InStep

/-!
# All or nothing

An atomic run of the store that ends `done` wrote every target, and one that ends `aborted`
with a reason that says so wrote none, provided no pass dies in a roll-back : once a pass has
recorded a failed target, or written or recorded the first step of a roll-back, it lives until
the run is `aborted` (`SeesThrough`). The store may fail any of its operations, and a pass may
die anywhere else and be entered again.

The proviso is needed. A pass that finds a failed target in the rows does not know that the run
was to be rolled back : `listPending` leaves the target out, the pass goes on with the next one,
and `finish` closes the run as done (`done_without_its_failed_target`).

Until the run ends it is calm : no event of a roll-back in the trace, and no writing target
failed or taken back. So a finished run has every writing target applied, and its rows are in
step with the store.
-/

namespace Lynox.Bulk

variable {V : Type} {D : Deps V} {r : String} {σ σ₀ : Place → Image V}

/-- Every writing target of a run that is done holds its after-image, and every target of one
that was rolled back what it held before. -/
structure AllOrNothing (D : Deps V) (σ₀ σ : Place → Image V) (x : Run) : Prop where
  done : x.phase = .done → ∀ t ∈ x.targets, t.writing = true →
    σ (x.place t.targetKey) = t.after D.json
  aborted : x.phase = .aborted → ∀ reason, x.haltReason = some reason → reason.complete = true →
    ∀ t ∈ x.targets, σ (x.place t.targetKey) = σ₀ (x.place t.targetKey)

/-- No pass dies between the first step of a roll-back and its end. -/
def SeesThrough (D : Deps V) (r : String) (x : BulkConfig V) (a : BulkAction V) : Prop :=
  Solo D r x a ∧ match a with
    | .die => Rolling x.state.trace →
        ∀ y, x.state.ledger.runRow r = some y → y.phase = .aborted
    | _ => True

/-- Entries and steps of passes over `r` that do not die. -/
def ofLivingPasses (r : String) : BulkAction V → Bool
  | .enter p => p.run = r
  | .advance _ => true
  | .die | .outside _ => false

theorem seesThrough_of_passes {a : BulkAction V} (h : ofLivingPasses r a = true)
    (x : BulkConfig V) : SeesThrough D r x a := by
  cases a with
  | enter p => exact ⟨⟨trivial, of_decide_eq_true h⟩, trivial⟩
  | advance c => exact ⟨⟨trivial, trivial⟩, trivial⟩
  | die | outside => cases h

/-! ## Calm runs -/

/-- Nothing failed and nothing was taken back. -/
structure Calm (x : Run) (trace : List (Event V)) : Prop where
  trace : ∀ e ∈ trace, e.rolls = false
  rows : ∀ t ∈ x.targets, t.writing = true → t.error = none ∧ t.undoneAt = none

section Calm

variable {x x' : Run} {w : World V} {trace : List (Event V)} {call : EffectCall V}

theorem AllOrNothing.of_open (h : x.phase = .approved ∨ x.phase = .writing) :
    AllOrNothing D σ₀ σ x := by
  constructor <;> intro hphase <;> rcases h with h | h <;> cases hphase.symm.trans h

/-- The run stays where it ended. -/
theorem AllOrNothing.congr (h : AllOrNothing D σ₀ σ x) (hphase : x'.phase = x.phase)
    (hhalt : x'.haltReason = x.haltReason) (hfixed : x'.fixed = x.fixed) :
    AllOrNothing D σ₀ σ x' := by
  have hplan (t' : Target) (ht' : t' ∈ x'.targets) : ∃ t ∈ x.targets, t'.plan = t.plan := by
    obtain ⟨t, ht, hplan⟩ := TargetsKept.target? (x := x) (congrArg RunPlan.targets hfixed)
      (Run.target?_of_mem ht')
    exact ⟨t, Run.mem_of_target? ht, hplan⟩
  refine ⟨fun hp t' ht' hwriting => ?_, fun hp reason hr hc t' ht' => ?_⟩
  · obtain ⟨t, ht, hplan⟩ := hplan t' ht'
    rw [Run.place_of_fixed hfixed, show t'.targetKey = t.targetKey from
      congrArg TargetPlan.targetKey hplan, (images_of_plan hplan).2]
    exact h.done (hphase ▸ hp) t ht ((Target.writing_eq_of_plan hplan).symm.trans hwriting)
  · obtain ⟨t, ht, hplan⟩ := hplan t' ht'
    rw [Run.place_of_fixed hfixed, show t'.targetKey = t.targetKey from
      congrArg TargetPlan.targetKey hplan]
    exact h.aborted (hphase ▸ hp) reason (hhalt ▸ hr) hc t ht

/-- With nothing left to write, every writing target of a calm run was applied. -/
theorem Calm.applied (h : Calm x trace) (hpending : x.listPending = []) {t : Target}
    (ht : t ∈ x.targets) (hwriting : t.writing = true) : t.appliedAt.isSome = true := by
  obtain ⟨herror, hundone⟩ := h.rows t ht hwriting
  by_contra ha
  have hnone : t.appliedAt = none := by simpa using ha
  have hmem : t ∈ x.targets.filter Target.pending := by
    simp [ht, Target.pending, hwriting, hnone, herror, hundone]
  rw [Run.listPending, List.map_eq_nil_iff] at hpending
  simp [hpending] at hmem

/-- And it holds its after-image. -/
theorem InStep.written (h : InStep D r σ₀ w x) (hcalm : Calm x w.trace)
    (hpending : x.listPending = []) {t : Target} (ht : t ∈ x.targets) (hwriting : t.writing = true) :
    w.store (x.place t.targetKey) = t.after D.json := by
  have happlied := hcalm.applied hpending ht hwriting
  have hundone := (hcalm.rows t ht hwriting).2
  have hrow := h.rows t ht
  rcases hsent : t.writeSent with _ | _
  · have hu := hrow.unsent hsent
    exact hu.held.trans (hu.applied happlied).2
  · rcases (hrow.sent hsent).applied happlied hundone with hheld | ⟨_, _, _, _, _, hmem⟩
    · exact hheld
    · cases hcalm.trace _ hmem

/-- With nothing left standing, every target of the run holds what it held before. -/
theorem InStep.restored (h : InStep D r σ₀ w x)
    (hstands : ∀ t ∈ x.targets, t.appliedStanding = false ∧ t.sentUnrecorded = false)
    {t : Target} (ht : t ∈ x.targets) :
    w.store (x.place t.targetKey) = σ₀ (x.place t.targetKey) := by
  have hrow := h.rows t ht
  rcases hsent : t.writeSent with _ | _
  · exact (hrow.unsent hsent).held
  · have hs := hrow.sent hsent
    rcases hundone : t.undoneAt with _ | u
    · obtain ⟨happlied, hunrecorded⟩ := hstands t ht
      simp [Target.appliedStanding, Target.sentUnrecorded, hsent, hundone, hs.writing, hs.found]
        at happlied hunrecorded
      simp [happlied] at hunrecorded
    · rw [hs.undone (by simp [hundone]), hs.before]

/-- A guarded write that is no step of a roll-back leaves the rows calm. -/
theorem calm_call (hrows : ∀ t ∈ x.targets, t.writing = true → t.error = none ∧ t.undoneAt = none)
    (hevent : ∀ e ∈ call.event, e.rolls = false) :
    ∀ t ∈ (call.onOwn D x).targets, t.writing = true → t.error = none ∧ t.undoneAt = none := by
  have hedit {e : TargetEdit} {seq : ℕ} (he : e.KeepsPlan)
      (hkeeps : ∀ t, (e.apply t).error = t.error ∧ (e.apply t).undoneAt = t.undoneAt) :
      ∀ t ∈ (x.editTarget seq e).targets, t.writing = true → t.error = none ∧ t.undoneAt = none := by
    intro t ht hwriting
    rcases Run.mem_editTarget.mp ht with ⟨u, hu, rfl⟩ | ⟨ht, -⟩
    · rw [(hkeeps u).1, (hkeeps u).2]
      exact hrows u (Run.mem_of_target? hu) ((Target.writing_eq_of_plan (he u)).symm.trans hwriting)
    · exact hrows t ht hwriting
  cases call with
  | releaseClaim runId seq =>
    refine hedit TargetEdit.keepsPlan_released fun t => ?_
    simp only [TargetEdit.released, TargetEdit.under]
    split <;> exact ⟨rfl, rfl⟩
  | markSent runId seq via => exact hedit (TargetEdit.keepsPlan_sent via) fun _ => ⟨rfl, rfl⟩
  | markRefused runId seq => exact hedit TargetEdit.keepsPlan_refused fun _ => ⟨rfl, rfl⟩
  | recordApplied run seq result now actual via shopAddedMarkup hostRewrote =>
    simp only [EffectCall.onOwn, Run.recordApplied]
    split
    · exact hedit (TargetEdit.keepsPlan_applied D _ _ _ _ _ _ _) fun _ => ⟨rfl, rfl⟩
    · exact hrows
  | recordFailed | recordUnrecordedSettled | recordRolledBack => cases hevent _ rfl
  | setWriting | setAborted | finish =>
    simp only [EffectCall.onOwn, Run.setPhase]
    split <;> exact hrows
  | halt runId reason => exact hrows

end Calm

/-! ## The trace of a pass -/

theorem Rolling.append {l trace : List (Event V)} (h : Rolling trace)
    (hes : ∀ e ∈ l, e.isEntered = false) : Rolling (l ++ trace) := by
  obtain ⟨e, he, hr⟩ := h
  refine ⟨e, ?_, hr⟩
  rw [passTrace, List.takeWhile_append_of_pos fun e he => by simp [hes e he]]
  exact List.mem_append_right _ he

theorem rolling_of_event {e : Event V} {trace : List (Event V)} (he : e.isEntered = false)
    (hr : e.rolls = true) : Rolling (e :: trace) :=
  ⟨e, by simp [passTrace, he], hr⟩

/-- An operation leaves at most one event, and never an entry. -/
theorem trace_perform (w : World V) (o : EffectOp V) (c : Choice V) :
    ∃ e : Option (Event V), (perform D w o c).2.trace = e.toList ++ w.trace ∧
      ∀ a ∈ e, a.isEntered = false := by
  cases o with
  | call call =>
    refine ⟨call.event, rfl, fun a ha => ?_⟩
    cases call <;> cases ha <;> rfl
  | read tag place =>
    simp only [perform]
    split
    · exact ⟨some _, rfl, by rintro a ⟨⟩; rfl⟩
    · exact ⟨some _, rfl, by rintro a ⟨⟩; rfl⟩
  | write | send | probeHoldsFor => exact ⟨some _, rfl, by rintro a ⟨⟩; rfl⟩
  | _ =>
    exact ⟨none, rfl, by rintro a ⟨⟩⟩

/-! ## What a history keeps -/

/-- The run is calm until it ends, or a live pass rolls it back; and it ends whole. -/
structure Whole (D : Deps V) (r : String) (σ₀ : Place → Image V) (plan : RunPlan)
    (live : Option Pass) (w : World V) (x : Run) : Prop where
  step : InStep D r σ₀ w x
  fixed : x.fixed = plan
  mine : ∀ p, live = some p → p.run = r
  calm : x.phase = .approved ∨ x.phase = .writing →
    Calm x w.trace ∨ (live.isSome = true ∧ x.atomic = true ∧ Rolling w.trace)
  ended : AllOrNothing D σ₀ w.store x

section Whole

variable {x : Run} {w : World V} {plan : RunPlan} {live : Option Pass} {o : EffectOp V}
  {c : Choice V}

/-- A step of a roll-back is taken in an atomic run. -/
theorem atomic_of_rolls {e : Event V} (hG : Guard D r (seen r w) o) (hx : w.ledger.runRow r = some x)
    (hfailed : ∀ runId seq error via, o = .call (.recordFailed runId seq error via) →
      x.atomic = true)
    (htrace : (perform D w o c).2.trace = e :: w.trace) (he : e.rolls = true) :
    x.atomic = true := by
  have hsame {y : Run} (hy : (seen r w).run = some y) : y = x :=
    Option.some.inj (hy.symm.trans hx)
  cases o with
  | call call =>
    cases call with
    | recordFailed runId seq error via => exact hfailed _ _ _ _ rfl
    | recordUnrecordedSettled runId seq now =>
      obtain ⟨-, y, t, hlive, -, hatomic, -⟩ := hG
      exact hsame hlive.run ▸ hatomic
    | recordRolledBack run seq now =>
      obtain ⟨-, y, t, hlive, -, hatomic, -⟩ := hG
      exact hsame hlive.run ▸ hatomic
    | releaseClaim | setWriting | halt => simp [perform, EffectCall.event] at htrace
    | markSent | markRefused | recordApplied | setAborted | finish =>
      rw [← (List.cons.inj htrace).1] at he
      cases he
  | write tag place image =>
    obtain ⟨side, run, seq⟩ := tag
    cases side with
    | apply =>
      rw [← (List.cons.inj htrace).1] at he
      cases he
    | rollBack =>
      obtain ⟨y, t, hlive, -, hatomic, -⟩ := hG
      exact hsame hlive.run ▸ hatomic
  | read tag place =>
    simp only [perform] at htrace
    split at htrace <;> rw [← (List.cons.inj htrace).1] at he <;> cases he
  | send | probeHoldsFor =>
    rw [← (List.cons.inj htrace).1] at he
    cases he
  | _ => simp [perform] at htrace

/-- An operation that is no step of a roll-back leaves a calm run calm. -/
theorem Calm.perform (h : Calm x w.trace) {e : Option (Event V)}
    (htrace : (perform D w o c).2.trace = e.toList ++ w.trace)
    (he : ∀ a ∈ e, a.rolls = false) :
    Calm (o.onRow D (w.ledger.runRow r) r r x) (Bulk.perform D w o c).2.trace := by
  refine ⟨fun a ha => ?_, ?_⟩
  · rw [htrace, List.mem_append, Option.mem_toList] at ha
    exact ha.elim (he a) (h.trace a)
  · cases o with
    | call call =>
      have hevent : call.event.toList = e.toList := List.append_cancel_right htrace
      simp only [EffectOp.onRow, if_pos]
      refine calm_call h.rows fun a ha => he a (Option.mem_toList.mp ?_)
      exact hevent ▸ Option.mem_toList.mpr ha
    | claimTarget runId seq time =>
      simp only [EffectOp.onRow, if_pos]
      intro t ht hwriting
      obtain ⟨u, hu, rfl⟩ := Run.mem_mapTargets.mp ht
      have hkeeps := (TargetEdit.keepsPlan_claimed D time).under (fun t => t.seq = seq)
      have hu := h.rows u hu ((Target.writing_eq_of_plan (hkeeps u)).symm.trans hwriting)
      simp only [TargetEdit.under, TargetEdit.claimed]
      split
      · split <;> exact hu
      · exact hu
    | _ =>
      exact h.rows

/-- A guarded operation on an open run leaves it open, or ends it whole. -/
theorem AllOrNothing.perform (h : InStep D r σ₀ w x) (hG : Guard D r (seen r w) o)
    (hended : AllOrNothing D σ₀ w.store x)
    (hcalm : x.phase = .approved ∨ x.phase = .writing →
      Calm x w.trace ∨ (x.atomic = true ∧ Rolling w.trace)) :
    AllOrNothing D σ₀ (Bulk.perform D w o c).2.store (o.onRow D (w.ledger.runRow r) r r x) := by
  have hsame {y : Run} (hy : (seen r w).run = some y) : y = x :=
    Option.some.inj (hy.symm.trans h.run)
  have hlive {y : Run} (hy : Live r (seen r w) y) : x.phase = .writing :=
    hsame hy.run ▸ hy.writing
  cases o with
  | call call =>
    simp only [EffectOp.onRow, if_pos]
    have hstay (hopen : x.phase = .approved ∨ x.phase = .writing)
        (hphase : (call.onOwn D x).phase = x.phase) :
        AllOrNothing D σ₀ w.store (call.onOwn D x) := .of_open (hphase ▸ hopen)
    cases call with
    | releaseClaim runId seq =>
      obtain ⟨-, y, hgoing⟩ := hG
      exact hstay (.inr (hlive hgoing.toLive)) rfl
    | markSent runId seq via =>
      obtain ⟨-, y, t, hgoing, -⟩ := hG
      exact hstay (.inr (hlive hgoing.toLive)) rfl
    | markRefused runId seq =>
      obtain ⟨-, y, t, hgoing, -⟩ := hG
      exact hstay (.inr (hlive hgoing.toLive)) rfl
    | recordApplied run seq result now actual via shopAddedMarkup hostRewrote =>
      obtain ⟨-, y, t, hgoing, -⟩ := hG
      exact hstay (.inr (hlive hgoing.toLive)) (x.recordApplied_open D ..).1
    | recordFailed runId seq error via =>
      obtain ⟨-, y, t, hgoing, -⟩ := hG
      exact hstay (.inr (hlive hgoing.toLive)) (x.recordFailed_open ..).1
    | recordUnrecordedSettled runId seq now =>
      obtain ⟨-, y, t, hl, -⟩ := hG
      exact hstay (.inr (hlive hl)) rfl
    | recordRolledBack run seq now =>
      obtain ⟨-, y, t, hl, -⟩ := hG
      exact hstay (.inr (hlive hl)) rfl
    | setWriting runId =>
      obtain ⟨-, y, hy, hmay⟩ := hG
      obtain rfl := hsame hy
      refine .of_open ?_
      simp only [EffectCall.onOwn, Run.setPhase]
      split
      · exact .inr rfl
      · simp only [Run.mayWrite, Bool.and_eq_true, Bool.or_eq_true, decide_eq_true_eq] at hmay
        exact hmay.1
    | halt runId reason =>
      obtain ⟨-, y, hy, hmay, -⟩ := hG
      obtain rfl := hsame hy
      simp only [Run.mayWrite, Bool.and_eq_true, Bool.or_eq_true, decide_eq_true_eq] at hmay
      exact hstay hmay.1 rfl
    | setAborted runId reason =>
      obtain ⟨-, y, hl, -, hstands, -⟩ := hG
      obtain rfl := hsame hl.run
      have hrow : EffectCall.onOwn D (.setAborted runId reason) y =
          { y with phase := .aborted, haltReason := some reason } := by
        simp [EffectCall.onOwn, Run.setPhase, hl.writing]
      rw [hrow]
      refine ⟨fun hp => (by cases hp), fun _ reason' hreason hcomplete t ht => ?_⟩
      obtain rfl := Option.some.inj hreason
      exact h.restored (hstands hcomplete) ht
    | finish run =>
      obtain ⟨-, y, hgoing, -, hpending⟩ := hG
      obtain rfl := hsame hgoing.run
      have hrow : EffectCall.onOwn D (.finish run) y = { y with phase := .done } := by
        simp [EffectCall.onOwn, Run.setPhase, hgoing.writing]
      rw [hrow]
      refine ⟨fun _ t ht hwriting => ?_, fun hp => (by cases hp)⟩
      rcases hcalm (.inr hgoing.writing) with hcalm | ⟨hatomic, hrolling⟩
      · exact h.written hcalm hpending ht hwriting
      · exact absurd hrolling (hgoing.calm hatomic h.isLocal)
  | claimTarget runId seq time =>
    simp only [EffectOp.onRow, if_pos]
    exact hended.congr rfl rfl
      (Run.fixed_of_plan (Run.plan_editTarget (TargetEdit.keepsPlan_claimed D time) seq x))
  | write tag place image =>
    refine .of_open (.inr ?_)
    obtain ⟨side, run, seq⟩ := tag
    cases side with
    | apply =>
      obtain ⟨y, t, hgoing, -⟩ := hG
      exact hlive hgoing.toLive
    | rollBack =>
      obtain ⟨y, t, hl, -⟩ := hG
      exact hlive hl
  | read tag place =>
    simp only [Bulk.perform]
    split <;> exact hended
  | _ => exact hended

theorem Run.atomic_of_fixed {x x' : Run} (h : x'.fixed = x.fixed) : x'.atomic = x.atomic :=
  congrArg RunPlan.atomic h

/-- No operation of a pass opens a run again. -/
theorem open_of_onRow (own : Option Run)
    (h : (o.onRow D own r r x).phase = .approved ∨ (o.onRow D own r r x).phase = .writing) :
    x.phase = .approved ∨ x.phase = .writing := by
  cases o with
  | call call =>
    simp only [EffectOp.onRow, if_pos] at h
    cases call with
    | recordApplied run seq result now actual via shopAddedMarkup hostRewrote =>
      rwa [EffectCall.onOwn, (x.recordApplied_open D ..).1] at h
    | recordFailed runId seq error via => rwa [EffectCall.onOwn, (x.recordFailed_open ..).1] at h
    | setWriting | setAborted | finish =>
      simp only [EffectCall.onOwn, Run.setPhase] at h
      split at h
      · next hphase => simp_all
      · exact h
    | _ => exact h
  | claimTarget runId seq time =>
    simp only [EffectOp.onRow, if_pos] at h
    exact h
  | _ =>
    exact h

/-- An operation of a pass over the run. A target of a run that is not atomic must not fail. -/
theorem Whole.perform {p : Pass} (h : Whole D r σ₀ plan (some p) w x)
    (hG : Guard D p.run (seen p.run w) o)
    (hfailed : ∀ runId seq error via, o = .call (.recordFailed runId seq error via) →
      x.atomic = true) :
    Whole D r σ₀ plan (some p) (Bulk.perform D w o c).2
      (o.onRow D (w.ledger.runRow r) r r x) := by
  rw [h.mine p rfl] at hG
  have hfixed := Run.fixed_of_plan (plan_onRow D (w.ledger.runRow r) r r o x)
  have hcalm (hopen : x.phase = .approved ∨ x.phase = .writing) :=
    (h.calm hopen).imp_right And.right
  refine ⟨h.step.step hG, hfixed.trans h.fixed, h.mine, fun hopen => ?_,
    .perform h.step hG h.ended hcalm⟩
  obtain ⟨e, htrace, hentered⟩ := trace_perform (D := D) w o c
  have hopen : x.phase = .approved ∨ x.phase = .writing := open_of_onRow _ hopen
  rcases hcalm hopen with hcalm | ⟨hatomic, hrolling⟩
  · by_cases he : ∀ a ∈ e, a.rolls = false
    · exact .inl (hcalm.perform htrace he)
    · obtain ⟨a, ha, hrolls⟩ : ∃ a, e = some a ∧ a.rolls = true := by simpa using he
      subst ha
      refine .inr ⟨rfl, ?_, htrace ▸ rolling_of_event (hentered a rfl) hrolls⟩
      exact (Run.atomic_of_fixed hfixed).trans
        (atomic_of_rolls hG h.step.run hfailed htrace hrolls)
  · refine .inr ⟨rfl, (Run.atomic_of_fixed hfixed).trans hatomic, htrace ▸ hrolling.append ?_⟩
    exact fun a ha => hentered a (Option.mem_toList.mp ha)

/-- An entry, a return or a death, of a pass that is not rolling the run back. -/
theorem Whole.push {e : Event V} {live' : Option Pass} (h : Whole D r σ₀ plan live w x)
    (hidle : e.idle = true) (hrolls : e.rolls = false) (hmine : ∀ p, live' = some p → p.run = r)
    (hcalm : x.phase = .approved ∨ x.phase = .writing → Calm x w.trace) :
    Whole D r σ₀ plan live' (w.push e) x where
  step := h.step.push hidle
  fixed := h.fixed
  mine := hmine
  calm hopen := by
    refine .inl ⟨fun a ha => ?_, (hcalm hopen).rows⟩
    rcases List.mem_cons.mp ha with rfl | ha
    · exact hrolls
    · exact (hcalm hopen).trace a ha
  ended := h.ended

/-- The owner's operations. -/
theorem Whole.owner {e : Outside V} (h : Whole D r σ₀ plan live w x) (hwf : w.ledger.WellFormed)
    (hforeign : ∀ place image, e ≠ .foreign place image) :
    ∃ x', Whole D r σ₀ plan live (e.perform D w) x' := by
  obtain ⟨x', hstep, rfl | ⟨p, hopen, hblocked, rfl⟩⟩ := h.step.owner hwf hforeign
  · refine ⟨x', hstep, h.fixed, h.mine, fun ho => ?_, ?_⟩
    · rw [trace_outside]
      exact h.calm ho
    · have hstore : (e.perform D w).store = w.store := by
        cases e with
        | foreign place image => exact absurd rfl (hforeign place image)
        | select | approve | resume | planUndo | confirmProbe => rfl
      rw [hstore]
      exact h.ended
  · have hkeeps : TargetEdit.retry.KeepsPlan := TargetEdit.KeepsPlan.under (fun _ => rfl) _
    refine ⟨_, hstep, ?_, h.mine, fun _ => ?_, .of_open hopen⟩
    · have hplan := Run.plan_mapTargets hkeeps x
      exact (congrArg (fun q : RunPlan => { q with approvalChecksum := none, maxTargets := none })
        hplan).trans h.fixed
    · rw [trace_outside]
      refine (h.calm hopen).imp (fun hcalm => ⟨hcalm.trace, fun t ht hwriting => ?_⟩) id
      obtain ⟨u, hu, rfl⟩ := Run.mem_mapTargets.mp ht
      have hu := hcalm.rows u hu ((Target.writing_eq_of_plan (hkeeps u)).symm.trans hwriting)
      simp only [TargetEdit.retry, TargetEdit.under]
      split
      · exact ⟨rfl, hu.2⟩
      · exact hu

theorem Run.Fresh.whole (h : x.Fresh) (hx : w.ledger.runRow r = some x) (htrace : w.trace = []) :
    Whole D r w.store x.fixed none w x where
  step := h.inStep hx htrace
  fixed := rfl
  mine p hp := by cases hp
  calm _ := .inl ⟨by simp [htrace], fun t ht hwriting => ⟨h.unfailed t ht hwriting,
    (h.untouched t ht).undone⟩⟩
  ended := .of_open (.inl h.approved)

end Whole

/-! ## Histories -/

variable [DecidableEq V]

theorem sound_whole (D : Deps V) (r : String) (σ₀ : Place → Image V) (plan : RunPlan)
    (hatomic : plan.atomic = true) :
    (bulkSystem D).Sound (fun p => seen p.run)
      (fun live w => w.ledger.WellFormed ∧ ∃ x, Whole D r σ₀ plan live w x)
      (fun p => Guard D p.run) (fun _ _ => Ended) (SeesThrough D r) := by
  have hcalm {p : Pass} {w : World V} {x : Run} (h : Whole D r σ₀ plan (some p) w x)
      (hended : Rolling w.trace → x.phase = .aborted)
      (hopen : x.phase = .approved ∨ x.phase = .writing) : Calm x w.trace := by
    rcases h.calm hopen with hcalm | ⟨-, -, hrolling⟩
    · exact hcalm
    · rw [hended hrolling] at hopen
      simp at hopen
  refine sound_of_steps (fun _ _ ha => ha.1.1) ?_ ?_ ?_ ?_ ?_
  · rintro p w ha - ⟨x, h⟩
    refine ⟨x, h.push rfl rfl (by rintro _ ⟨⟩; exact ha.1.2) fun hopen => ?_⟩
    exact (h.calm hopen).resolve_right (by simp)
  · rintro p w o k c - - ⟨x, h⟩ hG
    exact ⟨_, h.perform hG fun _ _ _ _ _ => (congrArg RunPlan.atomic h.fixed).trans hatomic⟩
  · rintro p w ⟨x, h⟩ hended
    refine ⟨x, h.push rfl rfl (by rintro _ ⟨⟩) (hcalm h fun hrolling => ?_)⟩
    exact hended x (h.mine p rfl ▸ h.step.run)
      ((congrArg RunPlan.atomic h.fixed).trans hatomic) h.step.isLocal hrolling
  · rintro p w rest ha ⟨x, h⟩
    exact ⟨x, h.push rfl rfl (by rintro _ ⟨⟩)
      (hcalm h fun hrolling => ha.2 hrolling x h.step.run)⟩
  · rintro e w live ha hwf ⟨x, h⟩
    refine h.owner hwf ?_
    rintro place image rfl
    exact ha.1.2

/-- Over every history of passes, deaths, re-entries and resumes of an atomic run of the store,
with any operation of the store failing, in which no pass dies between the first step of a
roll-back and its end : the run that is done wrote all its targets, and the run that was rolled
back wrote none. -/
theorem atomic_all_or_nothing (D : Deps V) (r : String) (w : World V) (x : Run)
    (hw : w.ledger.WellFormed) (hx : w.ledger.runRow r = some x) (hfresh : x.Fresh)
    (hatomic : x.atomic = true) (htrace : w.trace = []) (history : List (BulkAction V))
    (ho : (bulkSystem D).Obeys (SeesThrough D r) ⟨w, none⟩ history) :
    ∃ y, ((bulkSystem D).run ⟨w, none⟩ history).state.ledger.runRow r = some y ∧
      y.fixed = x.fixed ∧
      AllOrNothing D w.store ((bulkSystem D).run ⟨w, none⟩ history).state.store y := by
  obtain ⟨-, y, h⟩ := (sound_whole D r w.store x.fixed hatomic).run
    ⟨hw, x, hfresh.whole hx htrace⟩ ho
  exact ⟨y, h.step.run, h.fixed, h.ended⟩

/-- Two targets of the workspace, to be turned from `false` to `true` or not at all. -/
def twoAtOnce : World Bool :=
  plainWorld (plainRun "workspace" true [plainTarget 0 "a", plainTarget 1 "b"] (by decide))

theorem twoAtOnce_fresh : ∃ x, twoAtOnce.ledger.runRow "r" = some x ∧ x.Fresh ∧ x.atomic = true := by
  refine ⟨_, rfl, ⟨rfl, rfl, rfl, by decide, ?_, by decide⟩, rfl⟩
  intro t ht
  simp only [plainRun, List.mem_cons, List.not_mem_nil, or_false] at ht
  rcases ht with rfl | rfl <;> exact ⟨rfl, rfl, rfl, rfl, rfl⟩

/-- The first target is written, the write of the second fails and is recorded. -/
def secondFails : List (BulkAction Bool) :=
  .enter ⟨"r", .apply⟩ :: List.replicate 35 (.advance {}) ++
    [.advance { throws := true }, .advance {}]

/-- The pass rolls the run back. -/
def rolledBack : List (BulkAction Bool) :=
  secondFails ++ List.replicate 11 (.advance {})

theorem rolled_back_whole :
    ((bulkSystem plainDeps).run ⟨twoAtOnce, none⟩ rolledBack).state.store
      ⟨"workspace", none, "a"⟩ = .value false := by
  obtain ⟨x, hx, hfresh, hatomic⟩ := twoAtOnce_fresh
  obtain ⟨y, hy, hfixed, h⟩ := atomic_all_or_nothing plainDeps "r" twoAtOnce x
    (plainWorld_wellFormed ..) hx hfresh hatomic rfl rolledBack
    (System.obeys_of_forall _ fun a ha => seesThrough_of_passes
      (List.all_eq_true.mp (by decide) a ha))
  have hend : ∃ y, ((bulkSystem plainDeps).run ⟨twoAtOnce, none⟩ rolledBack).state.ledger.runRow
      "r" = some y ∧ y.phase = .aborted ∧ y.haltReason = some .atomicRolledBack ∧
        ∃ t ∈ y.targets, y.place t.targetKey = ⟨"workspace", none, "a"⟩ :=
    ⟨_, rfl, by decide, by decide, by decide⟩
  obtain ⟨z, hz, hphase, hreason, t, ht, hplace⟩ := hend
  obtain rfl : y = z := Option.some.inj (hy.symm.trans hz)
  have hheld := h.aborted hphase _ hreason rfl t ht
  rwa [hplace] at hheld

/-- The pass dies between the failed target and the roll-back, and the next one goes on. -/
def goesOn : List (BulkAction Bool) :=
  secondFails ++ .die :: .enter ⟨"r", .apply⟩ :: List.replicate 15 (.advance {})

/-- An atomic run ends done although one of its targets was not written. -/
theorem done_without_its_failed_target :
    (∃ x, twoAtOnce.ledger.runRow "r" = some x ∧ x.Fresh ∧ x.atomic = true) ∧
    (bulkSystem plainDeps).Obeys (Solo plainDeps "r") ⟨twoAtOnce, none⟩ goesOn ∧
    ∃ y, ((bulkSystem plainDeps).run ⟨twoAtOnce, none⟩ goesOn).state.ledger.runRow "r" = some y ∧
      ¬ AllOrNothing plainDeps twoAtOnce.store
        ((bulkSystem plainDeps).run ⟨twoAtOnce, none⟩ goesOn).state.store y := by
  refine ⟨twoAtOnce_fresh, ?_, ?_⟩
  · exact System.obeys_of_forall _ fun a ha => solo_of_passes (List.all_eq_true.mp (by decide) a ha)
  · refine ⟨_, rfl, fun h => ?_⟩
    have hdone := h.done (by decide)
    revert hdone
    decide

end Lynox.Bulk
