import Lynox.Bulk.World

/-!
# What a pass sees of the world

A pass sees the row of its own run and the trace. Each of its writes to the ledger is an
edit of that row (`EffectCall.onOwn`), unless the run is its own source, and for an undo an
edit of the source's row (`EffectCall.onSource`); every other run keeps its row. No write
touches what was planned.
-/

namespace Lynox.Bulk

variable {V : Type} (D : Deps V)

/-- The row of a pass's run, and the trace. -/
@[ext] structure Seen (V : Type) where
  run : Option Run
  trace : List (Event V)

def seen (r : String) (w : World V) : Seen V :=
  ⟨w.ledger.runRow r, w.trace⟩

namespace EffectCall

/-- What a write does to the row of its own run. -/
def onOwn : EffectCall V → Run → Run
  | .releaseClaim _ seq => Run.editTarget seq .released
  | .markSent _ seq via => Run.markSent seq via
  | .markRefused _ seq => Run.editTarget seq .refused
  | .recordApplied _ seq result now actual via shopAddedMarkup hostRewrote =>
    Run.recordApplied D seq result now actual via shopAddedMarkup hostRewrote
  | .recordFailed _ seq error via => Run.recordFailed seq error via
  | .recordUnrecordedSettled _ seq now => Run.editTarget seq (.settled now)
  | .recordRolledBack _ seq now => Run.editTarget seq (.rolledBack now)
  | .setWriting _ => Run.setPhase [.approved] .writing none
  | .setAborted _ reason => Run.setPhase [.writing] .aborted (some reason)
  | .halt _ reason => Run.halt reason
  | .finish _ => Run.setPhase [.writing] .done none

/-- The run whose row a write of an undo also edits. -/
def source : EffectCall V → Option String
  | .recordApplied run .. | .recordRolledBack run .. | .finish run =>
    if run.kind = .undo then run.sourceRunId else none
  | _ => none

/-- What a write does to the row of its run's source; `own` is the row of its run before
it. -/
def onSource (own : Option Run) : EffectCall V → Run → Run
  | .recordApplied _ seq _ now .. =>
    match own.bind (·.target? seq) with
    | some t =>
      match t.sourceSeq with
      | some s => if t.appliedAt.isNone then Run.editTarget s (.taken (some now)) else fun r => r
      | none => fun r => r
    | none => fun r => r
  | .recordRolledBack _ seq _ =>
    match (own.bind (·.target? seq)).bind Target.sourceSeq with
    | some s => Run.editTarget s (.taken none)
    | none => fun r => r
  | .finish _ => Run.setUndone
  | _ => fun r => r

end EffectCall

namespace Ledger

variable {L : Ledger} {run : Run} {seq : ℕ} {undoneAt : Option Time} {id : String}

theorem runRow_markSource_of_ne (h : (if run.kind = .undo then run.sourceRunId else none) ≠ some id) :
    (L.markSource run seq undoneAt).runRow id = L.runRow id := by
  unfold markSource
  split
  · next hk hs _ =>
    rw [if_pos hk, hs] at h
    exact runRow_editRun_ne fun he => h (congrArg some he.symm)
  · rfl

/-- An edit that touches nothing that was planned, seen from any run. -/
theorem plan_editRun {e : RunEdit} {id' : String} (h : ∀ r, (e.apply r).plan = r.plan) :
    ((L.editRun id e).runRow id').map Run.plan = (L.runRow id').map Run.plan := by
  rw [runRow_editRun]
  split
  · rw [Option.map_map]
    exact congrArg (fun f => (L.runRow id').map f) (funext h)
  · rfl

theorem plan_editTarget {e : TargetEdit} {id' : String} (h : e.KeepsPlan) :
    ((L.editTarget id seq e).runRow id').map Run.plan = (L.runRow id').map Run.plan :=
  plan_editRun (Run.plan_editTarget h seq)

theorem plan_markSource : ((L.markSource run seq undoneAt).runRow id).map Run.plan =
    (L.runRow id).map Run.plan := by
  unfold markSource
  split
  · exact plan_editTarget (TargetEdit.keepsPlan_taken undoneAt)
  · rfl

end Ledger

variable {L : Ledger} {c : EffectCall V} {id : String}

/-- A write is an edit of its own run's row. -/
theorem runRow_call (h : c.source ≠ some c.runId) :
    (c.perform D L).runRow c.runId = (L.runRow c.runId).map (c.onOwn D) := by
  cases c with
  | releaseClaim runId seq => exact Ledger.runRow_editRun_self
  | markSent runId seq via => exact Ledger.runRow_editRun_self
  | markRefused runId seq => exact Ledger.runRow_editRun_self
  | recordApplied run seq result now actual via shopAddedMarkup hostRewrote =>
    simp only [EffectCall.perform, EffectCall.runId, Ledger.recordApplied]
    split
    · exact (Ledger.runRow_markSource_of_ne h).trans Ledger.runRow_editRun_self
    · exact Ledger.runRow_editRun_self
  | recordFailed runId seq error via => exact Ledger.runRow_editRun_self
  | recordUnrecordedSettled runId seq now => exact Ledger.runRow_editRun_self
  | recordRolledBack run seq now =>
    exact (Ledger.runRow_markSource_of_ne h).trans Ledger.runRow_editRun_self
  | setWriting runId => exact Ledger.runRow_editRun_self
  | setAborted runId reason => exact Ledger.runRow_editRun_self
  | halt runId reason => exact Ledger.runRow_editRun_self
  | finish run =>
    simp only [EffectCall.perform, EffectCall.runId, Ledger.finish]
    split
    · next hk hs =>
      simp only [EffectCall.source, EffectCall.runId, hk, hs, if_true] at h
      rw [Ledger.runRow_editRun_ne fun he => h (congrArg some he.symm)]
      exact Ledger.runRow_editRun_self
    · exact Ledger.runRow_editRun_self

/-- A write leaves every run but its own and its source as it was. -/
theorem runRow_call_of_ne (h : id ≠ c.runId) (hs : c.source ≠ some id) :
    (c.perform D L).runRow id = L.runRow id := by
  cases c with
  | releaseClaim runId seq => exact Ledger.runRow_editRun_ne h
  | markSent runId seq via => exact Ledger.runRow_editRun_ne h
  | markRefused runId seq => exact Ledger.runRow_editRun_ne h
  | recordApplied run seq result now actual via shopAddedMarkup hostRewrote =>
    simp only [EffectCall.perform, Ledger.recordApplied]
    split
    · exact (Ledger.runRow_markSource_of_ne hs).trans (Ledger.runRow_editRun_ne h)
    · exact Ledger.runRow_editRun_ne h
  | recordFailed runId seq error via => exact Ledger.runRow_editRun_ne h
  | recordUnrecordedSettled runId seq now => exact Ledger.runRow_editRun_ne h
  | recordRolledBack run seq now =>
    exact (Ledger.runRow_markSource_of_ne hs).trans (Ledger.runRow_editRun_ne h)
  | setWriting runId => exact Ledger.runRow_editRun_ne h
  | setAborted runId reason => exact Ledger.runRow_editRun_ne h
  | halt runId reason => exact Ledger.runRow_editRun_ne h
  | finish run =>
    simp only [EffectCall.perform, Ledger.finish]
    split
    · next hk hsrc =>
      simp only [EffectCall.source, hk, hsrc, if_true] at hs
      rw [Ledger.runRow_editRun_ne fun he => hs (congrArg some he.symm)]
      exact Ledger.runRow_editRun_ne h
    · exact Ledger.runRow_editRun_ne h

/-- No write touches what was planned. -/
theorem plan_onOwn (c : EffectCall V) (r : Run) : (c.onOwn D r).plan = r.plan := by
  cases c with
  | releaseClaim runId seq => exact Run.plan_editTarget TargetEdit.keepsPlan_released seq r
  | markSent runId seq via => exact Run.plan_markSent seq via r
  | markRefused runId seq => exact Run.plan_editTarget TargetEdit.keepsPlan_refused seq r
  | recordApplied run seq result now actual via shopAddedMarkup hostRewrote =>
    exact Run.plan_recordApplied D seq result now actual via shopAddedMarkup hostRewrote r
  | recordFailed runId seq error via => exact Run.plan_recordFailed seq error via r
  | recordUnrecordedSettled runId seq now =>
    exact Run.plan_editTarget (TargetEdit.keepsPlan_settled now) seq r
  | recordRolledBack run seq now =>
    exact Run.plan_editTarget (TargetEdit.keepsPlan_rolledBack now) seq r
  | setWriting runId => exact Run.plan_setPhase _ _ _ r
  | setAborted runId reason => exact Run.plan_setPhase _ _ _ r
  | halt runId reason => rfl
  | finish run => exact Run.plan_setPhase _ _ _ r

/-- No write touches what was planned for any run. -/
theorem plan_call (c : EffectCall V) (L : Ledger) (id : String) :
    ((c.perform D L).runRow id).map Run.plan = (L.runRow id).map Run.plan := by
  cases c with
  | releaseClaim runId seq =>
    exact Ledger.plan_editTarget TargetEdit.keepsPlan_released
  | markSent runId seq via => exact Ledger.plan_editRun (Run.plan_markSent seq via)
  | markRefused runId seq => exact Ledger.plan_editTarget TargetEdit.keepsPlan_refused
  | recordApplied run seq result now actual via shopAddedMarkup hostRewrote =>
    simp only [EffectCall.perform, Ledger.recordApplied]
    have hrec (r : Run) := r.plan_recordApplied D seq result now actual via shopAddedMarkup
      hostRewrote
    split
    · exact Ledger.plan_markSource.trans (Ledger.plan_editRun hrec)
    · exact Ledger.plan_editRun hrec
  | recordFailed runId seq error via =>
    exact Ledger.plan_editRun (Run.plan_recordFailed seq error via)
  | recordUnrecordedSettled runId seq now =>
    exact Ledger.plan_editTarget (TargetEdit.keepsPlan_settled now)
  | recordRolledBack run seq now =>
    exact Ledger.plan_markSource.trans
      (Ledger.plan_editTarget (TargetEdit.keepsPlan_rolledBack now))
  | setWriting runId => exact Ledger.plan_editRun (Run.plan_setPhase _ _ _)
  | setAborted runId reason => exact Ledger.plan_editRun (Run.plan_setPhase _ _ _)
  | halt runId reason => exact Ledger.plan_editRun fun _ => rfl
  | finish run =>
    have hclosed : ((L.setPhase run.id [.writing] .done none).runRow id).map Run.plan =
        (L.runRow id).map Run.plan :=
      Ledger.plan_editRun (Run.plan_setPhase _ _ _)
    simp only [EffectCall.perform, Ledger.finish]
    split
    · exact (Ledger.plan_editRun Run.plan_setUndone).trans hclosed
    · exact hclosed

/-- No operation of a pass takes from the trace or touches what was planned. -/
theorem seen_perform (r : String) (w : World V) (o : EffectOp V) (ch : Choice V) :
    w.trace <:+ (perform D w o ch).2.trace ∧
      ((perform D w o ch).2.ledger.runRow r).map Run.plan = (w.ledger.runRow r).map Run.plan := by
  cases o with
  | call c => exact ⟨List.suffix_append _ _, plan_call D c w.ledger r⟩
  | claimTarget runId seq now =>
    exact ⟨List.suffix_rfl, Ledger.plan_editTarget (TargetEdit.keepsPlan_claimed D now)⟩
  | probeHoldsFor runId => exact ⟨List.suffix_cons _ _, rfl⟩
  | read tag place =>
    simp only [perform]
    split <;> exact ⟨List.suffix_cons _ _, rfl⟩
  | write tag place image => exact ⟨List.suffix_cons _ _, rfl⟩
  | send tag key value => exact ⟨List.suffix_cons _ _, rfl⟩
  | _ =>
    exact ⟨List.suffix_rfl, rfl⟩

/-- What a pass sees after a write. -/
theorem seen_call {r : String} (w : World V) (ch : Choice V) (hr : c.runId = r)
    (hs : c.source ≠ some r) :
    seen r (perform D w (.call c) ch).2 =
      ⟨(w.ledger.runRow r).map (c.onOwn D), c.event.toList ++ w.trace⟩ := by
  subst hr
  exact Seen.ext (runRow_call D hs) rfl

end Lynox.Bulk
