import Lynox.Bulk.Judge
import Lynox.Bulk.World
import Lynox.Bulk.WellFormed
import Lynox.Process.Run

/-!
# Operations on the ledger

`LedgerOp` is every operation that writes to the bulk tables, with what its caller gives it :
the plannings, the pages of a list, the previews, the judge, the owner's routes, the writes of
the effect, and the sweeps. `Ledger.step` is what each does; a refused operation leaves what its
transaction left. A run of the ledger is a list of operations, of any number of callers in any
order, from an empty ledger.

What the callers promise is `LedgerOp.Allowed`. A new run takes an id that is not taken
(`randomUUID`). A halt gives a reason of its own, not one that ends an unapproved run. The
effect marks targets of a run it read as approved : another pass may have closed the run
meanwhile, but no run loses its approval.
-/

namespace Lynox.Bulk

variable {V : Type} (D : Deps V)

inductive LedgerOp (V : Type)
  | recordDryRun (p : DryRun V)
  | recordExternalPlan (dead : String → Bool) (p : ExternalPlan V)
  | recordExternalListPlan (dead : String → Bool) (p : ListPlan)
  | takeListCall (runId : String) (limit : ℤ)
  | returnListCall (runId : String)
  | recordListPage (runId : String) (p : ListPage)
  | finishList (runId : String) (mint : List String → String)
  | expireEndedPlanners (own : BulkOwnership)
  | endIfPlannerEnded (runId : String) (own : BulkOwnership)
  | freeDeadReads (dead : String → Bool) (onlyRunId : Option String)
  | recordRead (runId : String) (seq : ℕ) (read : TargetRead V)
  | recordReadFailure (runId : String) (seq : ℕ)
  | haltPreview (runId : String) (reason : HaltReason)
  | halt (runId : String) (reason : HaltReason)
  | finishPreview (runId : String)
  | resumePreview (dead deadThen : String → Bool) (runId : String) (p : StartParams)
  | claimJudge (runId : String) (seq : ℕ) (token : String) (now staleMs : Time)
  | releaseJudgeClaim (runId : String) (seq : ℕ) (token : String)
  | addJudgeCost (runId : String) (usd : ℚ)
  | settleJudgeCost (runId : String) (provisionalUsd usd : ℚ)
  | recordJudgement (runId : String) (seq : ℕ) (token : String) (verdict : Verdict V) (now : Time)
  | finishJudge (runId : String)
  | expireStaleJudgedRuns (now maxAgeMs : Time)
  | setSelected (runId : String) (seq : ℕ) (selected : Bool) (checksum : String) (now : Time)
  | approve (runId : String) (p : ApproveParams)
  | resume (runId : String) (p : ResumeParams)
  | confirmProbe (runId : String) (confirmedBy : Option String) (now : Time)
  | planUndo (sourceRunId id : String) (createdAt : Time) (createdBy : Option String)
  | claimTarget (runId : String) (seq : ℕ) (now : Time)
  | effect (call : EffectCall V)

namespace Ledger

def empty : Ledger :=
  { runs := [], id_nodup := List.nodup_nil }

/-- What an external planning leaves : one refused because another run is reading has halted
the dead reads, and did not throw. -/
def afterExternal (L : Ledger) (dead : String → Bool) : Except PlanRefusal Ledger → Ledger
  | .ok L' => L'
  | .error .externalInProgress => L.haltDeadReads dead
  | .error _ => L

/-- The ledger after one operation. -/
def step [DecidableEq V] (L : Ledger) : LedgerOp V → Ledger
  | .recordDryRun p => L.orElse (L.recordDryRun D p)
  | .recordExternalPlan dead p => L.afterExternal dead (L.recordExternalPlan D dead p)
  | .recordExternalListPlan dead p => L.afterExternal dead (L.recordExternalListPlan D dead p)
  | .takeListCall runId limit => L.takeListCall runId limit
  | .returnListCall runId => L.returnListCall runId
  | .recordListPage runId p => L.recordListPage D runId p
  | .finishList runId mint => L.finishList D runId mint
  | .expireEndedPlanners own => L.expireEndedPlanners own
  | .endIfPlannerEnded runId own => L.endIfPlannerEnded runId own
  | .freeDeadReads dead onlyRunId => L.freeDeadReads dead onlyRunId
  | .recordRead runId seq read => (L.recordRead D runId seq read).2
  | .recordReadFailure runId seq => (L.recordReadFailure runId seq).2
  | .haltPreview runId reason => L.haltPreview runId reason
  | .halt runId reason => L.halt runId reason
  | .finishPreview runId => (L.finishPreview runId).2
  | .resumePreview dead deadThen runId p => (L.resumePreview D dead deadThen runId p).2
  | .claimJudge runId seq token now staleMs => (L.claimJudge D runId seq token now staleMs).2
  | .releaseJudgeClaim runId seq token => L.releaseJudgeClaim runId seq token
  | .addJudgeCost runId usd => L.addJudgeCost runId usd
  | .settleJudgeCost runId provisionalUsd usd => L.settleJudgeCost runId provisionalUsd usd
  | .recordJudgement runId seq token verdict now =>
    (L.recordJudgement D runId seq token verdict now).2
  | .finishJudge runId => (L.finishJudge D runId).2
  | .expireStaleJudgedRuns now maxAgeMs => L.expireStaleJudgedRuns D now maxAgeMs
  | .setSelected runId seq selected checksum now =>
    L.orElse (L.setSelected D runId seq selected checksum now)
  | .approve runId p => L.orElse (L.approve D runId p)
  | .resume runId p => L.orElse (L.resume D runId p)
  | .confirmProbe runId confirmedBy now => L.confirmProbe D runId confirmedBy now
  | .planUndo sourceRunId id createdAt createdBy =>
    L.orElse (L.planUndo D sourceRunId id createdAt createdBy)
  | .claimTarget runId seq now => (L.claimTarget D runId seq now).2
  | .effect call => call.perform D L

/-- The ledger after a list of operations. -/
def afterOps [DecidableEq V] (ops : List (LedgerOp V)) : Ledger :=
  Run.after (step D) empty ops

end Ledger

/-! ## What the callers promise -/

/-- The run a write of the effect was made with, where it carries one. -/
def EffectCall.readAs : EffectCall V → Option Run
  | .recordApplied run .. | .recordRolledBack run .. | .finish run => some run
  | .releaseClaim .. | .markSent .. | .markRefused .. | .recordFailed ..
  | .recordUnrecordedSettled .. | .setWriting _ | .setAborted .. | .halt .. => none

/-- The reason a write of the effect sets. -/
def EffectCall.reason : EffectCall V → Option HaltReason
  | .setAborted _ reason | .halt _ reason => some reason
  | .recordApplied .. | .recordRolledBack .. | .finish _ | .releaseClaim .. | .markSent ..
  | .markRefused .. | .recordFailed .. | .recordUnrecordedSettled .. | .setWriting _ => none

/-- Whether a write of the effect marks targets. -/
def EffectCall.marksTarget : EffectCall V → Bool
  | .recordApplied .. | .recordRolledBack .. | .releaseClaim .. | .markSent .. | .markRefused ..
  | .recordFailed .. | .recordUnrecordedSettled .. => true
  | .setWriting _ | .setAborted .. | .halt .. | .finish _ => false

/-- A pass marks targets of a run that was approved, and writes with the links it read from the
run. -/
structure EffectCall.Fits (L : Ledger) (call : EffectCall V) (x : Run) : Prop where
  row : L.runRow call.runId = some x
  approved : call.marksTarget = true → x.approvedAt.isSome = true
  kind : ∀ run, call.readAs = some run → run.kind = x.kind
  source : ∀ run, call.readAs = some run → run.sourceRunId = x.sourceRunId
  reason : ∀ reason, call.reason = some reason → reason.endsUnapproved = false

/-- A write that carries no row of its run and sets no reason fits a run that was approved. -/
theorem EffectCall.Fits.of_approved {call : EffectCall V} {L : Ledger}
    (h : (L.runRow call.runId).any (·.approvedAt.isSome) = true) (hread : call.readAs = none)
    (hreason : call.reason = none) : ∃ x, call.Fits L x := by
  obtain ⟨x, hx, happroved⟩ := (Option.any_eq_true _ _).mp h
  exact ⟨x, hx, fun _ => happroved, by simp [hread], by simp [hread], by simp [hreason]⟩

/-- When an operation may be called. -/
def LedgerOp.Allowed (L : Ledger) : LedgerOp V → Prop
  | .recordDryRun p => L.runRow p.id = none
  | .recordExternalPlan _ p => L.runRow p.id = none
  | .recordExternalListPlan _ p => L.runRow p.id = none
  | .planUndo _ id .. => L.runRow id = none
  | .haltPreview _ reason | .halt _ reason => reason.endsUnapproved = false
  | .effect call => ∃ x, call.Fits L x
  | _ => True

end Lynox.Bulk
