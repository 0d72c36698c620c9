import Lynox.Bulk.Preview
import Mathlib.Algebra.Order.Ring.Unbundled.Rat

/-!
# The judge of a planned run

A judged run's targets are decided by a model, one call a target. What its loop does to the
ledger : the claim it takes on a target before the call is paid for, the booking of the call,
the verdict, and the close of the run once every target has one; and the sweep that drops a
judged run nobody approved.

A claim is time-limited and carries the token of the loop that took it. A verdict is written
under that token only, while the target has none and the run is planned.
-/

namespace Lynox.Bulk

variable {V : Type} (D : Deps V)

/-! ## Claims -/

/-- A target the judge is to decide. -/
def Target.unjudged (t : Target) : Bool :=
  t.change ≠ .invalid && t.before.isSome && t.judgedAt.isNone

/-- Whether nobody holds a live claim on a target still to be decided. -/
def Target.judgeClaimable (now staleMs : Time) (t : Target) : Bool :=
  t.unjudged && t.judgeClaimedAt.all fun c => D.isoBefore c (now - staleMs)

namespace TargetEdit

def judgeClaimed (token : String) (now : Time) : TargetEdit where
  apply t := { t with judgeClaimedAt := some now, judgeClaimToken := some token }

def judgeReleased : TargetEdit where
  apply t := { t with judgeClaimedAt := none, judgeClaimToken := none }

end TargetEdit

namespace Ledger

/-- Take the claim on one target before its call is paid for. -/
def claimJudge (L : Ledger) (runId : String) (seq : ℕ) (token : String) (now staleMs : Time) :
    Bool × Ledger :=
  L.updateTarget runId seq Run.previewing (Target.judgeClaimable D now staleMs)
    (.judgeClaimed token now)

/-- Give a claim back without a verdict. -/
def releaseJudgeClaim (L : Ledger) (runId : String) (seq : ℕ) (token : String) : Ledger :=
  L.editTarget runId seq <|
    TargetEdit.under (fun t => t.judgeClaimToken = some token && t.judgedAt.isNone) .judgeReleased

end Ledger

/-! ## Spending -/

namespace Ledger

/-- Book a paid call into the run's spend. -/
def addJudgeCost (L : Ledger) (runId : String) (usd : ℚ) : Ledger :=
  if usd ≤ 0 then L
  else L.editRun runId { apply := fun r => { r with costUsd := r.costUsd + usd } }

/-- Replace a call's provisional booking by what it cost, never below zero. -/
def settleJudgeCost (L : Ledger) (runId : String) (provisionalUsd usd : ℚ) : Ledger :=
  if provisionalUsd < 0 || usd < 0 then L
  else
    L.editRun runId
      { apply := fun r => { r with costUsd := max 0 (r.costUsd - provisionalUsd + usd) } }

end Ledger

/-! ## Verdicts -/

/-- What a call decided : an after-state, or why the target has none, with the values refused,
the field that held a secret and the domain a refused link points to. -/
inductive Verdict (V : Type)
  | after (after : V)
  | invalid (reason : InvalidReason) (refused : Option V) (contextField : Option ℕ)
      (linkDomain : Option String)

namespace TargetEdit

/-- Decided, with no after-state. -/
def judgedInvalid (reason : InvalidReason) (kept : Option String) (contextField : Option ℕ)
    (linkDomain : Option String) (now : Time) : TargetEdit where
  apply t :=
    { t with
      change := .invalid
      undo := none
      error := some (.invalid reason)
      afterPlanned := kept.or t.afterPlanned
      contextSecretField := contextField
      linkDomain := linkDomain
      judgedAt := some now
      judgeClaimedAt := none
      judgeClaimToken := none }

/-- Decided, with the after-state and the change that follows. -/
def judged (after : String) (change : Change) (now : Time) : TargetEdit where
  apply t :=
    { t with
      afterPlanned := some after
      change := change
      error := none
      judgedAt := some now
      judgeClaimedAt := none
      judgeClaimToken := none }

end TargetEdit

/-- A target whose verdict may be written under `token`. -/
def Target.judgeable (token : String) (t : Target) : Bool :=
  t.judgeClaimToken = some token && t.judgedAt.isNone && t.change ≠ .invalid

namespace Ledger

/-- A verdict's after-state as it is stored : completed on a Shopify run as a planned one is,
and canonical. -/
def verdictAfter [DecidableEq V] (L : Ledger) (run : Run) (before : Image V) (after : V) : V :=
  match before with
  | .absent => L.canonicalAfterOf D run after none
  | .value held =>
    let paired := if (L.shopifyFormOfRun D run).isSome && (D.fields held).isSome &&
        (D.fields after).isSome then D.shopifyPairedAfter after held else after
    L.canonicalAfterOf D run paired held

/-- Record one target's verdict, under the claim's own token only. -/
def recordJudgement [DecidableEq V] (L : Ledger) (runId : String) (seq : ℕ) (token : String)
    (verdict : Verdict V) (now : Time) : Bool × Ledger :=
  let guarded := L.updateTarget runId seq (·.phase = .planned) (Target.judgeable token)
  match verdict with
  | .invalid reason refused contextField linkDomain =>
    let kept := if reason = .shortcodeChanged then refused.map D.json.valueText else none
    guarded (.judgedInvalid reason kept contextField (linkDomainCell reason linkDomain) now)
  | .after after =>
    match L.runRow runId, (L.row runId seq).bind Target.before with
    | some run, some text =>
      let before := D.json.imageOf text
      let stored := L.verdictAfter D run before after
      guarded (.judged (D.json.valueText stored)
        (classifyChange D (L.comparedAsHtml D run) before stored) now)
    | _, _ => (false, L)

/-- What the rule of a judged run is taken over : its host, or its collection. -/
def judgeScope (r : Run) : String :=
  (externalHostOf r.targetSystem).getD ("data_store:" ++ r.targetCollection.getD "")

/-- Close a judged run once every target is read and has a verdict, with its rule taken over
the verdicts. -/
def finishJudge (L : Ledger) (runId : String) : Bool × Ledger :=
  L.updateRun runId
    (fun r => r.previewing && r.judgeRule.isSome && r.listState ≠ some .pending &&
      !r.targets.any fun t => t.change ≠ .invalid && (t.before.isNone || t.judgedAt.isNone))
    { apply := fun r =>
        let pairs := rowPairs D r
        { r with
          phase := .previewed
          undo :=
            if pairs.any (·.2.isSome) then if r.undo = .none then .restorable else r.undo
            else .none
          ruleHash := D.keyedHash (rulePairs D r.targetSystem (judgeScope r) pairs) } }

end Ledger

/-! ## Retention -/

/-- A run never approved : before its approval, or ended there. -/
def Run.unapprovedJudged (r : Run) : Bool :=
  r.unapproved ||
    (r.phase = .aborted &&
      (r.haltReason = some .superseded || r.haltReason = some .mandateEnded))

/-- Delete every started, unapproved judged run whose start is too long ago. -/
def Ledger.expireStaleJudgedRuns (L : Ledger) (now maxAgeMs : Time) : Ledger :=
  L.deleteRuns fun r => r.judgeStarted && r.unapprovedJudged &&
    r.judgeStartedAt.any fun at' => D.isoBefore at' (now - maxAgeMs)

end Lynox.Bulk
