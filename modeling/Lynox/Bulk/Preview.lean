import Lynox.Bulk.Plan
import Lynox.Bulk.Records

/-!
# The preview of a planned run

What the preview effect and the owner's start of it do to the ledger : the start itself
(`resumePreview`), the outcome of reading one target, the halt of a preview, and its close.

A start is one transaction. It halts the reads nothing goes on with, refuses while another
external run is reading, ends the other started judged run when the owner named it, and only
then clears the halt. A refusal of the transaction keeps what it had halted until there : the
transaction returns, it does not throw. `dead` says of which runs no read trigger is left; the
start asks it twice, and time passes between.
-/

namespace Lynox.Bulk

variable {V : Type} (D : Deps V)

/-! ## Guarded updates -/

namespace Ledger

/-- An update of one run under the condition of its `WHERE`, and whether it changed a row. -/
def updateRun (L : Ledger) (runId : String) (guard : Run → Bool) (e : RunEdit) : Bool × Ledger :=
  ((L.runRow runId).any guard, L.editRun runId (e.under guard))

/-- An update of one target under the condition of its `WHERE` on the run and on the target. -/
def updateTarget (L : Ledger) (runId : String) (seq : ℕ) (run : Run → Bool) (guard : Target → Bool)
    (e : TargetEdit) : Bool × Ledger :=
  L.updateRun runId (fun r => run r && (r.target? seq).any guard)
    { apply := Run.editTarget seq (e.under guard) }

end Ledger

/-! ## Reading targets -/

/-- A run whose preview goes on : planned, and not halted. -/
def Run.previewing (r : Run) : Bool :=
  r.phase = .planned && r.haltReason.isNone

/-- A target the preview has still to read. -/
def Target.unread (t : Target) : Bool :=
  t.change ≠ .invalid && t.before.isNone

/-- What the preview read for one target : its before-image, with the connection it was read
under, the after-state the read completed, the title and the context it answered; or why the
target cannot be planned. -/
inductive TargetRead (V : Type)
  | image (before : V) (via : Option AttachedConnection) (completedAfter : Option V)
      (titleNow : Option (Option String)) (context : Option V)
  | invalid (reason : InvalidReason) (linkDomain : Option String)

/-- The domain of a refused link, kept with that one reason. -/
def linkDomainCell (reason : InvalidReason) (domain : Option String) : Option String :=
  if reason = .newLinkDomain then domain.filter (· ≠ "") else none

namespace Ledger

/-- An after-state as it is stored : canonical in the HTML fields it changes. -/
def canonicalAfterOf [DecidableEq V] (L : Ledger) (run : Run) (after : V) (before : Option V) :
    V :=
  match D.fields after with
  | none => after
  | some members =>
    let held := (before.bind D.fields).getD []
    let changed := fun m : String × V => (L.htmlFieldsOf D run).contains m.1 &&
      (D.text m.2).isSome && held.lookup m.1 ≠ some m.2
    if members.any changed then
      D.object <| members.map fun m =>
        let canonical := D.canonicalHtml ((D.text m.2).getD "")
        if changed m && D.canonicalHtml canonical = canonical then (m.1, D.ofText canonical)
        else m
    else after

/-- The change a read leaves a target with. A judged target's is not known until its verdict,
and a plan the store would save as it already holds is none. -/
def readChange [DecidableEq V] (L : Ledger) (run : Run) (before after : V)
    (titleNow : Option (Option String)) : Change :=
  let html := L.comparedAsHtml D run
  let saved := L.comparedInSavedForm D run && titleNow.any fun title =>
    sameValue D html before (D.shopifySavedForm after title)
  if run.judgeRule.isSome then .update
  else if saved then .unchanged
  else classifyChange D html (.value before) after

end Ledger

namespace TargetEdit

/-- Not to be planned, for a reason. -/
def ruledOut (reason : InvalidReason) (linkDomain : Option String) : TargetEdit where
  apply t :=
    { t with
      change := .invalid
      undo := none
      error := some (.invalid reason)
      linkDomain := linkDomain }

/-- Read, with its image, its after-state and the change between them. -/
def imaged (image after : String) (change : Change) (context : Option String)
    (via : Option AttachedConnection) : TargetEdit where
  apply t :=
    { t.noteRead via with
      before := some image
      change := change
      error := none
      afterPlanned := some after
      context := context }

/-- A read that failed on the host's side : tried once more, then ruled out. -/
def readFailed : TargetEdit where
  apply t :=
    if t.error.isNone then { t with error := some (.invalid .readFailed) }
    else { t with change := .invalid, undo := none, error := some (.invalid .readFailed) }
  keeps t := by split <;> rfl

end TargetEdit

inductive ReadFailure
  | retry | invalid
  deriving DecidableEq, Repr

namespace Ledger

/-- Record what the preview read for one target, while the run is being previewed and the
target unread. -/
def recordRead [DecidableEq V] (L : Ledger) (runId : String) (seq : ℕ) (read : TargetRead V) :
    Bool × Ledger :=
  match read with
  | .invalid reason linkDomain =>
    L.updateTarget runId seq Run.previewing Target.unread
      (.ruledOut reason (linkDomainCell reason linkDomain))
  | .image before via completedAfter titleNow context =>
    match L.runRow runId, (L.row runId seq).bind Target.afterPlanned with
    | some run, some planned =>
      let after := L.canonicalAfterOf D run (completedAfter.getD (D.json.valueOf planned)) before
      let edit := TargetEdit.imaged (D.json.imageText (.value before)) (D.json.valueText after)
        (L.readChange D run before after titleNow) (context.map D.json.valueText) via
      L.updateRun runId (fun r => r.previewing && (r.target? seq).any Target.unread)
        { apply := fun r => (r.noteFirst via).editTarget seq (edit.under Target.unread) }
    | _, _ => (false, L)

/-- A read that failed on the host's side. -/
def recordReadFailure (L : Ledger) (runId : String) (seq : ℕ) : Option ReadFailure × Ledger :=
  let updated := L.updateTarget runId seq Run.previewing Target.unread .readFailed
  if updated.1 then
    (some (if (L.row runId seq).any (·.error.isNone) then .retry else .invalid), updated.2)
  else (none, L)

/-- Halt a preview that is still reading, keeping a reason already set. -/
def haltPreview (L : Ledger) (runId : String) (reason : HaltReason) : Ledger :=
  (L.updateRun runId Run.previewing { apply := fun r => { r with haltReason := some reason } }).2

/-- Close a preview, only when every target that is not invalid holds a before-image. A judged
run is previewed by its verdicts. -/
def finishPreview (L : Ledger) (runId : String) : Bool × Ledger :=
  L.updateRun runId
    (fun r => !r.targets.any Target.unread && r.previewing && r.listState ≠ some .pending &&
      r.judgeRule.isNone)
    { apply := fun r =>
        { r with
          phase := .previewed
          undo := if r.targets.any (·.change ≠ .invalid) then .restorable else .none } }

end Ledger

/-! ## Starting a preview -/

/-- What the owner presents with a start. -/
structure StartParams where
  now : Time := 0
  listChecksum : Option String := none
  judgeRuleHash : Option String := none
  costCapUsd : Option ℚ := none
  supersedes : Option String := none
  startDomains : Option (List String) := none

inductive StartRefusal
  | notFound | wrongPhase | externalInProgress | checksum | costCap | notAtThisStart
  | startDomainsNotHere | startDomainsInvalid | startDomainsFrozen
  | supersedeRequired (id : String) (costUsd : ℚ)
  | ruleRefused (message : String)
  deriving DecidableEq

/-- A spend limit is a positive amount of whole cents. -/
def isWholeCents (usd : ℚ) : Bool :=
  let cents := usd * 100
  let nearest : ℚ := (cents + 1 / 2).floor
  0 < usd && cents - nearest < 1 / 1000000 && nearest - cents < 1 / 1000000

/-- The checksum a start of a list read must present. -/
def Run.listStartChecksum (r : Run) : Option String :=
  match r.listState, r.listSource with
  | some .pending, some source =>
    some <| D.keyedHash <| ["bulk-list-start-v1", r.targetSystem, source, r.contractJson.getD ""] ++
      optionalPart "judge" r.judgeRuleHash
  | _, _ => none

/-- Whether a start of this run starts its judge : a judged run past its list. -/
def Run.judging (r : Run) : Bool :=
  r.judgeRule.isSome && r.listState ≠ some .pending

/-- Whether a start of this run takes the link domains. -/
def Run.listJudging (r : Run) : Bool :=
  r.judging && r.listSource.isSome

/-- Whether the link domains are settled : from the judge's first start or the first read. -/
def Run.domainsFrozen (r : Run) : Bool :=
  r.listJudging && (r.judgeStartedAt.isSome || r.targets.any (·.before.isSome))

/-- Why a judge may not start on a run : its rule under today's checks, the hash of the rule
the owner was shown, and a spend limit. -/
def judgeStartRefusal (r : Run) (p : StartParams) : Option StartRefusal :=
  match r.judgeRule.bind fun rule => D.judgeRuleRefusal rule r.listSource with
  | some message => some (.ruleRefused message)
  | none =>
    if p.judgeRuleHash.isNone || p.judgeRuleHash ≠ r.judgeRuleHash then some .checksum
    else if p.costCapUsd.elim r.costCapUsd.isNone fun usd => !isWholeCents usd then some .costCap
    else none

/-- Why a run may not be started, from its own row. -/
def startRefusal (r : Run) (p : StartParams) : Option StartRefusal :=
  let listPending : Bool := r.listState = some .pending
  if r.phase ≠ .planned || r.haltReason.isNone then some .wrongPhase
  else if listPending &&
      (p.listChecksum.isNone || p.listChecksum ≠ r.listStartChecksum D) then some .checksum
  else if r.judgeRule.isSome && listPending && (p.costCapUsd.isSome || p.supersedes.isSome) then
    some .notAtThisStart
  else if p.startDomains.isSome && !r.listJudging then some .startDomainsNotHere
  else if p.startDomains.any fun l => (D.normalizeStartDomains l).isNone then
    some .startDomainsInvalid
  else if r.judging then judgeStartRefusal D r p
  else none

/-- The columns a start sets. -/
def RunEdit.started (p : StartParams) (judging setDomains : Bool)
    (startList : Option (List String)) : RunEdit where
  apply r :=
    { r with
      haltReason := none
      costCapUsd := if judging then p.costCapUsd.or r.costCapUsd else r.costCapUsd
      judgeStartedAt := if judging then r.judgeStartedAt.or (some p.now) else r.judgeStartedAt
      startDomains :=
        if setDomains then (startList.filter (!·.isEmpty)).map D.startDomainsText
        else r.startDomains }

namespace Ledger

/-- `haltDeadReads` for one run, or for all. -/
def freeDeadReads (L : Ledger) (dead : String → Bool) (onlyRunId : Option String) : Ledger :=
  L.haltDeadReads fun id => dead id && onlyRunId.all (· = id)

/-- The other judged run that was started and not approved, the oldest of them. -/
def startedJudged (L : Ledger) (runId : String) : Option Run :=
  (byAge D (L.runs.filter fun r => r.judgeStarted && r.unapproved && r.id ≠ runId)).head?

/-- End the run a start replaces. -/
def supersede (L : Ledger) (runId : String) : Ledger :=
  L.editRun runId <| RunEdit.under Run.unapproved
    { apply := fun r => { r with phase := .aborted, haltReason := some .superseded } }

/-- The transaction of a start. -/
def start (L : Ledger) (dead : String → Bool) (run : Run) (p : StartParams) :
    Option StartRefusal × Ledger :=
  let startList := p.startDomains.bind D.normalizeStartDomains
  let started := fun L : Ledger => L.editRun run.id <|
    RunEdit.under (fun r => r.phase = .planned && r.haltReason.isSome)
      (.started D p run.judging (run.listJudging && !run.domainsFrozen) startList)
  if run.domainsFrozen && startList.any fun l =>
      (run.startDomains.map D.startDomainsOf).getD [] ≠ l then (some .startDomainsFrozen, L)
  else
    let L := L.haltDeadReads dead
    if (externalHostOf run.targetSystem).isSome &&
        L.runs.any fun r => r.reading && r.id ≠ run.id then (some .externalInProgress, L)
    else
      match if run.judging then L.startedJudged D run.id else none with
      | none => (none, started L)
      | some other =>
        if p.supersedes ≠ some other.id then
          (some (.supersedeRequired other.id other.costUsd), L)
        else (none, started (L.supersede other.id))

/-- Start a planned run's read, or start it again after a halt. -/
def resumePreview (L : Ledger) (dead deadThen : String → Bool) (runId : String)
    (p : StartParams) : Option StartRefusal × Ledger :=
  let L := L.freeDeadReads dead (some runId)
  match L.runRow runId with
  | none => (some .notFound, L)
  | some run =>
    match startRefusal D run p with
    | some refusal => (some refusal, L)
    | none => L.start D deadThen run p

end Ledger

end Lynox.Bulk
