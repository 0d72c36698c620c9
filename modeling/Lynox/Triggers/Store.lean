import Lynox.Data.Table
import Mathlib.Data.Char
import Mathlib.Data.List.Sort
import Mathlib.Data.String.Basic

/-!
# The trigger store

A trigger is a row of the `triggers` table : what fires it, what it does, its schedule, its
status, the owner's stamp and who last changed it. The operations are the statements of the
store : an `UPDATE` is `Store.update` with its `WHERE` and its `SET`, and `upsert` is the one
statement that inserts. Times are texts, compared as the database compares them, and an
empty stamp counts as none.

`getDue` selects what the worker may start : switched on, not ended, waiting or paused, due
and not leased, and, where the trigger starts an agent run or a mandate was the last to
change it, stamped.
-/

namespace Lynox.Triggers

/-! ## Who acts -/

inductive RequestPrincipal
  | owner
  | mandate (email : String) (mandateId : Option String)
  | cpAdmin
  deriving DecidableEq, Repr

def mandateTagPrefix : String := "mandate:"

def principalTag : RequestPrincipal → String
  | .owner => "owner"
  | .mandate email _ => mandateTagPrefix ++ email
  | .cpAdmin => "cp-admin"

def isMandateTag (tag : Option String) : Bool :=
  tag.any fun t => mandateTagPrefix.toList.isPrefixOf t.toList

/-- A text is `LIKE` the pattern of a mandate tag; `LIKE` does not tell ASCII case apart. -/
def likeMandateTag (tag : String) : Bool :=
  mandateTagPrefix.toList.isPrefixOf (tag.toList.map Char.toLower)

/-! ## Rows -/

inductive TriggerSource
  | cron | watch | webhook | inboxEvent | manual
  deriving DecidableEq, Repr

inductive TriggerEffect
  | runWorkflow | runAgent | backup | notify | bulkApply | bulkUndo | bulkPreview | bulkJudge
  deriving DecidableEq, Repr

inductive TriggerStatus
  | open | inProgress | completed | failed | waiting | stopped
  deriving DecidableEq, Repr

/-- `condition_json`. -/
structure Condition where
  scheduleCron : Option String
  watchConfig : Option String
  runId : Option String
  webhook : Option String
  deriving DecidableEq, Repr

/-- A row of `triggers`. -/
structure Trigger where
  id : String
  title : String
  description : String
  source : TriggerSource
  effect : TriggerEffect
  condition : Condition
  targetWorkflowId : Option String
  paramsJson : String
  scopeType : Option String
  scopeId : Option String
  status : TriggerStatus
  enabled : Bool
  nextRunAt : Option String
  lastRunAt : Option String
  lastRunResult : Option String
  lastRunStatus : Option String
  notificationChannel : Option String
  maxRetries : Option Nat
  retryCount : Nat
  confirmedAt : Option String
  confirmedBy : Option String
  createdUntrusted : Option String
  createdBy : Option String
  createdMandateId : Option String
  editedBy : Option String
  mandateEditor : Option String
  mandateEditorId : Option String
  mandateEditedAt : Option String
  coveredEditedBy : Option String
  coveredEditedId : Option String
  coveredEditedAt : Option String
  consentRemindedAt : Option String
  stampConnections : Option String
  routeTokenHash : Option String
  sourceConnectionId : Option String
  modelTier : Option String
  waitingUntil : Option String
  leaseHolder : Option String
  leaseUntil : Option String
  leaseSince : Option String
  lastEscalationAt : Option String
  lastEscalationOutcome : Option String
  pausedAt : Option String
  createdAt : String
  updatedAt : String
  deriving DecidableEq

/-- `COALESCE(confirmed_at, '') <> ''`. -/
def stamped (confirmedAt : Option String) : Bool :=
  confirmedAt.getD "" ≠ ""

/-- The last party that changed a trigger or took it over, its creator where none did. -/
def Trigger.lastParty (t : Trigger) : String :=
  (t.editedBy.or t.createdBy).getD ""

/-- The reminder marker survives only an unstamped row that stays unstamped. -/
def keepMarkerIfUnstamped (new old marker : Option String) : Option String :=
  if !stamped new && !stamped old then marker else none

/-- The triggers, the ids of the saved workflows, and whether the plan pause is on. -/
structure Store where
  rows : List Trigger
  workflows : List String
  planPauseOn : Bool

/-- An `UPDATE` of the row `id` where `p` : whether a row matched, and the store after it. -/
def Store.update (s : Store) (id : String) (p : Trigger → Bool) (f : Trigger → Trigger) :
    Bool × Store :=
  (s.rows.any fun r => r.id = id && p r,
    { s with rows := s.rows.map fun r => if r.id = id && p r then f r else r })

/-! ## Inserting -/

/-- What `upsert` is given. -/
structure TriggerRow where
  id : String
  title : String
  description : String
  source : TriggerSource
  effect : TriggerEffect
  condition : Condition
  targetWorkflowId : Option String
  paramsJson : String
  scopeType : Option String
  scopeId : Option String
  status : TriggerStatus
  enabled : Bool
  nextRunAt : Option String
  lastRunAt : Option String
  lastRunResult : Option String
  lastRunStatus : Option String
  notificationChannel : Option String
  maxRetries : Option Nat
  retryCount : Nat
  confirmedAt : Option String
  createdUntrusted : Option String
  createdBy : Option String
  createdMandateId : Option String
  confirmedBy : Option String

/-- The workflow an id names : itself, or the only one it is a prefix of. -/
def resolveTargetWorkflowId (workflows : List String) (candidate : Option String) :
    Option String :=
  match candidate with
  | none | some "" => none
  | some candidate =>
    if candidate ∈ workflows then some candidate
    else match workflows.filter fun w =>
        (candidate.toList.map Char.toLower).isPrefixOf (w.toList.map Char.toLower) with
      | [hit] => some hit
      | _ => none

/-- The inserted row : the columns the statement does not name are null. -/
def TriggerRow.inserted (row : TriggerRow) (workflows : List String) (createdAt updatedAt : String) :
    Trigger where
  id := row.id
  title := row.title
  description := row.description
  source := row.source
  effect := row.effect
  condition := row.condition
  targetWorkflowId := resolveTargetWorkflowId workflows row.targetWorkflowId
  paramsJson := row.paramsJson
  scopeType := row.scopeType
  scopeId := row.scopeId
  status := row.status
  enabled := row.enabled
  nextRunAt := row.nextRunAt
  lastRunAt := row.lastRunAt
  lastRunResult := row.lastRunResult
  lastRunStatus := row.lastRunStatus
  notificationChannel := row.notificationChannel
  maxRetries := row.maxRetries
  retryCount := row.retryCount
  confirmedAt := row.confirmedAt
  confirmedBy := if stamped row.confirmedAt then row.confirmedBy else none
  createdUntrusted := row.createdUntrusted
  createdBy := row.createdBy
  createdMandateId := if isMandateTag row.createdBy then row.createdMandateId else none
  editedBy := none
  mandateEditor := none
  mandateEditorId := none
  mandateEditedAt := none
  coveredEditedBy := none
  coveredEditedId := none
  coveredEditedAt := none
  consentRemindedAt := none
  stampConnections := none
  routeTokenHash := none
  sourceConnectionId := none
  modelTier := none
  waitingUntil := none
  leaseHolder := none
  leaseUntil := none
  leaseSince := none
  lastEscalationAt := none
  lastEscalationOutcome := none
  pausedAt := none
  createdAt := createdAt
  updatedAt := updatedAt

/-- `ON CONFLICT DO UPDATE` : `old` is the row that is there, `new` the one excluded. -/
def onConflict (old new : Trigger) : Trigger :=
  { old with
    title := new.title
    description := new.description
    source := new.source
    effect := new.effect
    condition := new.condition
    targetWorkflowId := new.targetWorkflowId
    paramsJson := new.paramsJson
    scopeType := new.scopeType
    scopeId := new.scopeId
    status := new.status
    enabled := new.enabled
    nextRunAt := new.nextRunAt
    lastRunAt := new.lastRunAt
    lastRunResult := new.lastRunResult
    lastRunStatus := new.lastRunStatus
    notificationChannel := new.notificationChannel
    maxRetries := new.maxRetries
    retryCount := new.retryCount
    confirmedAt := new.confirmedAt
    createdUntrusted := new.createdUntrusted.or old.createdUntrusted
    createdBy := old.createdBy.or new.createdBy
    createdMandateId := if old.createdBy = none then new.createdMandateId else old.createdMandateId
    confirmedBy := if !stamped new.confirmedAt then none else new.confirmedBy.or old.confirmedBy
    consentRemindedAt :=
      keepMarkerIfUnstamped new.confirmedAt old.confirmedAt old.consentRemindedAt
    updatedAt := new.updatedAt }

def upsert (s : Store) (row : TriggerRow) (createdAt updatedAt : String) : Store :=
  let new := row.inserted s.workflows createdAt updatedAt
  if s.rows.any (·.id = row.id) then
    { s with rows := s.rows.map fun r => if r.id = row.id then onConflict r new else r }
  else { s with rows := s.rows ++ [new] }

/-- What `insert` is given. -/
structure InsertParams where
  id : String
  title : String
  description : Option String
  status : Option TriggerStatus
  scopeType : Option String
  scopeId : Option String
  scheduleCron : Option String
  nextRunAt : Option String
  source : Option TriggerSource
  effect : Option TriggerEffect
  watchConfig : Option String
  maxRetries : Option Nat
  notificationChannel : Option String
  pipelineId : Option String
  pipelineParams : Option String
  confirmedAt : Option String
  createdUntrusted : Option String
  createdBy : Option String
  createdMandateId : Option String
  confirmedBy : Option String

def InsertParams.row (p : InsertParams) : TriggerRow where
  id := p.id
  title := p.title
  description := p.description.getD ""
  source := p.source.getD .manual
  effect := p.effect.getD .runAgent
  condition := ⟨p.scheduleCron, p.watchConfig, none, none⟩
  targetWorkflowId := p.pipelineId
  paramsJson := p.pipelineParams.getD "\x7b\x7d"
  scopeType := some (p.scopeType.getD "project")
  scopeId := some (p.scopeId.getD "")
  status := p.status.getD .open
  enabled := true
  nextRunAt := p.nextRunAt
  lastRunAt := none
  lastRunResult := none
  lastRunStatus := none
  notificationChannel := p.notificationChannel
  maxRetries := some (p.maxRetries.getD 0)
  retryCount := 0
  confirmedAt := p.confirmedAt
  createdUntrusted := p.createdUntrusted
  createdBy := p.createdBy
  createdMandateId := p.createdMandateId
  confirmedBy := p.confirmedBy

def bulkPreviewTriggerId (runId : String) : String := "bulk-preview-" ++ runId

/-- The id a bulk effect is armed under. -/
def bulkTriggerId (effect : TriggerEffect) (runId : String) : String :=
  if effect = .bulkPreview ∨ effect = .bulkJudge then bulkPreviewTriggerId runId
  else "bulk-" ++ runId

/-- The row `armBulkEffect` writes. -/
def bulkRow (runId : String) (effect : TriggerEffect) (title nextRunAt : String) : TriggerRow where
  id := bulkTriggerId effect runId
  title := title
  description := ""
  source := .manual
  effect := effect
  condition := ⟨none, none, some runId, none⟩
  targetWorkflowId := none
  paramsJson := "\x7b\x7d"
  scopeType := some "project"
  scopeId := some ""
  status := .open
  enabled := true
  nextRunAt := some nextRunAt
  lastRunAt := none
  lastRunResult := none
  lastRunStatus := none
  notificationChannel := none
  maxRetries := some 0
  retryCount := 0
  confirmedAt := none
  createdUntrusted := none
  createdBy := none
  createdMandateId := none
  confirmedBy := none

/-- What `insertWebhook` is given; `spec` is the encoded verifier. -/
structure WebhookParams where
  id : String
  title : String
  description : Option String
  pipelineId : String
  spec : String
  routeTokenHash : String
  sourceConnectionId : Option String
  scopeType : Option String
  scopeId : Option String
  confirmedAt : Option String
  confirmedBy : Option String
  createdUntrusted : Option String
  createdBy : Option String
  createdMandateId : Option String

def WebhookParams.row (p : WebhookParams) (workflowId : String) : TriggerRow where
  id := p.id
  title := p.title
  description := p.description.getD ""
  source := .webhook
  effect := .runWorkflow
  condition := ⟨none, none, none, some p.spec⟩
  targetWorkflowId := some workflowId
  paramsJson := "\x7b\x7d"
  scopeType := some (p.scopeType.getD "project")
  scopeId := some (p.scopeId.getD "")
  status := .open
  enabled := true
  nextRunAt := none
  lastRunAt := none
  lastRunResult := none
  lastRunStatus := none
  notificationChannel := none
  maxRetries := some 0
  retryCount := 0
  confirmedAt := p.confirmedAt
  createdUntrusted := p.createdUntrusted
  createdBy := p.createdBy
  createdMandateId := p.createdMandateId
  confirmedBy := if p.confirmedAt.isSome then p.confirmedBy else none

def insertWebhook (s : Store) (p : WebhookParams) (now : String) : Except String Store :=
  match resolveTargetWorkflowId s.workflows (some p.pipelineId) with
  | none => .error ("No saved workflow \"" ++ p.pipelineId ++ "\" to bind the webhook to.")
  | some workflowId =>
    if s.rows.any (·.id = p.id) then
      .error ("A trigger with id \"" ++ p.id ++ "\" exists already.")
    else
      .ok ((upsert s (p.row workflowId) now now).update p.id (fun _ => true) fun r =>
        { r with
          routeTokenHash := some p.routeTokenHash
          sourceConnectionId := p.sourceConnectionId }).2

/-! ## Consent -/

def setConfirmedAt (s : Store) (id : String) (confirmedAt confirmedBy stampConnections : Option String)
    (now : String) : Bool × Store :=
  let by' := if confirmedAt = none then none else confirmedBy
  s.update id (fun _ => true) fun r =>
    { r with
      confirmedAt := confirmedAt
      confirmedBy := by'
      editedBy := by'.or r.editedBy
      consentRemindedAt := keepMarkerIfUnstamped confirmedAt r.confirmedAt r.consentRemindedAt
      stampConnections := if confirmedAt = none then none else stampConnections
      updatedAt := now }

def markEditedBy (s : Store) (id : String) (editor : RequestPrincipal) (clearStamp : Bool)
    (now : String) : Bool × Store :=
  s.update id (fun _ => true) fun r =>
    let r := { r with editedBy := some (principalTag editor), updatedAt := now }
    let r := match editor with
      | .mandate _ mandateId =>
        { r with
          mandateEditor := some (principalTag editor)
          mandateEditorId := mandateId
          mandateEditedAt := some now
          coveredEditedBy := none
          coveredEditedId := none
          coveredEditedAt := none }
      | _ => r
    if clearStamp then
      { r with
        confirmedAt := none
        confirmedBy := none
        consentRemindedAt := keepMarkerIfUnstamped none r.confirmedAt r.consentRemindedAt }
    else r

/-! ## Edits and runs -/

/-- What `updateFields` sets; an inner `none` or an empty text clears. -/
structure FieldParams where
  title : Option String
  description : Option String
  status : Option TriggerStatus
  assignee : Option String
  nextRunAt : Option (Option String)
  scheduleCron : Option (Option String)
  waitingUntil : Option (Option String)
  modelTier : Option (Option String)

/-- `x || null`. -/
def orNull (x : Option String) : Option String :=
  x.filter (· ≠ "")

/-- The `SET` list of `updateFields`. -/
def FieldParams.apply (p : FieldParams) (now : String) (r : Trigger) : Trigger :=
  let edited := p.title.isSome || p.description.isSome
  let clearsWait := p.status.any (· ≠ .waiting)
  { r with
    title := p.title.getD r.title
    description := p.description.getD r.description
    confirmedAt := if edited then none else r.confirmedAt
    confirmedBy := if edited then none else r.confirmedBy
    consentRemindedAt :=
      if edited then keepMarkerIfUnstamped none r.confirmedAt r.consentRemindedAt
      else r.consentRemindedAt
    status := p.status.getD r.status
    nextRunAt := match p.nextRunAt with
      | some v => orNull v
      | none => r.nextRunAt
    waitingUntil :=
      if clearsWait then none
      else match p.waitingUntil with
        | some v => orNull v
        | none => r.waitingUntil
    condition := match p.scheduleCron with
      | some v => { r.condition with scheduleCron := orNull v }
      | none => r.condition
    modelTier := match p.modelTier with
      | some v => v
      | none => r.modelTier
    updatedAt := now }

/-- Whether there is anything to set. -/
def FieldParams.nonempty (p : FieldParams) : Bool :=
  p.title.isSome || p.description.isSome || p.status.isSome || p.nextRunAt.isSome ||
    p.waitingUntil.isSome || p.scheduleCron.isSome || p.modelTier.isSome || p.assignee.isSome

def updateFields (s : Store) (id : String) (p : FieldParams) (scopes : List (String × String))
    (now : String) : Bool × Store :=
  if !p.nonempty then (false, s)
  else s.update id (fun r => scopes = [] ∨ ∃ sc ∈ scopes, r.scopeType = some sc.1 ∧
    r.scopeId = some sc.2) (p.apply now)

/-- What `updateRunResult` sets. -/
structure RunResult where
  lastRunAt : String
  lastRunResult : String
  lastRunStatus : String
  nextRunAt : Option (Option String)
  retryCount : Option Nat

def updateRunResult (s : Store) (id : String) (u : RunResult) (now : String) : Store :=
  (s.update id (fun _ => true) fun r =>
    { r with
      lastRunAt := some u.lastRunAt
      lastRunResult := some u.lastRunResult
      lastRunStatus := some u.lastRunStatus
      nextRunAt := u.nextRunAt.getD r.nextRunAt
      retryCount := u.retryCount.getD r.retryCount
      updatedAt := now }).2

def updateWatchConfig (s : Store) (id watchConfig now : String) : Store :=
  (s.update id (fun _ => true) fun r =>
    { r with condition := { r.condition with watchConfig := some watchConfig }, updatedAt := now }).2

def setEnabled (s : Store) (id : String) (enabled : Bool) (now : String) : Bool × Store :=
  s.update id (fun _ => true) fun r => { r with enabled := enabled, updatedAt := now }

def remove (s : Store) (id : String) : Bool × Store :=
  if id = "" then (false, s)
  else (s.rows.any (·.id = id), { s with rows := s.rows.filter (·.id ≠ id) })

/-! ## Escalation, reminder, wait and lease -/

def startEscalation (s : Store) (id at' : String) (onlyIfLater : Bool) : Bool × Store :=
  s.update id (fun r => !onlyIfLater || r.lastEscalationAt.all (· < at')) fun r =>
    { r with lastEscalationAt := some at', lastEscalationOutcome := some "unconfirmed" }

def recordEscalationOutcome (s : Store) (id outcome startedAt : String) : Bool × Store :=
  s.update id (fun r => r.lastEscalationAt = some startedAt) fun r =>
    { r with lastEscalationOutcome := some outcome }

def markConsentReminded (s : Store) (id at' : String) : Bool × Store :=
  s.update id (fun r => r.consentRemindedAt = none && !stamped r.confirmedAt) fun r =>
    { r with consentRemindedAt := some at' }

def endWait (s : Store) (id : String) (status : TriggerStatus) (now : String) : Bool × Store :=
  s.update id (fun r => r.status = .waiting) fun r =>
    { r with status := status, waitingUntil := none, updatedAt := now }

inductive LeaseClaim
  | claimed | interrupted | held | notFound
  deriving DecidableEq, Repr

def claimLease (s : Store) (id holder until' now : String) : LeaseClaim × Store :=
  match Table.find Trigger.id s.rows id with
  | none => (.notFound, s)
  | some row =>
    if row.leaseUntil.any (now < ·) then (.held, s)
    else
      let unsettled := row.leaseHolder.isSome && row.leaseSince.any fun since =>
        row.nextRunAt.any (· ≤ since)
      (if unsettled then .interrupted else .claimed,
        (s.update id (fun _ => true) fun r =>
          { r with leaseHolder := some holder, leaseUntil := some until', leaseSince := some now }).2)

def renewLease (s : Store) (id holder until' : String) : Bool × Store :=
  s.update id (fun r => r.leaseHolder = some holder) fun r => { r with leaseUntil := some until' }

def releaseLease (s : Store) (id holder : String) : Store :=
  (s.update id (fun r => r.leaseHolder = some holder) fun r =>
    { r with leaseHolder := none, leaseUntil := none, leaseSince := none }).2

/-- A plan is paused until its owner takes it over. -/
def writePause (s : Store) (id at' : String) : Bool × Store :=
  s.update id (fun r => r.pausedAt = none) fun r => { r with pausedAt := some at' }

/-- The writes of a takeover that make a paused plan run again : a lapsed lease, the pause, the
status of a waiting or (where `reopens`) a stopped one, and the next run where it changes. -/
def releasePlan (s : Store) (id now : String) (reopens : Bool) (nextRunAt : Option (Option String)) :
    Store :=
  let s := (s.update id (fun r => r.leaseUntil.all (· ≤ now)) fun r =>
    { r with leaseHolder := none, leaseUntil := none, leaseSince := none }).2
  let s := (s.update id (fun _ => true) fun r => { r with pausedAt := none }).2
  let s := (endWait s id .open now).2
  let s := (s.update id (fun r => reopens && r.status = .stopped) fun r =>
    { r with status := .open, updatedAt := now }).2
  (s.update id (fun _ => true) fun r => { r with nextRunAt := nextRunAt.getD r.nextRunAt }).2

/-! ## What is due -/

/-- The terms that are not about consent : the switch, the status and the pause. -/
def unheld (planPauseOn : Bool) (t : Trigger) : Bool :=
  t.enabled && t.status ≠ .completed && t.status ≠ .waiting && t.status ≠ .stopped &&
    (t.status ≠ .failed || t.condition.scheduleCron.isSome) && (t.pausedAt = none || !planPauseOn)

/-- `unheld`, and the consent of an agent run or of a mandate's trigger. -/
def accepts (planPauseOn : Bool) (t : Trigger) : Bool :=
  unheld planPauseOn t && !(t.effect = .runAgent && !stamped t.confirmedAt) &&
    !(!stamped t.confirmedAt && likeMandateTag t.lastParty)

def armed (planPauseOn : Bool) (t : Trigger) : Bool :=
  t.nextRunAt.isSome && accepts planPauseOn t

/-- The triggers due at `now`, in the order of their time. -/
def getDue (s : Store) (now : String) : List Trigger :=
  (s.rows.filter fun t => armed s.planPauseOn t && t.nextRunAt.any (· ≤ now) &&
    t.leaseUntil.all (· ≤ now)).insertionSort fun a b => a.nextRunAt.getD "" ≤ b.nextRunAt.getD ""

end Lynox.Triggers
