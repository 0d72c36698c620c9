import Lynox.Bulk.Reads

/-!
# What the effect records

The writes of `bulk-ledger.ts` that the effect makes, each one statement or one
transaction : the claim on a target, the marks of a send, the outcome of a target, the
marks of a roll-back, and the moves of the run's phase. `recordApplied` and
`recordRolledBack` of an undo also set and clear the mark of the source target it takes
back, and `finish` moves the source to `undone` once nothing of it stands.

Each is an edit of one target row, lifted to the run and then to the ledger. No edit touches
what was planned (`Run.plan`) : the columns the checksum is taken over, and the links of an
undo to its source.
-/

namespace Lynox.Bulk

variable {V : Type} (D : Deps V)

/-- A claim older than this belongs to a loop that died. -/
def bulkClaimStaleMs : Time := 30000

/-! ## Connections -/

/-- Merge `via` into a stored pair : the first connection sets both, a later one keeps the
grant only when it agrees. A send nobody recorded leaves the grant unknown. -/
def mergeInto (unrecordedSend : Bool) (via : Option AttachedConnection)
    (id grant : Option String) : Option String × Option String :=
  match via, id with
  | none, _ => (id, grant)
  | some c, none => (some c.id, if unrecordedSend then none else c.grantId)
  | some c, some i => (some i, if i = c.id && grant = c.grantId then grant else none)

/-- One connection for several requests of the same target. -/
def mergeConnections (seen : List (Option AttachedConnection)) : Option AttachedConnection :=
  seen.reduceOption.foldl
    (fun merged c =>
      match merged with
      | none => some c
      | some m => some (if m.id = c.id && m.grantId = c.grantId then m else ⟨m.id, none⟩))
    none

/-- The write side of a target under `via`. -/
def Target.noteWrite (via : Option AttachedConnection) (t : Target) : Target :=
  let pair := mergeInto t.writeSent via t.writeConnectionId t.writeGrantId
  { t with writeConnectionId := pair.1, writeGrantId := pair.2 }

/-- The read side of a target under `via`. -/
def Target.noteRead (via : Option AttachedConnection) (t : Target) : Target :=
  let pair := mergeInto false via t.readConnectionId t.readGrantId
  { t with readConnectionId := pair.1, readGrantId := pair.2 }

/-- The run's summary, once : its first connection. -/
def Run.noteFirst (via : Option AttachedConnection) (r : Run) : Run :=
  { r with
    firstConnectionId := r.firstConnectionId.or (via.map AttachedConnection.id)
    firstGrantId :=
      if r.firstConnectionId.isSome then r.firstGrantId
      else via.elim r.firstGrantId AttachedConnection.grantId }

/-! ## Edits of one target -/

namespace TargetEdit

/-- Whether a target is unapplied, unfailed and unclaimed, or claimed by a loop that
died. -/
def claimable (now : Time) (t : Target) : Bool :=
  t.appliedAt.isNone && t.error.isNone && t.undoneAt.isNone && t.deselectedAt.isNone &&
    t.claimedAt.all fun c => D.isoBefore c (now - bulkClaimStaleMs)

def claimed (now : Time) : TargetEdit :=
  TargetEdit.under (claimable D now) { apply := fun t => { t with claimedAt := some now } }

def released : TargetEdit :=
  TargetEdit.under (·.appliedAt.isNone) { apply := fun t => { t with claimedAt := none } }

/-- The verb is about to go out : marked, and counted until its own refusal. -/
def sent (via : Option AttachedConnection) : TargetEdit where
  apply t := { t.noteWrite via with writeSent := true, unknownSends := t.unknownSends + 1 }

def refused : TargetEdit where
  apply t := { t with unknownSends := t.unknownSends - 1 }

/-- Written, or found already as planned where the run never sent to it. -/
def applied (unsentTracked : Bool) (result : String) (now : Time)
    (actual : Option (ActualImage V)) (via : Option AttachedConnection)
    (shopAddedMarkup hostRewrote : Bool) : TargetEdit where
  apply t :=
    { t.noteWrite via with
      appliedAt := some now
      result := some result
      afterActual := actual.map D.json.actualText
      claimedAt := none
      shopAddedMarkup := shopAddedMarkup
      hostRewrote := hostRewrote
      foundUnsent := t.foundUnsent || (result = "already" && !t.writeSent && unsentTracked) }

end TargetEdit

/-- Whether an error counts as a failed write. -/
def TargetError.counted : TargetError → Bool
  | .conflict | .sentUnknown => false
  | .writeFailed | .pathChanged | .redirect | .secret => true

namespace TargetEdit

/-- Not written. A run from before failures were recorded keeps its unknown. -/
def failed (error : TargetError) (via : Option AttachedConnection) : TargetEdit where
  apply t :=
    { t.noteWrite via with
      error := some (.target error)
      claimedAt := none
      failedOnce :=
        if !error.counted || t.failedOnce.isNone then t.failedOnce else some true }

/-- Sent to and never recorded, settled by the roll-back. -/
def settled (now : Time) : TargetEdit :=
  TargetEdit.under (fun t => t.appliedAt.isNone && t.writeSent)
    { apply := fun t => { t with undoneAt := some now } }

/-- Written by this run, taken back. -/
def rolledBack (now : Time) : TargetEdit :=
  TargetEdit.under (·.appliedAt.isSome) { apply := fun t => { t with undoneAt := some now } }

/-- Taken back by an undo, or standing again. -/
def taken (undoneAt : Option Time) : TargetEdit where
  apply t := { t with undoneAt := undoneAt }

end TargetEdit

/-! ## Edits of the run -/

namespace Run

def markSent (seq : ℕ) (via : Option AttachedConnection) (r : Run) : Run :=
  (r.noteFirst via).editTarget seq (.sent via)

/-- The own part of `recordApplied`. -/
def recordApplied (seq : ℕ) (result : String) (now : Time) (actual : Option (ActualImage V))
    (via : Option AttachedConnection) (shopAddedMarkup hostRewrote : Bool) (r : Run) : Run :=
  if (r.target? seq).any (·.appliedAt.isNone) then
    { (r.noteFirst via).editTarget seq
        (.applied D r.unsentTracked result now actual via shopAddedMarkup hostRewrote)
      with targetsApplied := r.targetsApplied + 1 }
  else r

def recordFailed (seq : ℕ) (error : TargetError) (via : Option AttachedConnection) (r : Run) :
    Run :=
  if (r.target? seq).any (·.appliedAt.isNone) then
    { (r.noteFirst via).editTarget seq (.failed error via)
      with targetsFailed := r.targetsFailed + if error.counted then 1 else 0 }
  else r

def setPhase (source : List Phase) (target : Phase) (haltReason : Option HaltReason) (r : Run) :
    Run :=
  if source.contains r.phase then
    { r with phase := target, haltReason := haltReason.or r.haltReason }
  else r

def halt (reason : HaltReason) (r : Run) : Run :=
  { r with haltReason := some reason }

/-- Whether nothing an undo takes back is left standing. -/
def nothingStands (r : Run) : Bool :=
  r.targets.countP (Target.undoEligible (externalHostOf r.targetSystem).isSome) = 0

/-- Taken back whole : `undone`, from a phase its own loop has ended in. -/
def setUndone (r : Run) : Run :=
  if r.nothingStands && [Phase.done, .aborted, .writing].contains r.phase then
    { r with phase := .undone }
  else r

@[simp] theorem recordApplied_id {seq : ℕ} {result : String} {now : Time}
    {actual : Option (ActualImage V)} {via : Option AttachedConnection}
    {shopAddedMarkup hostRewrote : Bool} (r : Run) :
    (r.recordApplied D seq result now actual via shopAddedMarkup hostRewrote).id = r.id := by
  unfold recordApplied
  split <;> rfl

theorem recordApplied_open (r : Run) (seq : ℕ) (result : String) (now : Time)
    (actual : Option (ActualImage V)) (via : Option AttachedConnection)
    (shopAddedMarkup hostRewrote : Bool) :
    (r.recordApplied D seq result now actual via shopAddedMarkup hostRewrote).phase = r.phase ∧
      (r.recordApplied D seq result now actual via shopAddedMarkup hostRewrote).haltReason =
        r.haltReason := by
  unfold recordApplied
  split <;> exact ⟨rfl, rfl⟩

theorem recordFailed_open (r : Run) (seq : ℕ) (error : TargetError)
    (via : Option AttachedConnection) : (r.recordFailed seq error via).phase = r.phase ∧
      (r.recordFailed seq error via).haltReason = r.haltReason := by
  unfold recordFailed
  split <;> exact ⟨rfl, rfl⟩

@[simp] theorem recordFailed_id {seq : ℕ} {error : TargetError}
    {via : Option AttachedConnection} (r : Run) : (r.recordFailed seq error via).id = r.id := by
  unfold recordFailed
  split <;> rfl

@[simp] theorem setPhase_id {source : List Phase} {target : Phase}
    {haltReason : Option HaltReason} (r : Run) :
    (r.setPhase source target haltReason).id = r.id := by
  unfold setPhase
  split <;> rfl

@[simp] theorem setUndone_id (r : Run) : r.setUndone.id = r.id := by
  unfold setUndone
  split <;> rfl

end Run

/-! ## Statements and transactions -/

namespace Ledger

/-- Claim one target for writing, test and set in one step. -/
def claimTarget (L : Ledger) (runId : String) (seq : ℕ) (now : Time) : Bool × Ledger :=
  ((L.row runId seq).any (TargetEdit.claimable D now),
    L.editTarget runId seq (.claimed D now))

/-- Give a claimed target back unwritten. -/
def releaseClaim (L : Ledger) (runId : String) (seq : ℕ) : Ledger :=
  L.editTarget runId seq .released

/-- Mark that the write verb is about to go out. -/
def markSent (L : Ledger) (runId : String) (seq : ℕ) (via : Option AttachedConnection) : Ledger :=
  L.editRun runId { apply := Run.markSent seq via }

/-- The send just marked was refused, or never left. -/
def markRefused (L : Ledger) (runId : String) (seq : ℕ) : Ledger :=
  L.editTarget runId seq .refused

/-- The mark of the source target an undo target takes back. -/
def markSource (L : Ledger) (run : Run) (seq : ℕ) (undoneAt : Option Time) : Ledger :=
  match run.kind, run.sourceRunId, (L.row run.id seq).bind Target.sourceSeq with
  | .undo, some source, some s => L.editTarget source s (.taken undoneAt)
  | _, _, _ => L

/-- Record a written target with the run's counter and, for an undo, the source target. -/
def recordApplied (L : Ledger) (run : Run) (seq : ℕ) (result : String) (now : Time)
    (actual : Option (ActualImage V)) (via : Option AttachedConnection)
    (shopAddedMarkup hostRewrote : Bool) : Ledger :=
  let recorded := L.editRun run.id
    { apply := Run.recordApplied D seq result now actual via shopAddedMarkup hostRewrote
      keeps := fun r => r.recordApplied_id D }
  if (L.row run.id seq).any (·.appliedAt.isNone) then recorded.markSource run seq (some now)
  else recorded

/-- Record a target that was not written. -/
def recordFailed (L : Ledger) (runId : String) (seq : ℕ) (error : TargetError)
    (via : Option AttachedConnection) : Ledger :=
  L.editRun runId { apply := Run.recordFailed seq error via, keeps := Run.recordFailed_id }

/-- A target sent to and never recorded, settled by the roll-back. -/
def recordUnrecordedSettled (L : Ledger) (runId : String) (seq : ℕ) (now : Time) : Ledger :=
  L.editTarget runId seq (.settled now)

/-- A target written by this run, taken back. For an undo the source target stands again. -/
def recordRolledBack (L : Ledger) (run : Run) (seq : ℕ) (now : Time) : Ledger :=
  (L.editTarget run.id seq (.rolledBack now)).markSource run seq none

/-- Move the run's phase, only from one of `source`. -/
def setPhase (L : Ledger) (runId : String) (source : List Phase) (target : Phase)
    (haltReason : Option HaltReason) : Ledger :=
  L.editRun runId { apply := Run.setPhase source target haltReason, keeps := Run.setPhase_id }

/-- Stop the run where it is. -/
def halt (L : Ledger) (runId : String) (reason : HaltReason) : Ledger :=
  L.editRun runId { apply := Run.halt reason }

/-- Close a run with nothing left to write, and its source once nothing of it stands. -/
def finish (L : Ledger) (run : Run) : Ledger :=
  let closed := L.setPhase run.id [.writing] .done none
  match run.kind, run.sourceRunId with
  | .undo, some source =>
    closed.editRun source { apply := Run.setUndone, keeps := Run.setUndone_id }
  | _, _ => closed

end Ledger

/-! ## What was planned -/

/-- The columns of a target no write of the effect touches. -/
structure TargetPlan where
  seq : ℕ
  targetKey : String
  change : Change
  before : Option String
  afterPlanned : Option String
  sourceSeq : Option ℕ
  deselected : Bool
  deriving DecidableEq

def Target.plan (t : Target) : TargetPlan :=
  ⟨t.seq, t.targetKey, t.change, t.before, t.afterPlanned, t.sourceSeq, t.deselectedAt.isSome⟩

/-- The columns of a run no write of the effect touches. -/
structure RunPlan where
  id : String
  kind : RunKind
  targetSystem : String
  targetCollection : Option String
  atomic : Bool
  sourceRunId : Option String
  ruleHash : String
  contractJson : Option String
  listSource : Option String
  judgeRuleHash : Option String
  startDomains : Option String
  unsentTracked : Bool
  approvalChecksum : Option String
  maxTargets : Option ℕ
  targets : List TargetPlan
  deriving DecidableEq

def Run.plan (r : Run) : RunPlan where
  id := r.id
  kind := r.kind
  targetSystem := r.targetSystem
  targetCollection := r.targetCollection
  atomic := r.atomic
  sourceRunId := r.sourceRunId
  ruleHash := r.ruleHash
  contractJson := r.contractJson
  listSource := r.listSource
  judgeRuleHash := r.judgeRuleHash
  startDomains := r.startDomains
  unsentTracked := r.unsentTracked
  approvalChecksum := r.approvalChecksum
  maxTargets := r.maxTargets
  targets := r.targets.map Target.plan

/-- An edit that touches nothing that was planned. -/
def TargetEdit.KeepsPlan (e : TargetEdit) : Prop :=
  ∀ t, (e.apply t).plan = t.plan

namespace TargetEdit

theorem KeepsPlan.under {e : TargetEdit} (h : e.KeepsPlan) (p : Target → Bool) :
    (e.under p).KeepsPlan :=
  fun t => TargetEdit.under_keeps (h t)

theorem keepsPlan_claimed (now : Time) : (claimed D now).KeepsPlan :=
  KeepsPlan.under (fun _ => rfl) _

theorem keepsPlan_released : released.KeepsPlan :=
  KeepsPlan.under (fun _ => rfl) _

theorem keepsPlan_sent (via : Option AttachedConnection) : (sent via).KeepsPlan :=
  fun _ => rfl

theorem keepsPlan_refused : refused.KeepsPlan :=
  fun _ => rfl

theorem keepsPlan_applied (unsentTracked : Bool) (result : String) (now : Time)
    (actual : Option (ActualImage V)) (via : Option AttachedConnection)
    (shopAddedMarkup hostRewrote : Bool) :
    (applied D unsentTracked result now actual via shopAddedMarkup hostRewrote).KeepsPlan :=
  fun _ => rfl

theorem keepsPlan_failed (error : TargetError) (via : Option AttachedConnection) :
    (failed error via).KeepsPlan :=
  fun _ => rfl

theorem keepsPlan_settled (now : Time) : (settled now).KeepsPlan :=
  KeepsPlan.under (fun _ => rfl) _

theorem keepsPlan_rolledBack (now : Time) : (rolledBack now).KeepsPlan :=
  KeepsPlan.under (fun _ => rfl) _

theorem keepsPlan_taken (undoneAt : Option Time) : (taken undoneAt).KeepsPlan :=
  fun _ => rfl

end TargetEdit

namespace Run

theorem plan_mapTargets {e : TargetEdit} (h : e.KeepsPlan) (r : Run) :
    (r.mapTargets e).plan = r.plan := by
  have ht : (r.targets.map e.apply).map Target.plan = r.targets.map Target.plan :=
    map_mapTargets fun t _ => h t
  simp only [plan, mapTargets, ht]

theorem plan_editTarget {e : TargetEdit} (h : e.KeepsPlan) (seq : ℕ) (r : Run) :
    (r.editTarget seq e).plan = r.plan :=
  plan_mapTargets (h.under _) r

theorem plan_markSent (seq : ℕ) (via : Option AttachedConnection) (r : Run) :
    (r.markSent seq via).plan = r.plan :=
  plan_editTarget (TargetEdit.keepsPlan_sent via) seq (r.noteFirst via)

theorem plan_recordApplied (seq : ℕ) (result : String) (now : Time)
    (actual : Option (ActualImage V)) (via : Option AttachedConnection)
    (shopAddedMarkup hostRewrote : Bool) (r : Run) :
    (r.recordApplied D seq result now actual via shopAddedMarkup hostRewrote).plan = r.plan := by
  unfold recordApplied
  split
  · exact plan_editTarget (TargetEdit.keepsPlan_applied D _ _ _ _ _ _ _) seq (r.noteFirst via)
  · rfl

theorem plan_recordFailed (seq : ℕ) (error : TargetError) (via : Option AttachedConnection)
    (r : Run) : (r.recordFailed seq error via).plan = r.plan := by
  unfold recordFailed
  split
  · exact plan_editTarget (TargetEdit.keepsPlan_failed error via) seq (r.noteFirst via)
  · rfl

theorem plan_setPhase (source : List Phase) (target : Phase) (haltReason : Option HaltReason)
    (r : Run) : (r.setPhase source target haltReason).plan = r.plan := by
  unfold setPhase
  split <;> rfl

theorem plan_setUndone (r : Run) : r.setUndone.plan = r.plan := by
  unfold setUndone
  split <;> rfl

end Run

/-- What was planned for a target, read off what was planned for its run. -/
theorem Run.plan_target? (r : Run) (seq : ℕ) :
    (r.target? seq).map Target.plan = Table.find TargetPlan.seq r.plan.targets seq := by
  simp only [target?, Table.find, plan, List.find?_map, Function.comp_def]
  rfl

theorem Target.writing_eq_of_plan {t t' : Target} (h : t.plan = t'.plan) :
    t.writing = t'.writing := by
  simp only [plan, TargetPlan.mk.injEq] at h
  simp only [writing, h.2.2.1, ← Option.not_isSome, h.2.2.2.2.2.2]

end Lynox.Bulk
