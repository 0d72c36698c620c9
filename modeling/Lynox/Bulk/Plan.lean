import Lynox.Bulk.Reads
import Mathlib.Data.List.Sort

/-!
# Planning runs

The operations that make a run and end it before its approval : a dry run, an external
plan, a plan whose targets come from a list, the pages of that list, the prune of
unapproved runs, and the end of a run whose planner's access has ended.

A planning names the id and the time its row is inserted with; a refused planning leaves
the ledger as it was. `deleteRuns` takes a dropped run's targets with it.
-/

namespace Lynox.Bulk

variable {V : Type} (D : Deps V)

/-! ## Planners -/

def mandateTagPrefix : String := "mandate:"

/-- The tag a row records for who planned it. -/
def RequestPrincipal.tag : RequestPrincipal → String
  | .owner => "owner"
  | .mandate email _ => mandateTagPrefix ++ email
  | .cpAdmin => "cp-admin"

/-- The grant a mandate planned under. -/
def RequestPrincipal.grant : RequestPrincipal → Option String
  | .mandate _ mandateId => mandateId
  | .owner | .cpAdmin => none

/-- Whether a recorded tag names a mandate. -/
def isMandateTag (tag : String) : Bool :=
  mandateTagPrefix.toList.isPrefixOf tag.toList

/-! ## The cap of unapproved runs -/

def bulkMaxPreviewedRuns : ℕ := 10

/-- A run whose judge was started holds paid verdicts. -/
def Run.judgeStarted (r : Run) : Bool :=
  r.judgeRule.isSome && r.costCapUsd.isSome

/-- The runs a new planning may drop. -/
def Run.prunable (r : Run) : Bool :=
  r.kind = .apply &&
    (((r.phase = .previewed || r.phase = .planned) && !r.judgeStarted) ||
      (r.phase = .aborted && r.haltReason = some .superseded))

/-- A planner's own prunable run. -/
def Run.prunableBy (principal : RequestPrincipal) (r : Run) : Bool :=
  r.prunable && r.principal = some principal.tag && r.mandateId = principal.grant

inductive PlanRefusal
  | judgedSystem
  | sameTargetTwice
  | previewCap (waiting : ℕ)
  | externalInProgress
  deriving DecidableEq, Repr

namespace Ledger

/-- Oldest first, by creation and then insertion. -/
def byAge (runs : List Run) : List Run :=
  runs.insertionSort fun a b => !D.isoBefore b.createdAt a.createdAt

/-- How many of its own runs a planning will drop, or why it does not fit under the cap. -/
def capRoomFor (L : Ledger) (principal : RequestPrincipal) : Except PlanRefusal ℕ :=
  if principal = .owner then .ok 0
  else
    let total := L.runs.countP Run.prunable
    if total + 1 ≤ bulkMaxPreviewedRuns then .ok 0
    else
      let excess := total + 1 - bulkMaxPreviewedRuns
      if excess ≤ L.runs.countP (Run.prunableBy principal) then .ok excess
      else .error (.previewCap (L.runs.countP fun r => r.kind = .apply && r.phase = .previewed))

/-- The unapproved apply runs a planning drops : the oldest over the cap, or `own` of the
planner's own. -/
def doomed (L : Ledger) (principal : RequestPrincipal) (own : ℕ) (newRun : Option String) :
    List Run :=
  if principal = .owner then
    let prunable := byAge D (L.runs.filter Run.prunable)
    prunable.take (prunable.length - bulkMaxPreviewedRuns)
  else
    (byAge D (L.runs.filter fun r => r.prunableBy principal && some r.id ≠ newRun)).take own

def pruneUnapproved (L : Ledger) (principal : RequestPrincipal) (own : ℕ)
    (newRun : Option String) : Ledger :=
  let ids := (L.doomed D principal own newRun).map Run.id
  L.deleteRuns fun r => ids.contains r.id

end Ledger

/-! ## Dry runs -/

/-- One target as planned. -/
inductive PlannedTarget (V : Type)
  | valid (key : String) (before : Image V) (after : V)
  | invalid (key : String) (reason : InvalidReason)

def PlannedTarget.key : PlannedTarget V → String
  | .valid key .. | .invalid key _ => key

/-- Per-target undo class : creating is compensatable, overwriting needs the image. -/
def undoFor : Image V → UndoKind
  | .absent => .compensatable
  | .value _ => .restorable

/-- The undo class of a run from those of its targets. -/
def runUndo (kinds : List UndoKind) : UndoKind :=
  match kinds.dedup with
  | [] => .none
  | [kind] => kind
  | _ => .mixed

/-- The parts of a rule, in key order : the system, the scope and a pair a target. -/
def rulePairs (targetSystem scope : String) (pairs : List (String × Option V)) : List String :=
  targetSystem :: scope ::
    (pairs.insertionSort fun a b => !D.textBefore b.1 a.1).flatMap fun p =>
      [p.1, (p.2.map D.canonicalJson).getD ""]

/-- The keyed hash of a judge rule's canonical text. -/
def judgeHash (rule : String) : String :=
  D.keyedHash ["bulk-judge-rule-v1", rule]

/-- What a planning says of its run. -/
structure PlanParams where
  id : String
  createdAt : Time
  createdBy : Option String
  principal : RequestPrincipal
  judge : Option String := none

structure DryRun (V : Type) extends PlanParams where
  targetSystem : String
  scope : String
  targets : List (PlannedTarget V)
  targetCollection : Option String := none
  atomic : Bool := false

/-- A row for a target that cannot be written. -/
def invalidTarget (seq : ℕ) (key : String) (reason : InvalidReason) : Target :=
  { seq, targetKey := key, change := .invalid, error := some (.invalid reason) }

/-- The row of a planned target. A judged target's change is not known until its verdict. -/
def plannedRow [DecidableEq V] (judged : Bool) (seq : ℕ) : PlannedTarget V → Target
  | .invalid key reason => invalidTarget seq key reason
  | .valid key before after =>
    { seq
      targetKey := key
      change := if judged then .update else classifyChange D [] before after
      undo := some (undoFor before)
      before := some (D.json.imageText before)
      afterPlanned := some (D.json.valueText after) }

theorem plannedRow_seq [DecidableEq V] (judged : Bool) (seq : ℕ) (t : PlannedTarget V) :
    (plannedRow D judged seq t).seq = seq := by
  cases t <;> rfl

/-- Rows numbered from `start` on have distinct numbers. -/
theorem nodup_seq_mapIdx {α : Type} {f : ℕ → α → Target} (hf : ∀ n a, (f n a).seq = n)
    (xs : List α) (start : ℕ) :
    ((xs.mapIdx fun i a => f (start + i) a).map Target.seq).Nodup := by
  have hseq : (xs.mapIdx fun i a => f (start + i) a).map Target.seq =
      (List.range xs.length).map (start + ·) :=
    List.ext_getElem (by simp) fun i h₁ h₂ => by simp [hf]
  rw [hseq]
  exact List.nodup_range.map fun a b h => Nat.add_left_cancel h

namespace Ledger

/-- Insert a run under the cap and drop what the planner's cap drops. -/
def plan (L : Ledger) (r : Run) (principal : RequestPrincipal) : Except PlanRefusal Ledger :=
  match L.capRoomFor principal with
  | .error refusal => .error refusal
  | .ok own => .ok ((L.insertRun r).pruneUnapproved D principal own (some r.id))

/-- The run and targets of a dry run. -/
def dryRun [DecidableEq V] (p : DryRun V) : Run where
  id := p.id
  createdAt := p.createdAt
  createdBy := p.createdBy
  ruleHash := D.keyedHash <| rulePairs D p.targetSystem p.scope <| p.targets.map fun
    | .valid key _ after => (key, some after)
    | .invalid key _ => (key, none)
  targetSystem := p.targetSystem
  undo := runUndo <| p.targets.filterMap fun
    | .valid _ before _ => some (undoFor before)
    | .invalid .. => none
  phase := if p.judge.isSome then .planned else .previewed
  targetsTotal := p.targets.length
  haltReason := if p.judge.isSome then some .awaitingStart else none
  atomic := p.atomic
  targetCollection := p.targetCollection
  principal := some p.principal.tag
  mandateId := p.principal.grant
  judgeRule := p.judge
  judgeRuleHash := p.judge.map (judgeHash D)
  targets := p.targets.mapIdx (plannedRow D p.judge.isSome)
  seq_nodup := by simpa using nodup_seq_mapIdx (plannedRow_seq D p.judge.isSome) p.targets 0

/-- Record a dry run : the run `previewed` and every target with its images. -/
def recordDryRun [DecidableEq V] (L : Ledger) (p : DryRun V) : Except PlanRefusal Ledger :=
  if p.judge.isSome && p.targetSystem ≠ "data_store" then .error .judgedSystem
  else if !(p.targets.map PlannedTarget.key).Nodup then .error .sameTargetTwice
  else L.plan D (dryRun D p) p.principal

end Ledger

/-! ## External plans -/

/-- Whether an external run holds the read slot. -/
def Run.reading (r : Run) : Bool :=
  r.phase = .planned && r.haltReason.isNone && (externalHostOf r.targetSystem).isSome

/-- Whether a run's list is being read. -/
def Run.readingList (r : Run) : Bool :=
  r.phase = .planned && r.haltReason.isNone && r.listState = some .pending

/-- One target of an external plan : its after-state, or why it cannot be planned. -/
abbrev ExternalPlanned (V : Type) := String × Except InvalidReason V

structure ExternalPlan (V : Type) extends PlanParams where
  host : String
  targets : List (ExternalPlanned V)
  contract : String

structure ListPlan extends PlanParams where
  host : String
  source : String
  readContract : String

/-- A row whose before-image is still to be read. -/
def unreadTarget (seq : ℕ) (key afterText : String) : Target :=
  { seq, targetKey := key, change := .update, undo := some .restorable,
    afterPlanned := some afterText }

/-- The row of an external target : `update` until the preview reads it. -/
def externalRow (seq : ℕ) (t : ExternalPlanned V) : Target :=
  match t.2 with
  | .error reason => invalidTarget seq t.1 reason
  | .ok after => unreadTarget seq t.1 (D.json.valueText after)

theorem externalRow_seq (seq : ℕ) (t : ExternalPlanned V) : (externalRow D seq t).seq = seq := by
  unfold externalRow
  split <;> rfl

/-- One element of a page of a list. -/
inductive ListPageItem
  | target (key : String)
  | invalid (reason : InvalidReason)
  deriving DecidableEq, Repr

structure ListPage where
  page : ℕ
  items : List ListPageItem
  bytes : ℕ
  lastId : Option ℕ := none

def bulkMaxTargets : ℕ := 5000
def bulkMaxTotalBytes : ℕ := 32 * 1024 * 1024

/-- The elements of a page not seen before, in order, each under a key of its own. An element
without a usable id gets a key the engine makes. -/
def freshItems (page : ℕ) : List ListPageItem → ℕ → List String →
    List (String × Option InvalidReason) × List String
  | [], _, known => ([], known)
  | .invalid reason :: items, index, known =>
    let rest := freshItems page items (index + 1) known
    (("#" ++ toString page ++ "." ++ toString index, some reason) :: rest.1, rest.2)
  | .target key :: items, index, known =>
    if known.contains key then freshItems page items (index + 1) known
    else
      let rest := freshItems page items (index + 1) (key :: known)
      ((key, none) :: rest.1, rest.2)

/-- The row of a listed element. -/
def listedRow (afterText : String) (seq : ℕ) (t : String × Option InvalidReason) : Target :=
  match t.2 with
  | some reason => invalidTarget seq t.1 reason
  | none => unreadTarget seq t.1 afterText

/-- Append rows. A `seq` already taken appends nothing : it is the primary key. -/
def Run.appendTargets (rows : List Target) (r : Run) : Run :=
  if h : ((r.targets ++ rows).map Target.seq).Nodup then
    { r with targets := r.targets ++ rows, seq_nodup := h }
  else r

theorem Run.appendTargets_id (rows : List Target) (r : Run) :
    (r.appendTargets rows).id = r.id := by
  unfold appendTargets
  split <;> rfl

namespace Ledger

/-- Halt every external run that holds the read slot with no read trigger left. -/
def haltDeadReads (L : Ledger) (dead : String → Bool) : Ledger :=
  L.mapRuns <| RunEdit.under (fun r => r.reading && dead r.id)
    { apply := fun r => { r with haltReason := some .unavailable } }

/-- The run of an external plan : `planned`, and halted until the owner starts its read. -/
def externalRun (p : ExternalPlan V) : Run :=
  let valid := p.targets.any fun t => t.2.isOk
  { id := p.id
    createdAt := p.createdAt
    createdBy := p.createdBy
    ruleHash := D.keyedHash <| rulePairs D ("http:" ++ p.host) p.host <|
      p.targets.map fun t => (t.1, t.2.toOption)
    targetSystem := "http:" ++ p.host
    undo := if valid then .restorable else .none
    phase := if valid then .planned else .previewed
    contractJson := some p.contract
    targetsTotal := p.targets.length
    haltReason := if valid then some .awaitingStart else none
    atomic := false
    principal := some p.principal.tag
    mandateId := p.principal.grant
    judgeRule := p.judge
    judgeRuleHash := p.judge.map (judgeHash D)
    targets := p.targets.mapIdx (externalRow D)
    seq_nodup := by simpa using nodup_seq_mapIdx (externalRow_seq D) p.targets 0 }

/-- Record an external plan, unless another external run is reading. -/
def recordExternalPlan (L : Ledger) (dead : String → Bool) (p : ExternalPlan V) :
    Except PlanRefusal Ledger :=
  if !(p.targets.map Prod.fst).Nodup then .error .sameTargetTwice
  else
    let L := L.haltDeadReads dead
    if L.runs.any Run.reading then .error .externalInProgress
    else L.plan D (externalRun D p) p.principal

/-- The run of a list plan : no target yet, and halted until the owner starts its read. -/
def listRun (p : ListPlan) : Run where
  id := p.id
  createdAt := p.createdAt
  createdBy := p.createdBy
  ruleHash := D.keyedHash ["bulk-list-rule-v1", "http:" ++ p.host, p.source]
  targetSystem := "http:" ++ p.host
  undo := .restorable
  phase := .planned
  contractJson := some p.readContract
  targetsTotal := 0
  haltReason := some .awaitingStart
  atomic := false
  principal := some p.principal.tag
  mandateId := p.principal.grant
  listSource := some p.source
  listState := some .pending
  judgeRule := p.judge
  judgeRuleHash := p.judge.map (judgeHash D)
  targets := []
  seq_nodup := List.nodup_nil

def recordExternalListPlan (L : Ledger) (dead : String → Bool) (p : ListPlan) :
    Except PlanRefusal Ledger :=
  let L := L.haltDeadReads dead
  if L.runs.any Run.reading then .error .externalInProgress
  else L.plan D (listRun D p) p.principal

/-! ## Lists -/

/-- Count one request of a list read before it is sent, up to `limit`. -/
def takeListCall (L : Ledger) (runId : String) (limit : ℤ) : Ledger :=
  L.editRun runId <| RunEdit.under (fun r => r.readingList && r.listCalls < limit)
    { apply := fun r => { r with listCalls := r.listCalls + 1 } }

/-- Give back a request that was never sent. -/
def returnListCall (L : Ledger) (runId : String) : Ledger :=
  L.editRun runId { apply := fun r => { r with listCalls := r.listCalls - 1 } }

/-- What a target of the run may take, in bytes : a verdict's bound, or the after-state. -/
def perTarget (r : Run) (afterText : String) : ℕ :=
  match r.judgeRule with
  | some rule => D.judgeAfterBound rule
  | none => afterText.utf8ByteSize

/-- Record one page of a run's list, only as the page after the last one recorded. -/
def recordListPage (L : Ledger) (runId : String) (p : ListPage) : Ledger :=
  match L.runRow runId with
  | none => L
  | some r =>
    match r.listSource with
    | none => L
    | some source =>
      let afterText := D.json.valueText (D.listAfterOf source)
      let known := (r.targets.filter fun t => t.change ≠ .invalid).map Target.targetKey
      let fresh := freshItems p.page p.items 0 known.dedup
      let total := r.targetsTotal + fresh.1.length
      if !r.readingList || r.listPage + 1 ≠ p.page || bulkMaxTargets < total ||
          bulkMaxTotalBytes < fresh.2.length * perTarget D r afterText then L
      else
        L.editRun runId
          { apply := fun r =>
              { r.appendTargets
                  (fresh.1.mapIdx fun i t => listedRow afterText (r.targetsTotal + i) t) with
                listPage := p.page
                listBytes := r.listBytes + p.bytes
                targetsTotal := total
                listLastId := p.lastId.getD r.listLastId }
            keeps := fun r => r.appendTargets_id _ }

/-- The (key, after) pairs of a run's rows; a row that cannot be written has no after. -/
def rowPairs (r : Run) : List (String × Option V) :=
  r.targets.map fun t =>
    (t.targetKey, if t.change = .invalid then none else t.afterPlanned.map D.json.valueOf)

/-- Close the read of a run's list : its write contract and its rule over the keys known. -/
def finishList (L : Ledger) (runId : String) (mint : List String → String) : Ledger :=
  match L.runRow runId with
  | none => L
  | some r =>
    match externalHostOf r.targetSystem with
    | none => L
    | some host =>
      let pairs := rowPairs D r
      let keys := (pairs.filter fun p => p.2.isSome).map Prod.fst
      if !r.readingList then L
      else
        L.editRun runId
          { apply := fun r =>
              { r with
                contractJson := some (mint keys)
                ruleHash := D.keyedHash (rulePairs D r.targetSystem host pairs)
                listState := some .done
                phase := if keys.isEmpty then .previewed else .planned
                undo := if keys.isEmpty then .none else .restorable
                haltReason := if keys.isEmpty then none else some .listed } }

/-! ## Ended planners -/

end Ledger

/-- Who still stands behind a run : live mandates, and who started a conversation. -/
structure BulkOwnership where
  isLive : String → Bool
  threadCreator : String → Option String
  threadsKnown : Bool
  /-- Whether a run was planned before mandates were kept out of the owner's conversations. -/
  beforeOwnerThreads : Time → Bool

/-- Whether the planner of an unapproved run no longer stands behind it. -/
def plannerHasEnded (own : BulkOwnership) (r : Run) : Bool :=
  match r.principal with
  | some tag =>
    if tag = RequestPrincipal.owner.tag then false
    else !isMandateTag tag || r.mandateId.all fun m => !own.isLive m
  | none =>
    match r.createdBy with
    | none => true
    | some thread => own.beforeOwnerThreads r.createdAt ||
        own.threadCreator thread ≠ some RequestPrincipal.owner.tag

/-- A run before its approval. -/
def Run.unapproved (r : Run) : Bool :=
  r.phase = .planned || r.phase = .previewed

namespace Ledger

/-- End an unapproved run. -/
def endPlannedRun (L : Ledger) (runId : String) : Ledger :=
  L.editRun runId <| RunEdit.under Run.unapproved
    { apply := fun r => { r with phase := .aborted, haltReason := some .mandateEnded } }

/-- End every unapproved run whose planner has ended. -/
def expireEndedPlanners (L : Ledger) (own : BulkOwnership) : Ledger :=
  L.mapRuns <| RunEdit.under
    (fun r => r.unapproved && (r.principal.isSome || own.threadsKnown) && plannerHasEnded own r)
    { apply := fun r => { r with phase := .aborted, haltReason := some .mandateEnded } }

/-- End one run whose planner has ended. -/
def endIfPlannerEnded (L : Ledger) (runId : String) (own : BulkOwnership) : Ledger :=
  match L.runRow runId with
  | none => L
  | some r =>
    if plannerHasEnded own r && (r.principal.isSome || own.threadsKnown) then
      L.endPlannedRun runId
    else L

end Ledger

end Lynox.Bulk
