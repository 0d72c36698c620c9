import Lynox.Bulk.Plan
import Lynox.Bulk.Records

/-!
# Approving, resuming and undoing a run

What the owner's routes do to the ledger : take a target out of a previewed run, approve it,
resume it, confirm its probe, and plan its undo.

A run, its undos and theirs are one family, linked by `sourceRunId`. `openInFamily` walks up
to the first run of the chain and down over every run reached from it; `writeBlocked`
refuses an approval or a resume while another run of the family may write, and an undo whose
plan misses what its source has written since.

`planUndo` is a new run over what the source applied and nobody took back, newest first,
with the two images of each target swapped.
-/

namespace Lynox.Bulk

variable {V : Type} (D : Deps V)

/-! ## Families -/

namespace Ledger

/-- The run a run was planned to take back. -/
def sourceOf (L : Ledger) (id : String) : Option String :=
  (L.runRow id).bind Run.sourceRunId

/-- Follow `sourceRunId` up from `root`, not into an id already seen. -/
def rootOf (L : Ledger) : ℕ → List String → String → String
  | 0, _, root => root
  | fuel + 1, seen, root =>
    match L.sourceOf root with
    | none => root
    | some up => if up ∈ root :: seen then root else L.rootOf fuel (root :: seen) up

/-- The ids one step further down. -/
def familyStep (L : Ledger) (ids : List String) : List String :=
  ids ++ (L.runs.filter fun r => r.sourceRunId.any ids.contains && !ids.contains r.id).map Run.id

/-- Every id reached from `root` by following `sourceRunId` down. -/
def familyUnder (L : Ledger) (root : String) : List String :=
  L.familyStep^[L.runs.length] [root]

/-- A run of `runId`'s family, other than `except`, that may write. -/
def openInFamily (L : Ledger) (runId : String) (exceptRunId : Option String) : Option String :=
  let family := L.familyUnder (L.rootOf (L.runs.length + 1) [] runId)
  (L.runs.find? fun r => family.contains r.id && r.mayWrite && some r.id ≠ exceptRunId).map Run.id

end Ledger

/-! ## Selecting targets -/

inductive SelectRefusal
  | notFound | wrongPhase | atomicUndo | checksum | notWriting
  deriving DecidableEq, Repr

/-- Whether a selection moves a target : a change that writes, not already where it goes. -/
def TargetEdit.moves (selected : Bool) (t : Target) : Bool :=
  t.change.writes && if selected then t.deselectedAt.isSome else t.deselectedAt.isNone

def TargetEdit.selected (selected : Bool) (now : Time) : TargetEdit :=
  TargetEdit.under (moves selected)
    { apply := fun t => { t with deselectedAt := if selected then none else some now } }

namespace Ledger

/-- Take one target out of a previewed run, or put it back. -/
def setSelected (L : Ledger) (runId : String) (seq : ℕ) (selected : Bool) (checksum : String)
    (now : Time) : Except SelectRefusal Ledger :=
  match L.runRow runId with
  | none => .error .notFound
  | some run =>
    if run.phase ≠ .previewed then .error .wrongPhase
    else if run.kind = .undo && run.atomic then .error .atomicUndo
    else if some checksum ≠ L.computeChecksum D runId then .error .checksum
    else if (run.target? seq).any (TargetEdit.moves selected) then
      .ok (L.editTarget runId seq (.selected selected now))
    else .error .notWriting

end Ledger

/-! ## Approving and resuming -/

/-- Why a run may not start writing because of an undo. -/
inductive UndoRefusal
  | undoOpen | sourceRunning | undoStale
  deriving DecidableEq, Repr

/-- Where an approved run stands towards a probe of its own. -/
inductive ProbeStep
  | writeOne | confirm | tooMany | alreadyFirst
  deriving DecidableEq, Repr

inductive ApprovalRefusal
  | notFound | wrongPhase | shopifyOff | mailApi | checksum | unmeasuredUnconfirmed
  | nothingToApply | badMaxTargets
  | probeRequired (missing : List (String × ProbeCause)) (step : Option ProbeStep)
  | undo (refusal : UndoRefusal)
  deriving DecidableEq, Repr

def bulkApprovalSlackMs : Time := 15 * 60000
def bulkApprovalMaxMs : Time := 24 * 60 * 60000

/-- The end of an approval's window. -/
def approvalWindow (writing : ℕ) (now : Time) : Time :=
  now + min (writing * 5000 + bulkApprovalSlackMs) bulkApprovalMaxMs

structure ApproveParams where
  checksum : String
  approvedBy : Option String := none
  maxTargets : Option ℕ := none
  unmeasuredConfirmed : Bool := false
  now : Time := 0
  shopifyBulkReadEnabled : Bool := true

structure ResumeParams where
  checksum : String
  maxTargets : Option ℕ := none
  now : Time := 0
  shopifyBulkReadEnabled : Bool := true

/-! ## Probes -/

/-- The target a confirmation would take as the run's probe. -/
structure ProbeCandidate where
  host : String
  method : String
  key : String
  form : Option ShopifyWriteForm
  found : Bool

namespace Ledger

/-- An external apply run that stopped with exactly one applied target, written, or sent to
without a clear answer and then found as planned. -/
def probeCandidate (L : Ledger) (run : Run) : Option ProbeCandidate :=
  let form := L.shopifyFormOfRun D run
  let method := match form with
    | some _ => some shopifyProbeMethod
    | none => D.contractMethods run
  match externalHostOf run.targetSystem, method with
  | some host, some method =>
    let stopped := run.phase = .done || (run.phase = .writing && run.haltReason.isSome)
    match run.targets.filter fun t => t.appliedAt.isSome && !t.foundUnsent with
    | [only] =>
      if run.kind = .apply && stopped &&
          (only.result = some "written" ||
            (only.result = some "already" && 0 < only.unknownSends)) then
        some ⟨host, method, only.targetKey, form, only.result = some "already"⟩
      else none
    | _ => none
  | _, _ => none

/-- The kind a confirmation is filed under; none for a key that is not a URL. -/
def probeRowKind (c : ProbeCandidate) (runId : String) : Option String :=
  match c.form with
  | some form => some (unmeasuredProbeKind runId form.text)
  | none =>
    (D.pathnameOf c.key).map fun path =>
      if D.isMeasuredWriteForm c.host path c.method then resourceKindOf path
      else unmeasuredProbeKind runId (resourceKindOf path)

/-- Whether this run already holds the row a confirmation would file. -/
def probeFiled (L : Ledger) (c : ProbeCandidate) (runId kind : String) : Bool :=
  let own := unmeasuredProbe ++ runId ++ ":"
  if own.toList.isPrefixOf kind.toList then
    L.unmeasuredProbeOfOwn c.host c.method
      (String.ofList (kind.toList.drop own.toList.length)) runId
  else
    L.probes.any fun p => p.host = c.host && p.method = c.method && p.kind = kind &&
      p.runId = runId

/-- Where an approved run stands, from its applied targets. -/
def probeStep (L : Ledger) (run : Run) : Option ProbeStep :=
  if run.phase ≠ .approved && run.phase ≠ .writing then none
  else
    match run.targets.filter fun t => t.appliedAt.isSome && !t.foundUnsent with
    | [] => if run.sentCount = 0 then some .writeOne else none
    | [only] =>
      match L.probeCandidate D run with
      | some c =>
        match probeRowKind D c run.id with
        | none => none
        | some kind => if L.probeFiled c run.id kind then none else some .confirm
      | none => if only.result = some "already" then some .alreadyFirst else none
    | _ => some .tooMany

/-- The owner confirms a probe : one row a host, verb and kind. -/
def confirmProbe (L : Ledger) (runId : String) (confirmedBy : Option String) (now : Time) :
    Ledger :=
  match (L.runRow runId).bind (L.probeCandidate D) with
  | none => L
  | some c =>
    match probeRowKind D c runId with
    | none => L
    | some kind =>
      { L with
        probes := (L.probes.filter fun p =>
            !(p.host = c.host && p.method = c.method && p.kind = kind)) ++
          [⟨c.host, c.method, kind, runId, confirmedBy, now⟩] }

/-! ## Moves of the phase -/

/-- Why a run may not be approved or resumed now. -/
def writeBlocked (L : Ledger) (run : Run) : Option UndoRefusal :=
  match L.openInFamily run.id (some run.id) with
  | some other => some (if some other = run.sourceRunId then .sourceRunning else .undoOpen)
  | none =>
    match run.kind, run.sourceRunId.bind L.runRow with
    | .undo, some src =>
      if src.phase = .undone then some .undoStale
      else
        let taken := run.targets.filterMap Target.sourceSeq
        let external := (externalHostOf src.targetSystem).isSome
        if src.targets.any fun t => t.undoEligible external && !taken.contains t.seq then
          some .undoStale
        else none
    | _, _ => none

end Ledger

/-- Approved under a maximum, for a window. -/
def RunEdit.approved (p : ApproveParams) (writing maxTargets : ℕ) : RunEdit where
  apply r :=
    { r with
      phase := .approved
      approvedBy := p.approvedBy
      approvedAt := some p.now
      approvalChecksum := some p.checksum
      maxTargets := some maxTargets
      expiresAt := some (approvalWindow writing p.now)
      haltReason := none }

/-- The targets a resume tries again : failed, and neither on what they would send nor left
out when planned. -/
def TargetEdit.retried (t : Target) : Bool :=
  t.appliedAt.isNone && t.error.isSome && t.error ≠ some (.target .secret) && t.change ≠ .invalid

def TargetEdit.retry : TargetEdit :=
  TargetEdit.under retried { apply := fun t => { t with error := none, claimedAt := none } }

/-- Open again, with its failed targets to try again. -/
def RunEdit.resumed (p : ResumeParams) (writing : ℕ) (maxTargets : Option ℕ) : RunEdit where
  apply r :=
    { r.mapTargets .retry with
      haltReason := none
      expiresAt := some (approvalWindow writing p.now)
      targetsFailed := 0
      maxTargets := maxTargets }

namespace Ledger

/-- Approve a previewed run. -/
def approve (L : Ledger) (runId : String) (p : ApproveParams) : Except ApprovalRefusal Ledger :=
  match L.runRow runId with
  | none => .error .notFound
  | some run =>
    let writing := run.countWriting
    let maxTargets := p.maxTargets.getD writing
    let coverage := L.probeCoverage D run
    if run.phase ≠ .previewed || run.listState = some .pending then .error .wrongPhase
    else if L.isShopifyRunSwitchedOff D p.shopifyBulkReadEnabled run then .error .shopifyOff
    else if contractWritesMail D run then .error .mailApi
    else if some p.checksum ≠ L.computeChecksum D runId then .error .checksum
    else if run.kind = .apply && L.writeFormOfRun D run = some .unmeasured &&
        !p.unmeasuredConfirmed then .error .unmeasuredUnconfirmed
    else if writing = 0 then .error .nothingToApply
    else if maxTargets < 1 || writing < maxTargets then .error .badMaxTargets
    else if 1 < maxTargets && !coverage.1 then .error (.probeRequired coverage.2 none)
    else if run.atomic && maxTargets ≠ writing then .error .badMaxTargets
    else
      match L.writeBlocked run with
      | some refusal => .error (.undo refusal)
      | none =>
        .ok (L.editRun runId (.approved p writing maxTargets))

/-- Resume an approved run that stopped. -/
def resume (L : Ledger) (runId : String) (p : ResumeParams) : Except ApprovalRefusal Ledger :=
  match L.runRow runId with
  | none => .error .notFound
  | some run =>
    let writing := run.countWriting
    let maxTargets := p.maxTargets.or run.maxTargets
    let coverage := L.probeCoverage D run
    if run.phase ≠ .approved && run.phase ≠ .writing then .error .wrongPhase
    else if L.isShopifyRunSwitchedOff D p.shopifyBulkReadEnabled run then .error .shopifyOff
    else if contractWritesMail D run then .error .mailApi
    else if some p.checksum ≠ run.approvalChecksum ||
        some p.checksum ≠ L.computeChecksum D runId then .error .checksum
    else if p.maxTargets.any fun n => n < 1 || writing < n || (run.atomic && n ≠ writing) then
      .error .badMaxTargets
    else if 1 < maxTargets.getD writing && !coverage.1 then
      .error (.probeRequired coverage.2 (L.probeStep D run))
    else
      match L.writeBlocked run with
      | some refusal => .error (.undo refusal)
      | none =>
        .ok (L.editRun runId (.resumed p writing maxTargets))

end Ledger

/-! ## Undos -/

inductive UndoPlanRefusal
  | notFound | mailApi | notUndoable | undoOpen | atomicPartial | nothingToUndo
  deriving DecidableEq, Repr

/-- The before-image an external undo writes, cut to the fields its source sent. -/
def onlySentFields (before sent : Image V) : Image V :=
  match before, sent with
  | .value b, .value s =>
    match D.fields b, D.fields s with
    | some bs, some ss => .value (D.object (bs.filter fun m => (ss.map Prod.fst).contains m.1))
    | _, _ => before
  | _, _ => before

/-- What an undo does to a target, from the state it expects and the state it restores. -/
def undoChange : (expected after : Image V) → Change
  | _, .absent => .delete
  | .absent, .value _ => .create
  | .value _, .value _ => .update

/-- Whether a kept value holds, in an HTML field, what an undo would restore. -/
def keepsMarkup (htmlFields : List String) (restored kept : V) : Bool :=
  match D.fields restored, D.fields kept with
  | some rs, some ks =>
    htmlFields.any fun f =>
      match (rs.lookup f).bind D.text, (ks.lookup f).bind D.text with
      | some a, some k => D.htmlEqual a k
      | _, _ => false
  | _, _ => false

/-- Whether an undo's after-state restores a value some write of the family read back with
markup it never sent, read up the chain. A chain the walk cannot finish counts. -/
def Ledger.restoresShopAddedMarkup (L : Ledger) (htmlFields : List String) (restored : V) :
    ℕ → (first : Bool) → String → ℕ → Bool
  | 0, _, _, _ => true
  | depth + 1, first, runId, seq =>
    match L.runRow runId, L.row runId seq with
    | some r, some t =>
      let kept := t.afterActual.any fun text =>
        !first && t.shopAddedMarkup && keepsMarkup D htmlFields restored (D.json.actualOf text).value
      if kept then true
      else
        match r.sourceRunId, t.sourceSeq with
        | some up, some s => L.restoresShopAddedMarkup htmlFields restored depth false up s
        | _, _ => false
    | _, _ => true

/-- One target of an undo as planned. -/
structure UndoTarget (V : Type) where
  key : String
  sourceSeq : ℕ
  expected : Image V
  after : Image V
  change : Change
  read : Option AttachedConnection
  tainted : Bool

/-- The connection both images of an undo target were read under. A side left empty on an
external target is unknown, not absent. -/
def mergedSides (external : Bool) (t : Target) : Option AttachedConnection :=
  let sides := [t.readConnectionId.map fun id => ⟨id, t.readGrantId⟩,
    t.writeConnectionId.map fun id => AttachedConnection.mk id t.writeGrantId]
  (mergeConnections sides).map fun m =>
    if external && sides.contains none then ⟨m.id, none⟩ else m

namespace Ledger

/-- The undo of one target : its images swapped, an external one over what the host kept and
cut to the fields sent. -/
def undoTarget (L : Ledger) (src : Run) (htmlFields : List String) (t : Target) : UndoTarget V :=
  let external := (externalHostOf src.targetSystem).isSome
  let expected := match t.afterActual with
    | none => t.after D.json
    | some text => .value (D.json.actualOf text).value
  let after := if external then onlySentFields D (t.expected D.json) (t.after D.json)
    else t.expected D.json
  { key := t.targetKey
    sourceSeq := t.seq
    expected
    after
    change := undoChange expected after
    read := mergedSides external t
    tainted := !htmlFields.isEmpty && match after with
      | .absent => false
      | .value v => (D.fields v).isSome &&
          L.restoresShopAddedMarkup D htmlFields v 65 true src.id t.seq }

/-- The row of an undo target; one that would restore added markup is left out. -/
def undoRow (seq : ℕ) (u : UndoTarget V) : Target :=
  if u.tainted then
    { invalidTarget seq u.key .shopAddedMarkup with sourceSeq := some u.sourceSeq }
  else
    { seq
      targetKey := u.key
      change := u.change
      undo := some (undoFor u.expected)
      before := some (D.json.imageText u.expected)
      afterPlanned := match u.after with
        | .absent => none
        | .value v => some (D.json.valueText v)
      sourceSeq := some u.sourceSeq
      readConnectionId := u.read.map AttachedConnection.id
      readGrantId := u.read.bind AttachedConnection.grantId }

theorem undoRow_seq (seq : ℕ) (u : UndoTarget V) : (undoRow D seq u).seq = seq := by
  unfold undoRow
  split <;> rfl

/-- What an undo of a source takes back, newest first. -/
def undoTargets (L : Ledger) (src : Run) : List (UndoTarget V) :=
  let external := (externalHostOf src.targetSystem).isSome
  ((src.targets.filter (Target.undoEligible external)).reverse).map
    (L.undoTarget D src (L.htmlFieldsOf D src))

/-- The run of an undo. -/
def undoRun (L : Ledger) (src : Run) (id : String) (createdAt : Time)
    (createdBy : Option String) : Run :=
  let planned := L.undoTargets D src
  { id
    createdAt
    createdBy
    ruleHash := D.keyedHash <| "undo" :: src.id ::
      planned.flatMap fun u => [toString u.sourceSeq, u.key]
    targetSystem := src.targetSystem
    undo := runUndo (planned.map fun u => undoFor u.expected)
    phase := .previewed
    contractJson := src.contractJson
    targetsTotal := planned.length
    atomic := src.atomic
    kind := .undo
    sourceRunId := some src.id
    targetCollection := src.targetCollection
    principal := some RequestPrincipal.owner.tag
    mandateId := RequestPrincipal.owner.grant
    targets := planned.mapIdx (undoRow D)
    seq_nodup := by simpa using nodup_seq_mapIdx (undoRow_seq D) planned 0 }

/-- Plan the undo of a run. An atomic run is taken back whole or not at all. -/
def planUndo (L : Ledger) (sourceRunId id : String) (createdAt : Time)
    (createdBy : Option String) : Except UndoPlanRefusal Ledger :=
  match L.runRow sourceRunId with
  | none => .error .notFound
  | some src =>
    let partly := src.targets.any fun t =>
      t.writing && (t.appliedAt.isNone || t.undoneAt.isSome)
    if contractWritesMail D src then .error .mailApi
    else if !src.isStopped then .error .notUndoable
    else if (L.openInFamily sourceRunId none).isSome then .error .undoOpen
    else if src.atomic && (src.phase ≠ .done || partly) then .error .atomicPartial
    else if (L.undoTargets D src).isEmpty then .error .nothingToUndo
    else
      .ok ((L.insertRun (L.undoRun D src id createdAt createdBy)).pruneUnapproved D .owner 0 none)

end Ledger

/-! ## What an operation that succeeded says -/

namespace Ledger

variable {D} {L L' : Ledger} {runId : String}

theorem setSelected_ok {seq : ℕ} {selected : Bool} {checksum : String} {now : Time}
    (h : L.setSelected D runId seq selected checksum now = .ok L') :
    ∃ run, L.runRow runId = some run ∧ run.phase = .previewed ∧
      ¬ (run.kind = .undo ∧ run.atomic = true) ∧
      L' = L.editTarget runId seq (.selected selected now) := by
  unfold setSelected at h
  split at h
  · cases h
  · next run hrun =>
    split_ifs at h with h₁ h₂ h₃ h₄
    exact ⟨run, hrun, not_not.mp h₁, by simpa using h₂, (Except.ok.inj h).symm⟩

theorem approve_ok {p : ApproveParams} (h : L.approve D runId p = .ok L') :
    ∃ run, L.runRow runId = some run ∧ run.phase = .previewed ∧
      some p.checksum = L.computeChecksum D runId ∧
      (run.atomic = true → p.maxTargets.getD run.countWriting = run.countWriting) ∧
      L.writeBlocked run = none ∧
      L' = L.editRun runId
        (.approved p run.countWriting (p.maxTargets.getD run.countWriting)) := by
  unfold approve at h
  split at h
  · cases h
  · next run hrun =>
    dsimp only at h
    split_ifs at h with h₁ h₂ h₃ h₄ h₅ h₆ h₇ h₈ h₉
    split at h
    · cases h
    · next hblocked =>
      refine ⟨run, hrun, ?_, not_not.mp h₄, ?_, hblocked, (Except.ok.inj h).symm⟩
      · simp only [Bool.or_eq_true, decide_eq_true_eq, not_or, not_not] at h₁
        exact h₁.1
      · simpa using h₉

theorem resume_ok {p : ResumeParams} (h : L.resume D runId p = .ok L') :
    ∃ run, L.runRow runId = some run ∧ (run.phase = .approved ∨ run.phase = .writing) ∧
      some p.checksum = run.approvalChecksum ∧ L.writeBlocked run = none ∧
      L' = L.editRun runId (.resumed p run.countWriting (p.maxTargets.or run.maxTargets)) := by
  unfold resume at h
  split at h
  · cases h
  · next run hrun =>
    dsimp only at h
    split_ifs at h with h₁ h₂ h₃ h₄ h₅ h₆
    split at h
    · cases h
    · next hblocked =>
      refine ⟨run, hrun, ?_, ?_, hblocked, (Except.ok.inj h).symm⟩
      · simp only [Bool.and_eq_true, decide_eq_true_eq, not_and, not_not] at h₁
        exact Classical.or_iff_not_imp_left.mpr h₁
      · simp only [Bool.or_eq_true, decide_eq_true_eq, not_or, not_not] at h₄
        exact h₄.1

theorem planUndo_ok {sourceRunId id : String} {createdAt : Time} {createdBy : Option String}
    (h : L.planUndo D sourceRunId id createdAt createdBy = .ok L') :
    ∃ src, L.runRow sourceRunId = some src ∧ src.isStopped = true ∧
      L.openInFamily sourceRunId none = none ∧
      (src.atomic = true → src.phase = .done ∧ ∀ t ∈ src.targets, t.writing = true →
        t.appliedAt.isSome = true ∧ t.undoneAt = none) ∧
      L.undoTargets D src ≠ [] ∧
      L' = (L.insertRun (L.undoRun D src id createdAt createdBy)).pruneUnapproved D .owner 0
        none := by
  unfold planUndo at h
  split at h
  · cases h
  · next src hsrc =>
    dsimp only at h
    split_ifs at h with h₁ h₂ h₃ h₄ h₅
    refine ⟨src, hsrc, by simpa using h₂, by simpa using h₃, ?_, by simpa using h₅,
      (Except.ok.inj h).symm⟩
    intro hatomic
    simp only [hatomic, Bool.true_and, Bool.or_eq_true, decide_eq_true_eq, not_or, not_not,
      List.any_eq_true, Bool.and_eq_true, not_exists, not_and, Option.isNone_iff_eq_none] at h₄
    refine ⟨h₄.1, fun t ht hwriting => ?_⟩
    obtain ⟨happlied, hundone⟩ := h₄.2 t ht hwriting
    exact ⟨by simpa [Option.isSome_iff_ne_none] using happlied, by simpa using hundone⟩

end Ledger

end Lynox.Bulk
