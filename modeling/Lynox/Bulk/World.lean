import Lynox.Bulk.Effect
import Lynox.Bulk.Approval

/-!
# Passes over a ledger and a store

A `World` is the ledger, the store of local targets, and the trace of what the passes did,
newest first. `perform` answers one operation of a pass and says what it does to the world;
what the surroundings decide (the clock, a throw, a host's answer) is a `Choice`. A write
that throws may have landed all the same.

`bulkSystem` runs passes of `runBulkEffect`, one at a time, with the owner's operations and
foreign writes between any two of their steps. A pass entered again after a death starts
over from the ledger it finds.

A pass sees its own run's row and the trace (`seen`). `runRow_call` says what each of its
writes does to that row; together with `seen_perform` it is all the guards of the effect
need to know about the world.
-/

namespace Lynox.Bulk

variable {V : Type}

/-! ## Worlds -/

/-- What a pass did. -/
inductive Event (V : Type)
  | entered (run : String)
  | returned (run : String)
  | died (run : String)
  | capped (run : String) (cap : Option ℕ)
  | read (tag : Tag) (place : Place) (found : Option (Found V))
  | wrote (tag : Tag) (place : Place) (held image : Image V) (landed succeeded : Bool)
  | marked (run : String) (seq : ℕ)
  | sent (run : String) (seq : ℕ)
  | refused (run : String) (seq : ℕ)
  | applied (run : String) (seq : ℕ)
  | failed (run : String) (seq : ℕ)
  | settled (run : String) (seq : ℕ)
  | rolledBack (run : String) (seq : ℕ)
  | aborted (run : String) (reason : HaltReason)
  | finished (run : String)
  deriving DecidableEq, Repr

structure World (V : Type) where
  ledger : Ledger
  store : Place → Image V
  trace : List (Event V) := []

def World.push (w : World V) (e : Event V) : World V :=
  { w with trace := e :: w.trace }

/-- A key that no longer names a target the run can compare. -/
inductive Strange
  | pathChanged | foreign
  deriving DecidableEq, Repr

def Strange.found : Strange → Found V
  | .pathChanged => .pathChanged
  | .foreign => .foreign

/-- What the surroundings decide for one operation. -/
structure Choice (V : Type) where
  now : Time := 0
  ownerStopped : Bool := false
  shopifyBulkReadEnabled : Bool := true
  available : Bool := true
  trail : TrailAnswer := .noTrail
  carried : Option AttachedConnection := none
  /-- The operation on the store throws. -/
  throws : Bool := false
  /-- A write that throws has landed all the same. -/
  lands : Bool := false
  /-- A read finds no image. -/
  strange : Option Strange := none
  result : String := "written"
  got : ExternalRead V := .host .failed
  unsent : Option Unsent := none
  answer : HostAnswer V := .failed

/-! ## The writes of the effect -/

variable (D : Deps V)

namespace EffectCall

/-- What a write does to the ledger. -/
def perform (L : Ledger) : EffectCall V → Ledger
  | .releaseClaim runId seq => L.releaseClaim runId seq
  | .markSent runId seq via => L.markSent runId seq via
  | .markRefused runId seq => L.markRefused runId seq
  | .recordApplied run seq result now actual via shopAddedMarkup hostRewrote =>
    L.recordApplied D run seq result now actual via shopAddedMarkup hostRewrote
  | .recordFailed runId seq error via => L.recordFailed runId seq error via
  | .recordUnrecordedSettled runId seq now => L.recordUnrecordedSettled runId seq now
  | .recordRolledBack run seq now => L.recordRolledBack run seq now
  | .setWriting runId => L.setPhase runId [.approved] .writing none
  | .setAborted runId reason => L.setPhase runId [.writing] .aborted (some reason)
  | .halt runId reason => L.halt runId reason
  | .finish run => L.finish run

/-- What a write leaves in the trace. -/
def event : EffectCall V → Option (Event V)
  | .markSent runId seq _ => some (.marked runId seq)
  | .markRefused runId seq => some (.refused runId seq)
  | .recordApplied run seq .. => some (.applied run.id seq)
  | .recordFailed runId seq .. => some (.failed runId seq)
  | .recordUnrecordedSettled runId seq _ => some (.settled runId seq)
  | .recordRolledBack run seq _ => some (.rolledBack run.id seq)
  | .setAborted runId reason => some (.aborted runId reason)
  | .finish run => some (.finished run.id)
  | .releaseClaim .. | .setWriting _ | .halt .. => none

/-- The run a write is about. -/
def runId : EffectCall V → String
  | .releaseClaim runId _ | .markSent runId .. | .markRefused runId _ => runId
  | .recordApplied run .. | .recordRolledBack run .. | .finish run => run.id
  | .recordFailed runId .. | .recordUnrecordedSettled runId .. => runId
  | .setWriting runId | .setAborted runId _ | .halt runId _ => runId

end EffectCall

/-! ## Operations -/

/-- What one operation of a pass answers, and what it does to the world. -/
def perform (w : World V) (o : EffectOp V) (c : Choice V) : o.Ans × World V :=
  match o with
  | .ledger => (w.ledger, w)
  | .call call =>
    ((), { w with
      ledger := call.perform D w.ledger
      trace := call.event.toList ++ w.trace })
  | .claimTarget runId seq now =>
    let claimed := w.ledger.claimTarget D runId seq now
    (claimed.1, { w with ledger := claimed.2 })
  | .probeHoldsFor runId =>
    let holds := w.ledger.probeHoldsFor D runId
    (holds, w.push (.capped runId
      (bulkWriteCap ((w.ledger.runRow runId).bind Run.maxTargets) holds)))
  | .now => (c.now, w)
  | .yieldToLoop | .sleep _ | .trailEnd .. => ((), w)
  | .ownerStopped => (c.ownerStopped, w)
  | .shopifyBulkReadEnabled => (c.shopifyBulkReadEnabled, w)
  | .writerAvailable _ => (c.available, w)
  | .trailBegin _ => (c.trail, w)
  | .carried => (c.carried, w)
  | .read tag place =>
    if c.throws then (.error (), w.push (.read tag place none))
    else
      let found := (c.strange.map Strange.found).getD (.image (w.store place))
      (.ok found, w.push (.read tag place (some found)))
  | .write tag place image =>
    let landed := !c.throws || c.lands
    (if c.throws then .error () else .ok c.result,
      { w with
        store := fun p => if landed && p = place then image else w.store p
        trace := .wrote tag place (w.store place) image landed (!c.throws) :: w.trace })
  | .get _ => (c.got, w)
  | .preSend _ => (c.unsent, w)
  | .send tag _ _ => (c.answer, w.push (.sent tag.run tag.seq))

/-! ## The system -/

/-- A pass : the run, and the effect its trigger names. -/
structure Pass where
  run : String
  effect : RunKind
  deriving DecidableEq, Repr

/-- What others do : the owner's operations, and foreign writes to the store. -/
inductive Outside (V : Type)
  | select (runId : String) (seq : ℕ) (selected : Bool) (checksum : String) (now : Time)
  | approve (runId : String) (p : ApproveParams)
  | resume (runId : String) (p : ResumeParams)
  | planUndo (sourceRunId id : String) (createdAt : Time) (createdBy : Option String)
  | confirmProbe (runId : String) (confirmedBy : Option String) (now : Time)
  | foreign (place : Place) (image : Image V)

/-- A refused operation leaves the ledger as it was. -/
def Ledger.orElse {ε : Type} (L : Ledger) : Except ε Ledger → Ledger
  | .ok L' => L'
  | .error _ => L

/-- What a step of others does to the world. -/
def Outside.perform (w : World V) : Outside V → World V
  | .select runId seq selected checksum now =>
    { w with ledger := w.ledger.orElse (w.ledger.setSelected D runId seq selected checksum now) }
  | .approve runId p => { w with ledger := w.ledger.orElse (w.ledger.approve D runId p) }
  | .resume runId p => { w with ledger := w.ledger.orElse (w.ledger.resume D runId p) }
  | .planUndo sourceRunId id createdAt createdBy =>
    { w with ledger := w.ledger.orElse (w.ledger.planUndo D sourceRunId id createdAt createdBy) }
  | .confirmProbe runId confirmedBy now =>
    { w with ledger := w.ledger.confirmProbe D runId confirmedBy now }
  | .foreign place image =>
    { w with store := fun p => if p = place then image else w.store p }

variable [DecidableEq V]

/-- Passes of the effect over the ledger and the store, one at a time. -/
def bulkSystem : System (EffectOp V) EffectOp.Ans (World V) (Choice V) (Outside V) Pass Outcome where
  perform := perform D
  program p := runBulkEffect D p.run p.effect
  entered p w := w.push (.entered p.run)
  returned p _ w := w.push (.returned p.run)
  died p w := w.push (.died p.run)
  outside := fun e w => e.perform D w

/-! ## A plain instance -/

/-- Values are two flags, every text hashes alike, and nothing is HTML. -/
def plainDeps : Deps Bool where
  json :=
    { imageText := fun | .absent => "absent" | .value true => "true" | .value false => "false"
      imageOf := fun s => if s = "absent" then .absent else .value (s = "true")
      valueText := fun | true => "true" | false => "false"
      valueOf := fun s => s = "true"
      actualText := fun a =>
        match a.value, a.estimated with
        | true, true => "true, estimated"
        | true, false => "true"
        | false, true => "false, estimated"
        | false, false => "false"
      actualOf := fun s =>
        ⟨s = "true" || s = "true, estimated", s = "true, estimated" || s = "false, estimated"⟩
      imageOf_imageText := by rintro (_ | _ | _) <;> decide
      valueOf_valueText := by rintro (_ | _) <;> decide
      actualOf_actualText := by rintro ⟨_ | _, _ | _⟩ <;> decide }
  keyedHash := fun _ => "hash"
  isoBefore := fun a b => a < b
  textBefore := fun _ _ => false
  fields := fun _ => some []
  object := fun _ => false
  text := fun _ => none
  ofText := fun _ => false
  canonicalJson := fun | true => "true" | false => "false"
  canonicalHtml := fun s => s
  htmlEqual := fun a b => a = b
  endsClosed := fun _ => true
  droppedTagsOf := fun _ => []
  shopifySavedForm := fun v _ => v
  shopifyPairedAfter := fun _ after => after
  beforeOverFields := fun v _ => some v
  titleOf := fun _ => none
  readBack := fun _ _ => .kept
  isMailProviderTarget := fun _ => false
  isMeasuredWriteForm := fun _ _ _ => true
  isShopifyStoreHostName := fun _ => false
  parseContractMethods := fun _ => some "PATCH"
  parseContractPaths := fun _ => ["/items/1"]
  listFormOf := fun _ => .woocommerce
  listAfterOf := fun _ => false
  pathnameOf := fun s => some s
  judgeRuleRefusal := fun _ _ => none
  judgeAfterBound := fun _ => 0
  normalizeStartDomains := fun domains => some domains
  startDomainsText := fun _ => ""
  startDomainsOf := fun _ => []

/-- A target to turn from `false` to `true`. -/
def plainTarget (seq : ℕ) (key : String) : Target where
  seq := seq
  targetKey := key
  change := .update
  before := some "false"
  afterPlanned := some "true"

/-- An approved run over `targets`. -/
def plainRun (targetSystem : String) (atomic : Bool) (targets : List Target)
    (h : (targets.map Target.seq).Nodup) : Run where
  id := "r"
  createdAt := 0
  ruleHash := "rule"
  targetSystem := targetSystem
  undo := .restorable
  phase := .approved
  contractJson := some "contract"
  approvalChecksum := some "hash"
  maxTargets := some targets.length
  expiresAt := some 10000000
  targetsTotal := targets.length
  atomic := atomic
  targets := targets
  seq_nodup := h

/-- A ledger of that run alone, over a store that holds `false` everywhere. -/
def plainWorld (run : Run) : World Bool where
  ledger := { runs := [run], id_nodup := List.nodup_singleton _ }
  store := fun _ => .value false

end Lynox.Bulk
