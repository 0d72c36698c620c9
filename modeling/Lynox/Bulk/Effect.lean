import Lynox.Bulk.Records
import Lynox.Process.System
import Mathlib.Data.List.Sort

/-!
# The effect of a bulk run

`bulk-apply.ts` and the writer of `bulk-external.ts` as programs. Every statement that
touches the ledger, the clock, a target or a host is one operation, so a pass can die
between any two of them; everything between two operations is a function of the answers.

`runBulkEffect` is one pass over a run. It refuses a run that is not approved and open, then
writes the pending targets in order. Per target it claims the row, reads what the target
holds, and writes only when that is the state the run expects (`writeOne`). A failed target
of an atomic run, its owner's stop and its time budget roll the run back (`rollBack`).

A `TargetWriter` is the way to one target system. `localWriter` reads and writes a keyed
store. `externalWriter` reaches a host : each request passes the checks that stop it before
it leaves, reports its send, and reports a refusal; `call` tries once more after a 429 or a
spent rate limit.
-/

namespace Lynox.Bulk

variable {V : Type}

/-! ## Targets and hosts -/

/-- Whether a target is read or written to apply the run or to roll it back. -/
inductive Side
  | apply | rollBack
  deriving DecidableEq, Repr

/-- The target an operation is about. -/
structure Tag where
  side : Side
  run : String
  seq : ℕ
  deriving DecidableEq, Repr

/-- Where a target of this instance is held. -/
structure Place where
  system : String
  collection : Option String
  key : String
  deriving DecidableEq, Repr

/-- What a read of a target answers. -/
inductive Found (V : Type)
  | image (i : Image V)
  | pathChanged
  | foreign
  deriving DecidableEq, Repr

/-- Why a request never left. -/
inductive Unsent
  | blocked | notGranted | secret | noCredential | rateLimited | unrecorded
  deriving DecidableEq, Repr

/-- How a request that left was answered. -/
inductive HostAnswer (V : Type)
  | ok (value : Option V)
  | redirect | unauthorized | notFound
  | retryAfter (ms : ℕ)
  | refused | failed | blocked | shopInactive | formCost | graphqlError | tooLarge | notJson
  deriving DecidableEq, Repr

inductive ExternalRead (V : Type)
  | unsent (why : Unsent)
  | host (answer : HostAnswer V)
  deriving DecidableEq, Repr

/-- Whether an answer shows the host did not act on the request. -/
def HostAnswer.refusedAnswer : HostAnswer V → Bool
  | .unauthorized | .notFound | .retryAfter _ | .refused | .blocked => true
  | _ => false

/-! ## Operations -/

/-- The writes of the effect to the ledger. -/
inductive EffectCall (V : Type)
  | releaseClaim (runId : String) (seq : ℕ)
  | markSent (runId : String) (seq : ℕ) (via : Option AttachedConnection)
  | markRefused (runId : String) (seq : ℕ)
  | recordApplied (run : Run) (seq : ℕ) (result : String) (now : Time)
      (actual : Option (ActualImage V)) (via : Option AttachedConnection)
      (shopAddedMarkup hostRewrote : Bool)
  | recordFailed (runId : String) (seq : ℕ) (error : TargetError)
      (via : Option AttachedConnection)
  | recordUnrecordedSettled (runId : String) (seq : ℕ) (now : Time)
  | recordRolledBack (run : Run) (seq : ℕ) (now : Time)
  | setWriting (runId : String)
  | setAborted (runId : String) (reason : HaltReason)
  | halt (runId : String) (reason : HaltReason)
  | finish (run : Run)

/-- How a pass ended. `error` : an exception left the effect. -/
inductive Status
  | done | halted | refused | aborted | pending | stopped | error
  deriving DecidableEq, Repr

/-- What a pass returns. `planned` : it stopped where its approval told it to. -/
structure Outcome where
  status : Status
  planned : Bool := false
  deriving DecidableEq, Repr

/-- Whether a call of the run has a trail, and whether its first row could be written. -/
inductive TrailAnswer
  | noTrail | begun | failed
  deriving DecidableEq, Repr

/-- One step of a pass that touches something outside it. -/
inductive EffectOp (V : Type)
  | ledger
  | call (c : EffectCall V)
  | claimTarget (runId : String) (seq : ℕ) (now : Time)
  | probeHoldsFor (runId : String)
  | now
  | yieldToLoop
  | sleep (ms : ℕ)
  | ownerStopped
  | shopifyBulkReadEnabled
  | writerAvailable (run : Run)
  | trailBegin (run : Run)
  | trailEnd (status : Status) (written failed : Option ℤ) (planned : Bool)
  | carried
  | read (tag : Tag) (place : Place)
  | write (tag : Tag) (place : Place) (image : Image V)
  | get (key : String)
  | preSend (key : String)
  | send (tag : Tag) (key : String) (value : V)

/-- What each step is answered with. A read or write that throws answers an error. -/
abbrev EffectOp.Ans : EffectOp V → Type
  | .ledger => Ledger
  | .call _ => Unit
  | .claimTarget .. | .probeHoldsFor _ => Bool
  | .now => Time
  | .yieldToLoop | .sleep _ | .trailEnd .. => Unit
  | .ownerStopped | .shopifyBulkReadEnabled | .writerAvailable _ => Bool
  | .trailBegin _ => TrailAnswer
  | .carried => Option AttachedConnection
  | .read .. => Except Unit (Found V)
  | .write .. => Except Unit String
  | .get _ => ExternalRead V
  | .preSend _ => Option Unsent
  | .send .. => HostAnswer V

abbrev Effect (V α : Type) := Program (EffectOp V) EffectOp.Ans α

/-- Issue one step. -/
abbrev ask (o : EffectOp V) : Effect V o.Ans := Program.issue o

/-- Write to the ledger. -/
abbrev record (c : EffectCall V) : Effect V Unit := Program.issue (EffectOp.call c)

/-! ## Writers -/

/-- What a writer throws. -/
inductive Thrown
  | halt (reason : HaltReason)
  | redirect | secret | other
  deriving DecidableEq, Repr

/-- What a write answers : its result, and what the target held right after. -/
structure Written (V : Type) where
  result : String
  actual : Option (ActualImage V) := none
  hostAddedMarkup : Bool := false
  hostRewrote : Bool := false

/-- How the loop reaches a target system. -/
structure TargetWriter (V : Type) where
  readsBack : Bool
  reportsSend : Bool
  tracks : Bool
  read : Tag → String → Option (List String) →
    Effect V (Except Thrown (Found V × Option String))
  write : Tag → String → Image V → (onSend onRefused : Effect V Unit) →
    Effect V (Except Thrown (Written V))

def Run.place (r : Run) (key : String) : Place :=
  ⟨r.targetSystem, r.targetCollection, key⟩

/-- Files of the workspace, or rows of a collection : one keyed store. -/
def localWriter (run : Run) : TargetWriter V where
  readsBack := false
  reportsSend := false
  tracks := false
  read tag key _ := do
    match ← ask (.read tag (run.place key)) with
    | .error _ => pure (.error .other)
    | .ok found => pure (.ok (found, none))
  write tag key image _ _ := do
    match ← ask (.write tag (run.place key) image) with
    | .error _ => pure (.error .other)
    | .ok result => pure (.ok { result })

/-- A wait for a spent profile limit, which says nothing about when it frees up. -/
def profileLimitWaitMs : ℕ := 1000

/-- What `call` throws for an answer that is not about this target alone. -/
def ExternalRead.thrown : ExternalRead V → Option Thrown
  | .unsent .noCredential => some (.halt .credential)
  | .host .unauthorized => some (.halt .unauthorized)
  | .unsent .blocked | .host .blocked => some (.halt .blocked)
  | .unsent .notGranted => some (.halt .contract)
  | .unsent .unrecorded => some (.halt .unrecorded)
  | .unsent .secret => some .secret
  | .host .redirect => some .redirect
  | .host .shopInactive => some (.halt .shopInactive)
  | .host .formCost => some (.halt .formCost)
  | _ => none

/-- How long to wait before the one retry, `none` for an answer that is not retried. -/
def ExternalRead.retryMs : ExternalRead V → Option ℕ
  | .host (.retryAfter ms) => some ms
  | .unsent .rateLimited => some profileLimitWaitMs
  | _ => none

/-- One request, tried once more after a 429 or a spent rate limit. -/
def callHost (once : Effect V (ExternalRead V)) : Effect V (Except Thrown (ExternalRead V)) := do
  let first ← once
  let got ← match first.retryMs with
    | some ms => do
      let _ ← ask (.sleep ms)
      once
    | none => pure first
  match got.thrown with
  | some e => pure (.error e)
  | none => pure (.ok got)

/-- One write request : stopped before it leaves, or sent with its send reported before and
its refusal after. -/
def sendWrite (tag : Tag) (key : String) (value : V) (onSend onRefused : Effect V Unit) :
    Effect V (ExternalRead V) := do
  match ← ask (.preSend key) with
  | some why => pure (.unsent why)
  | none =>
    onSend
    let answer ← ask (.send tag key value)
    if answer.refusedAnswer then
      onRefused
    pure (.host answer)

variable (D : Deps V)

/-- Read a host's target over the fields the run writes. -/
def readAnswer (key : String) (fields : List String) :
    Effect V (Except Thrown (Option (V × V))) := do
  match ← callHost (ask (.get key)) with
  | .error e => pure (.error e)
  | .ok (.host .notFound) => pure (.ok none)
  | .ok (.host (.ok (some value))) =>
    pure (.ok ((D.beforeOverFields value fields).map fun image => (image, value)))
  | .ok _ => pure (.error .other)

/-- A write that succeeded, with what a read-back found. -/
def writtenOver (sent : V) : Except Thrown (Option (V × V)) → Written V
  | .ok (some (back, _)) =>
    { result := "written"
      actual := some ⟨back, false⟩
      hostAddedMarkup := D.readBack sent back = .added
      hostRewrote := D.readBack sent back = .rewritten }
  | _ => { result := "written", actual := some ⟨sent, true⟩ }

/-- The writer of an external run. -/
def externalWriter : TargetWriter V where
  readsBack := true
  reportsSend := true
  tracks := true
  read _ key fields :=
    match fields with
    | none => pure (.ok (.foreign, none))
    | some fields => do
      match ← readAnswer D key fields with
      | .error e => pure (.error e)
      | .ok none => pure (.ok (.foreign, none))
      | .ok (some (image, value)) => pure (.ok (.image (.value image), D.titleOf value))
  write tag key after onSend onRefused :=
    match after with
    | .absent => pure (.error .other)
    | .value sent =>
      match D.fields sent with
      | none => pure (.error .other)
      | some members => do
        match ← callHost (sendWrite tag key sent onSend onRefused) with
        | .error e => pure (.error e)
        | .ok (.host (.ok _)) => do
          let back ← readAnswer D key (members.map Prod.fst)
          pure (.ok (writtenOver D sent back))
        | .ok _ => pure (.error .other)

/-- The writer for a run's target system, or none when it cannot be reached. -/
def bulkWriterFor (run : Run) : Effect V (Option (TargetWriter V)) := do
  let available ← ask (.writerAvailable run)
  if (externalHostOf run.targetSystem).isSome then
    pure (if available then some (externalWriter D) else none)
  else if run.targetSystem = "workspace" then
    pure (some (localWriter run))
  else if run.targetSystem = "data_store" && run.targetCollection.isSome && available then
    pure (some (localWriter run))
  else pure none

/-! ## One target -/

variable [DecidableEq V]

/-- What a run compares beyond equality. -/
structure Comparison where
  htmlFields : List String
  savedForm : Bool
  sentCanonical : List String

/-- What to record for a target. -/
inductive TargetOutcome (V : Type)
  | applied (result : String) (actual : Option (ActualImage V))
      (hostAddedMarkup hostRewrote : Bool)
  | failed (error : TargetError)
  | halt (reason : HaltReason)

/-- The fields a target's write names, when its after-state is an object. -/
def fieldsOf (t : ApplyTarget V) : Option (List String) :=
  match t.after with
  | .absent => none
  | .value v => (D.fields v).map fun members => members.map Prod.fst

/-- A read holding what the store would have saved of a planned image. -/
def sameInSavedForm (htmlFields : List String) (cur : Image V) (titleNow : Option String) :
    Image V → Bool
  | .absent => false
  | .value planned =>
    match cur with
    | .absent => false
    | .value v => sameValue D htmlFields v (D.shopifySavedForm planned titleNow)

/-- Whether a read finds the target as planned. -/
def foundAsPlanned (cmp : Comparison) (cur : Image V) (titleNow : Option String)
    (t : ApplyTarget V) : Bool :=
  sameImage D cmp.htmlFields cur t.after ||
    (cmp.savedForm && sameInSavedForm D cmp.htmlFields cur titleNow t.after)

/-- Whether an HTML field of the after-state would leave in other bytes than its canonical
form. A field equal to its before-image is the store's own. -/
def rawHtmlField (t : ApplyTarget V) (fields : List String) : Bool :=
  match t.after with
  | .absent => false
  | .value v =>
    match D.fields v with
    | none => false
    | some members =>
      let was := match t.expected with
        | .absent => []
        | .value e => (D.fields e).getD []
      fields.any fun f =>
        match members.lookup f with
        | none => false
        | some x =>
          match D.text x with
          | none => false
          | some s => was.lookup f ≠ some x && D.canonicalHtml s ≠ s

def Thrown.outcome : Thrown → TargetOutcome V
  | .halt reason => .halt reason
  | .redirect => .failed .redirect
  | .secret => .failed .secret
  | .other => .failed .writeFailed

/-- The connection of what a tracking writer has sent since the target began. -/
def carriedBy (w : TargetWriter V) : Effect V (Option AttachedConnection) :=
  if w.tracks then ask .carried else pure none

/-- Mark the send under the connection it leaves under. -/
def onSend (w : TargetWriter V) (run : Run) (seq : ℕ) : Effect V Unit := do
  let via ← carriedBy w
  record (.markSent run.id seq via)

/-- Write a target that was found as expected. -/
def sendOne (w : TargetWriter V) (run : Run) (t : ApplyTarget V) : Effect V (TargetOutcome V) := do
  if !w.reportsSend then
    onSend w run t.seq
  let out ← w.write ⟨.apply, run.id, t.seq⟩ t.key t.after (onSend w run t.seq)
    (record (.markRefused run.id t.seq))
  match out with
  | .error e => pure e.outcome
  | .ok out => pure (.applied out.result out.actual out.hostAddedMarkup out.hostRewrote)

/-- A target found already holding the planned state. -/
def foundOutcome (w : TargetWriter V) (cmp : Comparison) (cur : Image V)
    (titleNow : Option String) (t : ApplyTarget V) : TargetOutcome V :=
  let actual := match cur with
    | .value v => if w.readsBack then some ⟨v, false⟩ else none
    | .absent => none
  let rewritten := !cmp.htmlFields.isEmpty && !sameImage D [] cur t.after &&
    !(cmp.savedForm && sameInSavedForm D [] cur titleNow t.after)
  .applied "already" actual false rewritten

/-- One claimed target : what to record for it. -/
def writeOne (w : TargetWriter V) (run : Run) (cmp : Comparison) (t : ApplyTarget V) :
    Effect V (TargetOutcome V) := do
  match ← w.read ⟨.apply, run.id, t.seq⟩ t.key (fieldsOf D t) with
  | .error e => pure e.outcome
  | .ok (.pathChanged, _) => pure (.failed .pathChanged)
  | .ok (.foreign, _) => pure (.failed .conflict)
  | .ok (.image cur, titleNow) =>
    if foundAsPlanned D cmp cur titleNow t then
      pure (foundOutcome D w cmp cur titleNow t)
    else if !sameImage D cmp.htmlFields cur t.expected then
      pure (.failed .conflict)
    else if rawHtmlField D t cmp.sentCanonical then
      pure (.halt .contract)
    else if w.reportsSend then do
      let L ← ask .ledger
      if (L.runRow run.id).any (·.hasUnknownSend t.seq) then
        pure (.failed .sentUnknown)
      else sendOne w run t
    else sendOne w run t

/-! ## Roll-back -/

/-- Why an atomic run is rolled back. -/
inductive Cause
  | failed | stopped | time
  deriving DecidableEq, Repr

/-- The reason names the cause, and whether the roll-back was complete. -/
def Cause.reason : Cause → (complete : Bool) → HaltReason
  | .failed, true => .atomicRolledBack
  | .failed, false => .atomicRollbackIncomplete
  | .stopped, true => .atomicStoppedRolledBack
  | .stopped, false => .atomicStoppedRollbackIncomplete
  | .time, true => .atomicTimeRolledBack
  | .time, false => .atomicTimeRollbackIncomplete

/-- Take one target back, if it still holds what the run wrote. Whether it was. -/
def rollBackOne (w : TargetWriter V) (run : Run) (t : ApplyTarget V) (recorded : Bool) :
    Effect V Bool := do
  match ← w.read ⟨.rollBack, run.id, t.seq⟩ t.key none with
  | .error _ => pure false
  | .ok (.pathChanged, _) | .ok (.foreign, _) => pure false
  | .ok (.image cur, _) =>
    if !recorded && sameImage D [] cur t.expected then do
      let now ← ask .now
      record (.recordUnrecordedSettled run.id t.seq now)
      pure true
    else if !sameImage D [] cur t.after then pure false
    else
      match ← w.write ⟨.rollBack, run.id, t.seq⟩ t.key t.expected (pure ()) (pure ()) with
      | .error _ => pure false
      | .ok _ => do
        let now ← ask .now
        record (if recorded then .recordRolledBack run t.seq now
          else .recordUnrecordedSettled run.id t.seq now)
        pure true

/-- Every target in turn; one left as it is makes the roll-back incomplete. -/
def rollBackAll (w : TargetWriter V) (run : Run) :
    List (ApplyTarget V × Bool) → Bool → Effect V Bool
  | [], complete => pure complete
  | (t, recorded) :: rest, complete => do
    let back ← rollBackOne D w run t recorded
    rollBackAll w run rest (complete && back)

/-- Newest first, whether recorded or not. -/
def rollBackOrder (applied unrecorded : List Target) : List (ApplyTarget V × Bool) :=
  ((applied.map fun t => (toApplyTarget D.json t, true)) ++
    unrecorded.map fun t => (toApplyTarget D.json t, false)).insertionSort
      fun a b => b.1.seq ≤ a.1.seq

/-- Take back every target the run wrote, and end it `aborted`. -/
def rollBack (w : TargetWriter V) (run : Run) (cause : Cause) : Effect V Outcome := do
  let applied := ((← ask .ledger).runRow run.id).map Run.listAppliedDesc
  let unrecorded := ((← ask .ledger).runRow run.id).map Run.listSentUnrecordedDesc
  let complete ← rollBackAll D w run (rollBackOrder D (applied.getD []) (unrecorded.getD [])) true
  record (.setAborted run.id (cause.reason complete))
  pure ⟨.aborted, false⟩

/-! ## The loop -/

def minRunBudgetMs : Time := 60000
def bulkTargetBudgetMs : Time := 5000
def haltConsecutive : ℕ := 3

/-- Halt the run and stop. -/
def haltWith (run : Run) (reason : HaltReason) (status : Status) : Effect V Outcome := do
  record (.halt run.id reason)
  pure ⟨status, false⟩

/-- End the run on the owner's stop or its time budget : an atomic run with a recorded write
rolls back, any other is halted. -/
def endRun (w : TargetWriter V) (run : Run) (cause : Cause) (reason : HaltReason)
    (rolled otherwise : Status) : Effect V Outcome := do
  let L ← ask .ledger
  if run.atomic && (L.runRow run.id).any (fun r => !r.listAppliedDesc.isEmpty) then do
    let out ← rollBack D w run cause
    pure { out with status := rolled }
  else haltWith run reason otherwise

def endStopped (w : TargetWriter V) (run : Run) : Effect V Outcome :=
  endRun D w run .stopped .stoppedByOwner .stopped .stopped

/-- What the loop carries from target to target. -/
structure LoopState where
  consecutive : ℕ := 0
  cappedOut : Bool := false
  cappedByProbe : Bool := false

/-- What stays fixed during a pass. -/
structure PassInfo where
  cmp : Comparison
  writingTotal : ℕ
  deadline : Time
  probeHolds : Bool

/-- A failed target that did not stop an atomic run : count it, and halt on too many. -/
def afterFailure (run : Run) (info : PassInfo) (error : TargetError) (st : LoopState) :
    Effect V (Except Outcome LoopState) := do
  if error = .sentUnknown then pure (.ok st)
  else if error = .conflict then pure (.ok { st with consecutive := 0 })
  else do
    let L ← ask .ledger
    let failed := ((L.runRow run.id).map Run.targetsFailed).getD 0
    if haltConsecutive ≤ st.consecutive + 1 then
      Except.error <$> haltWith run .consecutiveFailures .halted
    else if bulkFailureLimit info.writingTotal < failed then
      Except.error <$> haltWith run .failureRate .halted
    else pure (.ok { st with consecutive := st.consecutive + 1 })

/-- Record the outcome of one target. -/
def settle (w : TargetWriter V) (run : Run) (info : PassInfo) (seq : ℕ) (st : LoopState)
    (via : Option AttachedConnection) : TargetOutcome V → Effect V (Except Outcome LoopState)
  | .halt reason => do
    record (.releaseClaim run.id seq)
    Except.error <$> haltWith run reason .halted
  | .applied result actual hostAddedMarkup hostRewrote => do
    let now ← ask .now
    record (.recordApplied run seq result now actual via hostAddedMarkup hostRewrote)
    if hostAddedMarkup then Except.error <$> haltWith run .markupAddedByShop .halted
    else pure (.ok { st with consecutive := 0 })
  | .failed error => do
    record (.recordFailed run.id seq error via)
    if error ≠ .sentUnknown && run.atomic then Except.error <$> rollBack D w run .failed
    else afterFailure run info error st

/-- Claim, load, write and record one target. -/
def takeTarget (w : TargetWriter V) (run : Run) (info : PassInfo) (seq : ℕ) (st : LoopState) :
    Effect V (Except Outcome LoopState) := do
  let now ← ask .now
  if ← ask (.claimTarget run.id seq now) then do
    let L ← ask .ledger
    match ((L.runRow run.id).map fun r => r.loadTarget D.json seq).getD (.ok none) with
    | .error _ => pure (.error ⟨.error, false⟩)
    | .ok none => pure (.ok st)
    | .ok (some t) => do
      let outcome ← writeOne D w run info.cmp t
      let via ← carriedBy w
      settle D w run info seq st via outcome
  else pure (.ok st)

/-- Whether the maximum is reached and this target never had the verb. -/
def cappedOut (info : PassInfo) (current r : Run) (seq : ℕ) : Bool :=
  (bulkWriteCap current.maxTargets info.probeHolds).any (· ≤ r.sentCount) && !r.wasSent seq

/-- One turn of the loop. -/
def turn (w : TargetWriter V) (run : Run) (info : PassInfo) (seq : ℕ) (st : LoopState) :
    Effect V (Except Outcome LoopState) := do
  let _ ← ask .yieldToLoop
  match (← ask .ledger).runRow run.id with
  | none => pure (.error ⟨.halted, false⟩)
  | some current =>
    if current.phase = .done then pure (.error ⟨.done, false⟩)
    else if current.phase ≠ .writing || current.haltReason.isSome then
      pure (.error ⟨.halted, false⟩)
    else if ← ask .ownerStopped then Except.error <$> endStopped D w run
    else if ((← ask .ledger).runRow run.id).any fun r => cappedOut info current r seq then
      pure (.ok { st with
        cappedOut := true
        cappedByProbe :=
          st.cappedByProbe || (!info.probeHolds && current.maxTargets.all (1 < ·)) })
    else if info.deadline < (← ask .now) then
      Except.error <$> endRun D w run .time .timeBudget .aborted .halted
    else takeTarget D w run info seq st

/-- Every pending target in turn. -/
def loop (w : TargetWriter V) (run : Run) (info : PassInfo) :
    List ℕ → LoopState → Effect V (Except Outcome LoopState)
  | [], st => pure (.ok st)
  | seq :: rest, st => do
    match ← turn D w run info seq st with
    | .error out => pure (.error out)
    | .ok st => loop w run info rest st

/-- After the loop : halted at its maximum, stopped, left to another loop, or finished. -/
def close (w : TargetWriter V) (run : Run) (st : LoopState) : Effect V Outcome := do
  let L ← ask .ledger
  if (L.runRow run.id).any (fun r => !r.listPending.isEmpty) then
    if st.cappedOut then do
      record (.halt run.id (if st.cappedByProbe then .probeRequired else .maxTargets))
      let L ← ask .ledger
      let failed := ((L.runRow run.id).map Run.targetsFailed).getD 0
      pure ⟨.halted, !st.cappedByProbe && failed == 0⟩
    else if ← ask .ownerStopped then endStopped D w run
    else pure ⟨.pending, false⟩
  else do
    record (.finish run)
    pure ⟨.done, false⟩

/-! ## A pass -/

/-- The run if it may be written now : approved or writing, not halted, inside its window,
matching the checksum approved, and not switched off. -/
def admission (runId : String) (effect : RunKind) : Effect V (Except Outcome Run) := do
  match (← ask .ledger).runRow runId with
  | none => pure (.error ⟨.refused, false⟩)
  | some run =>
    if effect ≠ run.kind then pure (.error ⟨.refused, false⟩)
    else if run.phase ≠ .approved && run.phase ≠ .writing then pure (.error ⟨.refused, false⟩)
    else if run.haltReason.isSome then pure (.error ⟨.refused, false⟩)
    else
      let now ← ask .now
      if run.expiresAt.all (· < now) then Except.error <$> haltWith run .expired .refused
      else
        let L ← ask .ledger
        if run.approvalChecksum.isNone || L.computeChecksum D runId ≠ run.approvalChecksum then
          Except.error <$> haltWith run .checksum .refused
        else
          let enabled ← ask .shopifyBulkReadEnabled
          let L ← ask .ledger
          if (L.runRow runId).any (L.isShopifyRunSwitchedOff D enabled) then
            Except.error <$> haltWith run .shopifyWriteOff .refused
          else pure (.ok run)

/-- What a pass reads before its first target. -/
def prepare (run : Run) : Effect V (PassInfo × List ℕ) := do
  let L ← ask .ledger
  let r := L.runRow run.id
  let cmp : Comparison :=
    { htmlFields := (r.map (L.comparedAsHtml D)).getD []
      savedForm := r.any (L.comparedInSavedForm D)
      sentCanonical := if run.kind = .undo then [] else (r.map (L.htmlFieldsOf D)).getD [] }
  let pending := (((← ask .ledger).runRow run.id).map Run.listPending).getD []
  let now ← ask .now
  let probeHolds ← ask (.probeHoldsFor run.id)
  pure (⟨cmp, (r.map Run.countWriting).getD 0,
    now + max minRunBudgetMs (pending.length * bulkTargetBudgetMs), probeHolds⟩, pending)

/-- Write an admitted run : the loop and what follows it. -/
def writeRun (w : TargetWriter V) (run : Run) : Effect V Outcome := do
  record (.setWriting run.id)
  let (info, pending) ← prepare D run
  match ← loop D w run info pending {} with
  | .error out => pure out
  | .ok st => close D w run st

/-- One call of the effect, and whether its trail was opened. -/
def applyRunEffect (runId : String) (effect : RunKind) : Effect V (Option Run × Outcome) := do
  match ← admission D runId effect with
  | .error out => pure (none, out)
  | .ok run =>
    match ← bulkWriterFor D run with
    | none => do
      let out ← haltWith run .unavailable .refused
      pure (none, out)
    | some w =>
      match ← ask (.trailBegin run) with
      | .failed => do
        let out ← haltWith run .runUnrecorded .halted
        pure (none, out)
      | .noTrail => do
        let out ← writeRun D w run
        pure (none, out)
      | .begun => do
        let out ← writeRun D w run
        pure (some run, out)

/-- One pass, with the trail's closing row. -/
def runBulkEffect (runId : String) (effect : RunKind) : Effect V Outcome := do
  let (opened, out) ← applyRunEffect D runId effect
  match opened with
  | none => pure out
  | some run => do
    let after := (← ask .ledger).runRow runId
    let _ ← ask (.trailEnd out.status
      (after.map fun r => (r.targetsApplied : ℤ) - run.targetsApplied)
      (after.map fun r => (r.targetsFailed : ℤ) - run.targetsFailed) out.planned)
    pure out

end Lynox.Bulk
