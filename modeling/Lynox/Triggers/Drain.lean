import Lynox.Process.Crowd
import Lynox.Triggers.Receiver
import Lynox.Triggers.Lease

/-!
# The drain of webhook events

A pass of the drain goes over the triggers with work : it reports what ended, drops what no longer
may run, and starts a run of the oldest waiting event under the trigger's lease. `drainWebhooks` is
the pass, one operation for each statement on the database and each question to the process, and any
number of processes run it beside the receiver and the ends of runs (`inboxCrowd`). What the owner is
told in words is not part of it.
-/

namespace Lynox.Triggers

open Text Program

/-- `getById` : the exact row first, else one whose id starts with the id. -/
def getById (s : Store) (id : String) : Option Trigger :=
  if id = "" then none
  else (Table.find Trigger.id s.rows id).or
    (s.rows.find? fun t => (id.toList.map Char.toLower).isPrefixOf (t.id.toList.map Char.toLower))

/-- The webhook trigger `id`, if it accepts an event now. -/
def findAcceptingWebhook (s : Store) (id : String) : Option Trigger :=
  s.rows.find? fun t => t.id = id && t.source = .webhook && t.effect = .runWorkflow &&
    accepts s.planPauseOn t

def shopHeader : String := "x-shopify-shop-domain"

def eventTriggerNotLive : String :=
  "Its trigger does not accept events, so these events are not run. Look at the trigger under Automation."

def eventShopMovedReason : String :=
  "The event came from another shop than the one the trigger's connection now serves, so it was not run."

def eventValuesUnreadable : String :=
  "The event's values could not be read with this instance's key, so it was not run, and it will not run later."

/-! ## Operations -/

/-- What a run of an event is given. -/
structure SlotEvent where
  triggerId : String
  eventId : String
  attemptId : String
  values : Json

inductive DrainOp
  | windowStart
  | sweepValues (before : String)
  | tombstoneRows (before : String)
  | triggersWithWork
  | unreportedEnds (triggerId : String)
  | markReported (id : String)
  | isActive (triggerId : String)
  | oldestReceived (triggerId : String)
  | findAccepting (triggerId : String)
  | getTrigger (id : String)
  | dropWaiting (triggerId reason : String)
  | shopHost (connectionId : String)
  | drop (id reason : String)
  | unreportedRunning (triggerId : String)
  | reserve (trigger : Trigger)
  | takeLease (id : String)
  | releaseLease (id : String)
  | markUnknownReported (id : String)
  | randomUUID
  | begin (id attemptId : String)
  | finish (id attemptId : String) (outcome : EventOutcome)
  | runInSlot (slot : SlotEvent)

abbrev DrainOp.Ans : DrainOp → Type
  | .windowStart | .randomUUID => String
  | .sweepValues _ | .tombstoneRows _ | .dropWaiting _ _ => Nat
  | .triggersWithWork => List String
  | .unreportedEnds _ | .unreportedRunning _ => List InboundEventRecord
  | .oldestReceived _ => Option InboundEventRecord
  | .findAccepting _ | .getTrigger _ => Option Trigger
  | .shopHost _ => Option String
  | .takeLease _ => LeaseClaim
  | .markReported _ | .isActive _ | .drop _ _ | .reserve _ | .markUnknownReported _ | .begin _ _
  | .finish _ _ _ => Bool
  | .releaseLease _ | .runInSlot _ => Unit

abbrev Drain := Program DrainOp DrainOp.Ans

/-- One operation. -/
def ask (o : DrainOp) : Drain o.Ans :=
  issue o

/-! ## The pass -/

/-- What the pass reads of a trigger's webhook settings, and the lower case of a text. -/
structure DrainParts where
  verifier : Condition → Option WebhookVerifierKind
  lower : String → String

/-- The shop a trigger's connection serves. -/
def connectionShopHost : Option String → Drain (Option String)
  | none => pure none
  | some connectionId => ask (.shopHost connectionId)

/-- Whether a Shopify event names another shop than the trigger's connection serves now. -/
def eventShopMoved (parts : DrainParts) (accepting : Trigger) : Option InboundEventRecord → Drain Bool
  | none => pure false
  | some event =>
    if parts.verifier accepting.condition ≠ some .shopifyHmac then pure false
    else do
      let shopHost ← connectionShopHost accepting.sourceConnectionId
      pure <| match shopHost, event.row.headers.lookup shopHeader with
        | some host, some named => parts.lower named ≠ host
        | _, _ => true

/-- The oldest event under the lease : it is begun, and its run starts. -/
def startEvent (triggerId : String) (event : InboundEventRecord) : Drain Unit := do
  let attemptId ← ask .randomUUID
  let begun ← ask (.begin event.row.id attemptId)
  if !begun then ask (.releaseLease triggerId)
  else if event.valuesUnreadable then do
    let _ ← ask (.finish event.row.id attemptId (.failed eventValuesUnreadable none))
    ask (.releaseLease triggerId)
  else ask (.runInSlot ⟨triggerId, event.row.id, attemptId, eventValues event.valuesJson⟩)

/-- What is done under the lease : lost events are reported, and the oldest event is run. -/
def drainLeased (triggerId : String) (event : Option InboundEventRecord)
    (lost : List InboundEventRecord) : Drain Unit := do
  forEach (fun stale : InboundEventRecord => do
    let _ ← ask (.markUnknownReported stale.row.id)
    pure ()) lost
  match event with
  | none => ask (.releaseLease triggerId)
  | some e => startEvent triggerId e

/-- An event to run or to report takes a reservation and the lease. -/
def drainReserved (triggerId : String) (trigger : Trigger) (event : Option InboundEventRecord) :
    Drain Unit := do
  let lost ← ask (.unreportedRunning triggerId)
  if event.isNone && lost.isEmpty then pure ()
  else
    let allowed ← ask (.reserve trigger)
    if !allowed then pure ()
    else
      let lease ← ask (.takeLease triggerId)
      match lease with
      | .claimed => drainLeased triggerId event lost
      | .interrupted => ask (.releaseLease triggerId)
      | .held | .notFound => pure ()

/-- What is done once the trigger is seen to accept. -/
def drainAccepting (parts : DrainParts) (triggerId : String) (accepting trigger : Trigger)
    (event : Option InboundEventRecord) : Drain Unit := do
  let moved ← eventShopMoved parts accepting event
  match moved, event with
  | true, some e => do
    let _ ← ask (.drop e.row.id eventShopMovedReason)
    pure ()
  | _, _ => drainReserved triggerId trigger event

/-- One trigger of the pass. -/
def drainTrigger (parts : DrainParts) (triggerId : String) : Drain Unit := do
  let ends ← ask (.unreportedEnds triggerId)
  forEach (fun ended : InboundEventRecord => do
    let _ ← ask (.markReported ended.row.id)
    pure ()) ends
  let active ← ask (.isActive triggerId)
  if active then pure ()
  else
    let event ← ask (.oldestReceived triggerId)
    let accepting ← ask (.findAccepting triggerId)
    let trigger ← ask (.getTrigger triggerId)
    match accepting, trigger.filter fun t => t.id = triggerId with
    | some accepting, some trigger => drainAccepting parts triggerId accepting trigger event
    | _, _ => match event with
      | none => pure ()
      | some _ => do
        let _ ← ask (.dropWaiting triggerId eventTriggerNotLive)
        pure ()

def drainWebhooks (parts : DrainParts) : Drain Unit := do
  let windowStart ← ask .windowStart
  let _ ← ask (.sweepValues windowStart)
  let _ ← ask (.tombstoneRows windowStart)
  let triggerIds ← ask .triggersWithWork
  forEach (drainTrigger parts) triggerIds

/-! ## The processes -/

/-- A `begin` that was granted. -/
structure Begun where
  eventId : String
  attemptId : String
  holder : String
  deriving DecidableEq

/-- The database : the ledger, the triggers, and the shop each connection serves. `deliveries` to
`unknown` keep what was recorded, begun, ended by an attempt, started and claimed for a report. -/
structure Inbox where
  events : List InboundEvent
  triggers : Store
  shopHosts : String → Option String
  deliveries : List (String × RecordDelivery)
  begun : List Begun
  ended : List (String × String)
  runs : List (String × SlotEvent)
  reported : List String
  unknown : List String

/-- What the surroundings answer : the clock, the process's own runs, the budget, a random id. -/
structure DrainChoice where
  now : String
  until' : String
  windowStart : String
  active : Bool
  budget : Bool
  uuid : String

variable (c : EventCipher)

/-- A note of what a statement was granted. -/
def noteIf {α : Type} (granted : Bool) (a : α) (l : List α) : List α :=
  if granted then a :: l else l

/-- One operation of the process `holder`. -/
def Inbox.perform (holder : String) (w : Inbox) :
    (o : DrainOp) → DrainChoice → o.Ans × Inbox
  | .windowStart, x => (x.windowStart, w)
  | .sweepValues before, _ =>
    let out := InboundEvents.sweepValues w.events before
    (out.1, { w with events := out.2 })
  | .tombstoneRows before, _ =>
    let out := InboundEvents.tombstoneRows w.events before
    (out.1, { w with events := out.2 })
  | .triggersWithWork, _ => (InboundEvents.triggersWithWork w.events, w)
  | .unreportedEnds triggerId, _ =>
    ((InboundEvents.unreportedEnds w.events triggerId).map (toRecord c holder), w)
  | .markReported id, x =>
    let out := InboundEvents.markReported w.events id x.now
    (out.1, { w with events := out.2, reported := noteIf out.1 id w.reported })
  | .isActive _, x => (x.active, w)
  | .oldestReceived triggerId, _ =>
    ((InboundEvents.oldestReceived w.events triggerId).map (toRecord c holder), w)
  | .findAccepting triggerId, _ => (findAcceptingWebhook w.triggers triggerId, w)
  | .getTrigger id, _ => (getById w.triggers id, w)
  | .dropWaiting triggerId reason, _ =>
    let out := InboundEvents.dropWaiting w.events triggerId reason
    (out.1, { w with events := out.2 })
  | .shopHost connectionId, _ => (w.shopHosts connectionId, w)
  | .drop id reason, _ =>
    let out := InboundEvents.drop w.events id reason
    (out.1, { w with events := out.2 })
  | .unreportedRunning triggerId, _ =>
    ((InboundEvents.unreportedRunning w.events triggerId).map (toRecord c holder), w)
  | .reserve _, x => (x.budget, w)
  | .takeLease id, x =>
    let out := claimLease w.triggers id holder x.until' x.now
    (out.1, { w with triggers := out.2 })
  | .releaseLease id, _ => ((), { w with triggers := Triggers.releaseLease w.triggers id holder })
  | .markUnknownReported id, x =>
    let out := InboundEvents.markUnknownReported w.events id x.now
    (out.1, { w with events := out.2, unknown := noteIf out.1 id w.unknown })
  | .randomUUID, x => (x.uuid, w)
  | .begin id attemptId, _ =>
    let out := InboundEvents.begin w.events id attemptId
    (out.1, { w with events := out.2, begun := noteIf out.1 ⟨id, attemptId, holder⟩ w.begun })
  | .finish id attemptId outcome, _ =>
    let out := InboundEvents.finish w.events id attemptId outcome
    (out.1, { w with events := out.2, ended := noteIf out.1 (id, attemptId) w.ended })
  | .runInSlot slot, _ => ((), { w with runs := (holder, slot) :: w.runs })

/-- What happens beside the passes : a request to the receiver, the end of a run, and a change of the
triggers and the connections. -/
inductive InboxEvent
  | deliver (d : Delivery) (id now : String)
  | settle (slot : SlotEvent) (outcome : EventOutcome)
  | edit (triggers : Store) (shopHosts : String → Option String)

def Inbox.outside (digest : List UInt8 → String) : InboxEvent → Inbox → Inbox
  | .deliver d id now, w =>
    let out := handle c digest w.events d id now
    { w with
      events := out.2
      deliveries := noteIf out.1 (id, d.input digest w.events) w.deliveries }
  | .settle slot outcome, w =>
    let out := InboundEvents.finish w.events slot.eventId slot.attemptId outcome
    { w with events := out.2, ended := noteIf out.1 (slot.eventId, slot.attemptId) w.ended }
  | .edit triggers shopHosts, w => { w with triggers := triggers, shopHosts := shopHosts }

/-- The passes of any number of processes, beside the receiver and the ends of runs. -/
def inboxCrowd (digest : List UInt8 → String) (parts : DrainParts) :
    Crowd DrainOp DrainOp.Ans Inbox DrainChoice InboxEvent String Unit where
  perform := Inbox.perform c
  program _ := drainWebhooks parts
  outside := Inbox.outside c digest

/-- What ends is a run that was started. -/
def Inbox.Allowed (w : Inbox) : InboxEvent → Prop
  | .settle slot _ => ∃ holder, (holder, slot) ∈ w.runs
  | _ => True

/-- An empty ledger. -/
def Inbox.empty (triggers : Store) (shopHosts : String → Option String) : Inbox :=
  ⟨[], triggers, shopHosts, [], [], [], [], [], []⟩

end Lynox.Triggers
