import Lynox.Approvals.Claimed

/-!
# The approval queue's executor

A tick scans the approved entries, claims one and makes an attempt at it : `execute`, in a race with
its deadline. `execute` waits at two places, for the sending address (`executeToAddress` before it,
`executeToSend` after it) and for the send itself (`settledBy`). What it reads of the mail side, the
mandates and the trail is given with each event. An attempt whose race the deadline won goes on by
itself while later ticks run, until its process dies; events come in any order.
-/

namespace Lynox.Approvals

open Text

/-! ## Who filed -/

inductive RequestPrincipal
  | owner
  | mandate (email : JsString) (mandateId : Option JsString)
  deriving DecidableEq

def MANDATE_TAG_PREFIX : JsString :=
  utf16 "mandate:"

def isMandateTag (tag : Option JsString) : Bool :=
  tag.any (MANDATE_TAG_PREFIX.isPrefixOf ·)

/-- The owner, or the mandate of the tag with the grant beside it. -/
def principalOfPrompt (createdBy mandateId : Option JsString) : RequestPrincipal :=
  match createdBy with
  | none => .owner
  | some tag =>
    if isMandateTag (some tag) then .mandate (tag.drop MANDATE_TAG_PREFIX.length) mandateId else .owner

/-- A mandate without a grant id counts as ended. -/
def principalHasEnded (p : RequestPrincipal) (isLive : JsString → Bool) : Bool :=
  match p with
  | .owner => false
  | .mandate _ none => true
  | .mandate _ (some id) => !isLive id

/-! ## The mail side -/

inductive SendCoreFailureStatus
  | rateLimit | invalidRecipients | receiveOnly | accountNotConfigured | dedupWindow | secretInBody
  | cancelled | queued | providerError
  deriving DecidableEq, Repr

namespace SendCoreFailureStatus

def text : SendCoreFailureStatus → JsString
  | rateLimit => utf16 "rate_limit"
  | invalidRecipients => utf16 "invalid_recipients"
  | receiveOnly => utf16 "receive_only"
  | accountNotConfigured => utf16 "account_not_configured"
  | dedupWindow => utf16 "dedup_window"
  | secretInBody => utf16 "secret_in_body"
  | cancelled => utf16 "cancelled"
  | queued => utf16 "queued"
  | providerError => utf16 "provider_error"

/-- A failure that proves nothing went out and would not change on its own. -/
def FAILS_FOR_GOOD : List SendCoreFailureStatus :=
  [invalidRecipients, receiveOnly, accountNotConfigured, secretInBody, cancelled, queued, rateLimit]

end SendCoreFailureStatus

/-- What `sendMail` answers. -/
inductive SendCoreResult
  | ok (messageId : JsString)
  | failed (status : SendCoreFailureStatus) (message : JsString)
  deriving DecidableEq

/-- The engine's accounts : whether a configured one only receives, and which have a provider. -/
structure MailContext where
  receiveOnly : JsString → Option Bool
  registry : JsString → Bool

def checkSendAccount (mail : MailContext) (accountId : JsString) : Option SendCoreFailureStatus :=
  match mail.receiveOnly accountId with
  | none => some .accountNotConfigured
  | some true => some .receiveOnly
  | some false => none

/-- What the executor reads when an attempt starts. -/
structure Start where
  db : EngineDb
  isMandateLive : JsString → Bool
  mail : Option MailContext

/-- The outward trail : kept or not, and whether it takes a row. -/
inductive Trail
  | absent | records | refuses
  deriving DecidableEq, Repr

/-- What the executor reads once the account said its sending address, if it did. -/
structure AddressAnswer where
  address : Option JsString
  recipientDedup : List StoredAddress → JsString → Bool
  audit : Trail

/-! ## What an attempt settles -/

structure Settled where
  outcome : FinishOutcome
  result : Result

def Settled.notSent (reason : JsString) : Settled :=
  ⟨.failed, reasonResult reason⟩

def Settled.retry (reason : JsString) : Settled :=
  ⟨.retry, reasonResult reason⟩

namespace ApprovalFiling

def accountId : ApprovalFiling → JsString
  | mailReply p => p.accountId
  | mailSend p => p.accountId

def fromAddress : ApprovalFiling → JsString
  | mailReply p => p.fromAddress
  | mailSend p => p.fromAddress

/-- A reply of recipients that the dedup window holds; `sendMail` checks its own. -/
def inDedupWindow (seen : List StoredAddress → JsString → Bool) : ApprovalFiling → Bool
  | mailReply p => seen (p.toAddr ++ p.cc) p.subject
  | mailSend _ => false

end ApprovalFiling

/-- `execute` up to its question for the sending address : settled before it, or `none`. -/
def executeToAddress (s : Store) (env : Start) (entry : ApprovalEntry) (principal : RequestPrincipal) :
    Option Settled :=
  match entry.filing, entry.origin with
  | some filing, some _ =>
    if !checksumMatches env.db s entry.row.id then some (.notSent (utf16 "checksum"))
    else if principalHasEnded principal env.isMandateLive then
      some (.notSent (utf16 "mandate_ended"))
    else
      match env.mail with
      | none => some (.retry (utf16 "mail_unavailable"))
      | some mail =>
        match checkSendAccount mail filing.accountId with
        | some status => some (.notSent status.text)
        | none =>
          if mail.registry filing.accountId then none
          else some (.notSent (utf16 "account_not_configured"))
  | _, _ => some (.notSent (utf16 "not_executable"))

/-- The row before the send could not be written, or has no trail where a mandate filed. -/
def trailRefuses (trail : Trail) (principal : RequestPrincipal) : Bool :=
  match trail with
  | .absent => principal ≠ .owner
  | .records => false
  | .refuses => true

/-- `execute` from the sending address on : settled without a send, or `none` where the send begins. -/
def executeToSend (T : Texts) (answer : AddressAnswer) (filing : ApprovalFiling)
    (principal : RequestPrincipal) (deadlinePassed : Bool) : Option Settled :=
  match answer.address with
  | none => some (.retry (utf16 "sending_address_unavailable"))
  | some address =>
    if T.toLowerCase (trim address) ≠ T.toLowerCase (trim filing.fromAddress) then
      some (.notSent (utf16 "account_changed"))
    else if filing.inDedupWindow answer.recipientDedup then some (.retry (utf16 "dedup_window"))
    else if deadlinePassed then some (.retry (utf16 "deadline_before_send"))
    else if trailRefuses answer.audit principal then some (.retry (utf16 "trail_unavailable"))
    else none

def Settled.sendThrew (message : JsString) : Settled :=
  ⟨.unknown, reasonResult (utf16 "send_threw") ++ [(utf16 "message", .string message)]⟩

/-- What a send settles, by what `commitReply` or `sendMail` did : an error is what it threw. -/
def settledBy (kind : ApprovalKind) (answer : Except JsString SendCoreResult) : Settled :=
  match answer, kind with
  | .error message, _ => .sendThrew message
  | .ok _, .mailReply => ⟨.done, []⟩
  | .ok (.ok messageId), .mailSend => ⟨.done, [(utf16 "messageId", .string messageId)]⟩
  | .ok (.failed status message), .mailSend =>
    if status = .dedupWindow then .retry (utf16 "dedup_window")
    else if status ∈ SendCoreFailureStatus.FAILS_FOR_GOOD then .notSent status.text
    else ⟨.unknown, reasonResult status.text ++ [(utf16 "message", .string message)]⟩

/-! ## An attempt -/

/-- Where `execute` stands. -/
inductive Stage
  | claimed | resolving | sending | returned
  deriving DecidableEq, Repr

/-- An attempt at a claimed entry. `sent` is what its send ended with, `settled` what its race did, and
`alive` that its process runs. -/
structure Attempt where
  entry : ApprovalEntry
  principal : RequestPrincipal
  deadlinePassed : Bool
  sending : Bool
  stage : Stage
  sent : Option (Except JsString SendCoreResult)
  settled : Option Settled
  alive : Bool

namespace Attempt

def ofClaim (entry : ApprovalEntry) : Attempt :=
  { entry := entry
    principal := principalOfPrompt entry.row.createdBy entry.row.mandateId
    deadlinePassed := false
    sending := false
    stage := .claimed
    sent := none
    settled := none
    alive := true }

/-- The first to settle decides the race. -/
def settle (a : Attempt) (s : Settled) : Attempt :=
  { a with settled := some (a.settled.getD s) }

def returns (a : Attempt) (s : Settled) : Attempt :=
  { a.settle s with stage := .returned }

end Attempt

/-- What happens to an attempt. -/
inductive Happening
  | start (env : Start)
  | address (answer : AddressAnswer)
  | sendEnds (answer : Except JsString SendCoreResult)
  | throws (message : JsString)
  | deadline

/-- One step of an attempt. Where none of its waits ends so, it stays. -/
def Attempt.step (T : Texts) (s : Store) (a : Attempt) : Happening → Attempt
  | .start env =>
    if a.stage ≠ .claimed then a
    else
      match executeToAddress s env a.entry a.principal with
      | some settled => a.returns settled
      | none => { a with stage := .resolving }
  | .address answer =>
    if a.stage ≠ .resolving then a
    else
      match a.entry.filing with
      | none => a
      | some filing =>
        match executeToSend T answer filing a.principal a.deadlinePassed with
        | some settled => a.returns settled
        | none => { a with stage := .sending, sending := true }
  | .sendEnds answer =>
    if a.stage ≠ .sending then a
    else { a.returns (settledBy a.entry.row.kind answer) with sent := some answer }
  | .throws message =>
    if a.stage = .returned then a
    else if a.sending then a.returns (.sendThrew message)
    else
      a.returns ⟨.retry, reasonResult (utf16 "executor_error") ++ [(utf16 "message", .string message)]⟩
  | .deadline =>
    if a.settled.isSome then a
    else
      { a.settle (if a.sending then ⟨.unknown, reasonResult (utf16 "send_timeout")⟩
          else .retry (utf16 "deadline_before_send")) with deadlinePassed := true }

/-! ## The machine -/

/-- What one tick did : nothing, or the entry it settled and the status it left. -/
abbrev TickResult := Option (JsString × ApprovalStatus)

/-- Where the executor's tick stands. -/
inductive Tick
  | idle (last : TickResult)
  | scanning (now retryDelay : Time) (heldKinds : List ApprovalKind)
      (candidates : List (JsString × ApprovalKind))
  | attempting (k : Nat)

/-- The store, the tick of the process that runs, and every attempt there was. -/
structure Machine where
  store : Store
  tick : Tick
  attempts : List Attempt

def Machine.empty : Machine :=
  ⟨Store.empty, .idle none, []⟩

def CANDIDATES_PER_TICK : Nat := 200

inductive Event
  | tick (now dedupWindow : Time)
  | candidate (db : EngineDb) (admits : ApprovalKind → ClaimCap)
  | attempt (k : Nat) (what : Happening)
  | finish (now : Time) (db : EngineDb)
  | death
  /-- Filings, decisions, stamps and sweeps. -/
  | elsewhere (call : Call)

/-- `claim` and `finish` are the executor's. -/
def Op.ofExecutor : Op → Bool
  | .claim _ _ | .finish _ _ _ => true
  | _ => false

variable (T : Texts)

namespace Machine

/-- The next candidate : claimed, or its kind held and the rest asked for again, or passed over. -/
def tryCandidate (m : Machine) (db : EngineDb) (admits : ApprovalKind → ClaimCap) : Machine :=
  match m.tick with
  | .scanning _ _ _ [] => { m with tick := .idle none }
  | .scanning now retryDelay heldKinds ((id, kind) :: candidates) =>
    let out := perform T m.store ⟨.claim id (some (admits kind)), now, db⟩
    match out.1 with
    | .claimed (.ok entry) =>
      ⟨out.2, .attempting m.attempts.length, m.attempts ++ [.ofClaim entry]⟩
    | .claimed .held =>
      let held := (perform T out.2 ⟨.holdKind kind, now, db⟩).2
      let heldKinds := heldKinds ++ [kind]
      { m with
        store := held
        tick := .scanning now retryDelay heldKinds
          (executable held now CANDIDATES_PER_TICK retryDelay heldKinds) }
    | _ => { m with store := out.2, tick := .scanning now retryDelay heldKinds candidates }
  | _ => m

/-- The settled attempt's outcome, written to its entry. -/
def finishAttempt (m : Machine) (now : Time) (db : EngineDb) : Machine :=
  match m.tick with
  | .attempting k =>
    match m.attempts[k]? with
    | none => m
    | some a =>
      match a.settled with
      | none => m
      | some settled =>
        let id := a.entry.row.id
        let out := perform T m.store ⟨.finish id settled.outcome settled.result, now, db⟩
        let status := match out.1 with
          | .finished (some status) => status
          | _ => ((out.2.find id).map Row.status).getD .unknown
        { m with store := out.2, tick := .idle (some (id, status)) }
  | _ => m

def step (m : Machine) : Event → Machine
  | .tick now dedupWindow =>
    match m.tick with
    | .idle _ =>
      let retryDelay := max APPROVAL_RETRY_DELAY_MS dedupWindow
      { m with tick :=
          .scanning now retryDelay [] (executable m.store now CANDIDATES_PER_TICK retryDelay []) }
    | _ => m
  | .candidate db admits => m.tryCandidate T db admits
  | .attempt k what =>
    { m with attempts := m.attempts.modify k fun a => if a.alive then a.step T m.store what else a }
  | .finish now db => m.finishAttempt T now db
  | .death =>
    { m with tick := .idle none, attempts := m.attempts.map fun a => { a with alive := false } }
  | .elsewhere call =>
    if call.op.ofExecutor then m else { m with store := (perform T m.store call).2 }

/-- The machine after the events. -/
def after (events : List Event) : Machine :=
  Run.after (step T) empty events

end Machine

end Lynox.Approvals
