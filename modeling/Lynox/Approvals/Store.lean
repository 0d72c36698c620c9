import Lynox.Approvals.Filing
import Lynox.Data.Table
import Lynox.Process.Run

/-!
# The approval queue's store

A row of `approval_entries` binds a mail that a run wanted to send. Each operation is the statements
of its transaction : `file` inserts, `decide` writes the owner's word, `hold` and `holdKind` stamp,
`claim` and `finish` are the executor's, and `sweep` expires, marks, tombstones and deletes.

Times are milliseconds. A stored time is the ISO text of one; the texts of years with four digits are
ordered as their times and read back as them, so a stored time is modelled by its time. Texts at rest
are sealed under the vault key, where there is one : another key does not open them. The digest is any
function of the key and the parts. An id is drawn once : `drawn` holds those that were.
-/

namespace Lynox.Approvals

open Text

abbrev Time := Int

inductive ApprovalStatus
  | pending | approved | executing | done | failed | unknown | rejected | expired
  deriving DecidableEq, Repr

/-! ## The engine's key -/

/-- A text as stored : in the clear, or sealed under a key. -/
inductive AtRest
  | plain (text : JsString)
  | sealed (key : Bytes) (text : JsString)
  deriving DecidableEq

/-- The engine : its vault key, and the digest of parts with a key or without one. -/
structure EngineDb where
  vaultKey : Option Bytes
  digest : Option Bytes → List JsString → JsString

namespace EngineDb

def enc (db : EngineDb) (text : JsString) : AtRest :=
  match db.vaultKey with
  | none => .plain text
  | some key => if text = [] then .plain text else .sealed key text

def tryDec (db : EngineDb) : AtRest → Option JsString
  | .plain text => some text
  | .sealed key text => if db.vaultKey = some key then some text else none

def hashIsKeyed (db : EngineDb) : Bool :=
  db.vaultKey.isSome

def keyedHash (db : EngineDb) (parts : List JsString) : JsString :=
  db.digest db.vaultKey parts

end EngineDb

/-! ## Rows -/

inductive Binding
  | keyed | unkeyed
  deriving DecidableEq, Repr

/-- A row of `approval_entries`. -/
structure Row where
  id : JsString
  kind : ApprovalKind
  payloadJson : AtRest
  originJson : JsString
  dedupKey : JsString
  familyKey : Option JsString
  checksum : JsString
  binding : Binding
  createdBy : Option JsString
  mandateId : Option JsString
  status : ApprovalStatus
  heldReason : Option JsString
  heldAt : Option Time
  createdAt : Time
  expiresAt : Time
  decidedAt : Option Time
  decidedBy : Option JsString
  decidedReason : Option JsString
  claimedAt : Option Time
  executedAt : Option Time
  attempts : Nat
  resultJson : Option AtRest
  purgeAfter : Option Time
  tombstonedAt : Option Time
  deriving DecidableEq

/-- `status IN ('pending', 'approved', 'executing', 'unknown')`. -/
def ApprovalStatus.active : ApprovalStatus → Bool
  | pending | approved | executing | unknown => true
  | done | failed | rejected | expired => false

/-- The rows, and the ids that were drawn. -/
structure Store where
  rows : List Row
  drawn : List JsString

def Store.empty : Store :=
  ⟨[], []⟩

/-- The row of an id. -/
def Store.find (s : Store) (id : JsString) : Option Row :=
  Table.find Row.id s.rows id

/-- An `UPDATE` of the row `id` where `p` : whether a row matched, and the store after it. -/
def Store.update (s : Store) (id : JsString) (p : Row → Bool) (f : Row → Row) : Bool × Store :=
  (s.rows.any fun r => r.id = id && p r,
    { s with rows := s.rows.map fun r => if r.id = id && p r then f r else r })

/-- An entry as it is read : its row, and what its texts say. -/
structure ApprovalEntry where
  row : Row
  filing : Option ApprovalFiling
  origin : Option ApprovalOrigin
  resultJson : Option JsString

def ApprovalEntry.executable (e : ApprovalEntry) : Bool :=
  e.filing.isSome && e.origin.isSome

def toEntry (db : EngineDb) (r : Row) : ApprovalEntry :=
  ⟨r, readFiling r.kind (db.tryDec r.payloadJson), readOrigin r.originJson,
    r.resultJson.bind db.tryDec⟩

def APPROVAL_TTL_MS : Time := 72 * 60 * 60000
def APPROVAL_CLAIM_WINDOW_MS : Time := 60 * 60000
def APPROVAL_CLAIM_STALE_MS : Time := 15 * 60000
def APPROVAL_PURGE_AFTER_MS : Time := 30 * 24 * 60 * 60000
def APPROVAL_MAX_ATTEMPTS : Nat := 3
def APPROVAL_MAX_BODY_BYTES : Nat := 64 * 1024
def APPROVAL_MAX_PAYLOAD_BYTES : Nat := 96 * 1024
def APPROVAL_RETRY_DELAY_MS : Time := 60000

/-- How long a sent or discarded entry keeps refusing the same mail. -/
def APPROVAL_DEDUP_WINDOW_MS : ApprovalKind → Time
  | .mailReply => 14 * 24 * 60 * 60000
  | .mailSend => 24 * 60 * 60000

/-- A stored time has been reached. -/
def reached (stored now : Time) : Bool :=
  !(now < stored)

def checksumOf (db : EngineDb) (kind : ApprovalKind) (payloadJson originJson : JsString) : JsString :=
  db.keyedHash [utf16 "approval-entry-v1", kind.text, payloadJson, originJson]

def storedKey (db : EngineDb) (plain : JsString) : JsString :=
  db.keyedHash [utf16 "approval-dedup-v1", plain]

/-- What an attempt ended with, as it is stored. -/
abbrev Result := List (JsString × Value)

def storedResult (db : EngineDb) (result : Result) : AtRest :=
  db.enc (Value.write (.object result))

def reasonResult (reason : JsString) : Result :=
  [(utf16 "reason", .string reason)]

/-! ## Filing -/

structure FileApprovalInput where
  filing : ApprovalFiling
  origin : ApprovalOrigin
  createdBy : Option JsString
  mandateId : Option JsString
  maxPendingPerTrigger : Option Nat

inductive DuplicateReason
  | waiting | unknown | sent | discarded | familyOpen
  deriving DecidableEq, Repr

inductive FileResult
  | ok (id : JsString)
  | duplicate (reason : DuplicateReason) (existingId : JsString)
  | invalidOrigin
  | flood (pending : Nat)
  | tooLarge
  deriving DecidableEq

/-- The first row of an order that prefers `better` ones. -/
def firstBy (better : Row → Row → Bool) (rows : List Row) : Option Row :=
  rows.foldl (fun best r => match best with
    | none => some r
    | some b => if better r b then some r else some b) none

/-- `ORDER BY status = 'unknown' DESC, created_at DESC`. -/
def unknownThenNewest (r b : Row) : Bool :=
  if (r.status = .unknown) = (b.status = .unknown) then b.createdAt < r.createdAt
  else r.status = .unknown

/-- `ORDER BY created_at DESC`. -/
def newest (r b : Row) : Bool :=
  b.createdAt < r.createdAt

/-- Sent since, or discarded since and not cleared. -/
def endedSince (windowStart : Time) (r : Row) : Bool :=
  (r.status = .done && r.executedAt.any (windowStart < ·)) ||
    (r.status = .rejected && r.decidedAt.any (windowStart < ·) &&
      r.decidedReason ≠ some (utf16 "cleared_unknown"))

/-- The entry a filing would double. -/
def duplicate (rows : List Row) (dedupKey : JsString) (familyKey : Option JsString)
    (windowStart : Time) : Option FileResult :=
  match rows.find? fun r => r.dedupKey = dedupKey && r.status.active with
  | some r => some (.duplicate (if r.status = .unknown then .unknown else .waiting) r.id)
  | none =>
    let family := match familyKey with
      | none => none
      | some key =>
        firstBy unknownThenNewest (rows.filter fun r => r.familyKey = some key && r.status.active)
    match family with
    | some r => some (.duplicate (if r.status = .unknown then .unknown else .familyOpen) r.id)
    | none =>
      let same (r : Row) : Bool := match familyKey with
        | none => r.dedupKey = dedupKey
        | some key => r.familyKey = some key
      (firstBy newest (rows.filter fun r => same r && endedSince windowStart r)).map fun r =>
        .duplicate (if r.status = .done then .sent else .discarded) r.id

/-- `json_extract(origin_json, '$.triggerId')`. -/
def triggerOf (originJson : JsString) : Option JsString :=
  (parse originJson).bind fun o => isString (o.get "triggerId")

def filedRow (db : EngineDb) (T : Texts) (id : JsString) (input : FileApprovalInput) (now : Time) :
    Row :=
  let keys := approvalKeys T input.filing input.origin
  let payloadJson := input.filing.payloadJson
  let originJson := input.origin.originJson
  { id := id
    kind := input.filing.kind
    payloadJson := db.enc payloadJson
    originJson := originJson
    dedupKey := storedKey db keys.dedupKey
    familyKey := keys.familyKey.map (storedKey db)
    checksum := checksumOf db input.filing.kind payloadJson originJson
    binding := if db.hashIsKeyed then .keyed else .unkeyed
    createdBy := input.createdBy
    mandateId := input.mandateId
    status := .pending
    heldReason := none
    heldAt := none
    createdAt := now
    expiresAt := now + APPROVAL_TTL_MS
    decidedAt := none
    decidedBy := none
    decidedReason := none
    claimedAt := none
    executedAt := none
    attempts := 0
    resultJson := none
    purgeAfter := none
    tombstonedAt := none }

/-- File an entry under an id that was drawn for it, or refuse it. -/
def file (db : EngineDb) (T : Texts) (s : Store) (id : JsString) (input : FileApprovalInput)
    (now : Time) : FileResult × Store :=
  if !originIsComplete input.origin then (.invalidOrigin, s)
  else if APPROVAL_MAX_BODY_BYTES < byteLength input.filing.bodyText then (.tooLarge, s)
  else if APPROVAL_MAX_PAYLOAD_BYTES < byteLength input.filing.payloadJson then (.tooLarge, s)
  else
    let row := filedRow db T id input now
    let windowStart := now - APPROVAL_DEDUP_WINDOW_MS input.filing.kind
    match duplicate s.rows row.dedupKey row.familyKey windowStart with
    | some refused => (refused, s)
    | none =>
      let pending := s.rows.countP fun r =>
        r.status = .pending && triggerOf r.originJson = some input.origin.triggerId
      if input.maxPendingPerTrigger.any (· ≤ pending) then (.flood pending, s)
      else (.ok id, ⟨s.rows ++ [row], id :: s.drawn⟩)

/-! ## Deciding -/

/-- Why an entry is discarded. -/
inductive RejectReason
  | owner | movedToChat | mandateEnded
  deriving DecidableEq, Repr

def RejectReason.text : RejectReason → JsString
  | owner => utf16 "owner"
  | movedToChat => utf16 "moved_to_chat"
  | mandateEnded => utf16 "mandate_ended"

inductive DecideAction
  | approve (checksum : JsString)
  | reject (reason : RejectReason)
  | clearUnknown
  deriving DecidableEq

inductive DecideResult
  | ok | notFound | notPending | notUnknown | expired | checksum | notExecutable
  deriving DecidableEq, Repr

/-- The stored payload is the one filed. -/
def checksumMatches (db : EngineDb) (s : Store) (id : JsString) : Bool :=
  match s.find id with
  | none => false
  | some r =>
    match db.tryDec r.payloadJson with
    | none => false
    | some payloadJson => checksumOf db r.kind payloadJson r.originJson = r.checksum

def Row.reject (decidedBy reason : JsString) (now : Time) (r : Row) : Row :=
  { r with
    status := .rejected
    decidedAt := some now
    decidedBy := some decidedBy
    decidedReason := some reason
    purgeAfter := some (now + APPROVAL_PURGE_AFTER_MS) }

def Row.approve (decidedBy : JsString) (now : Time) (r : Row) : Row :=
  { r with
    status := .approved
    decidedAt := some now
    decidedBy := some decidedBy
    decidedReason := none }

/-- An update that took its row, or the answer it gives where it took none. -/
def took (out : Bool × Store) (otherwise : DecideResult) : DecideResult × Store :=
  if out.1 then (.ok, out.2) else (otherwise, out.2)

/-- The owner's decision. -/
def Store.decide (db : EngineDb) (s : Store) (id : JsString) (action : DecideAction)
    (decidedBy : JsString) (now : Time) : DecideResult × Store :=
  match s.find id with
  | none => (.notFound, s)
  | some r =>
    match action with
    | .clearUnknown =>
      if r.tombstonedAt.isSome then
        (if r.status = .unknown then .ok else .notUnknown,
          { s with rows := s.rows.filter fun r => !(r.id = id && r.status = .unknown) })
      else
        took (s.update id (·.status = .unknown)
          (Row.reject decidedBy (utf16 "cleared_unknown") now)) .notUnknown
    | .reject reason =>
      if r.status ≠ .pending then (.notPending, s)
      else took (s.update id (·.status = .pending) (Row.reject decidedBy reason.text now)) .notPending
    | .approve checksum =>
      if r.status ≠ .pending then (.notPending, s)
      else if reached r.expiresAt now then (.expired, s)
      else if !(toEntry db r).executable then (.notExecutable, s)
      else if checksum ≠ r.checksum ∨ !checksumMatches db s id then (.checksum, s)
      else
        took (s.update id (fun r => r.status = .pending && r.checksum = checksum)
          (Row.approve decidedBy now)) .notPending

/-! ## The executor's operations -/

def Row.hold (reason : JsString) (now : Time) (r : Row) : Row :=
  { r with heldReason := some reason, heldAt := some now }

/-- A stamp on an approved entry. -/
def hold (s : Store) (id reason : JsString) (now : Time) : Bool × Store :=
  s.update id (·.status = .approved) (Row.hold reason now)

/-- `ORDER BY decided_at ASC, id ASC`. -/
def decidedFirst (r r' : Row) : Bool :=
  if r.decidedAt = r'.decidedAt then r.id ≤ r'.id
  else match r.decidedAt, r'.decidedAt with
    | none, _ => true
    | some _, none => false
    | some t, some t' => t < t'

/-- The approved entries the executor may try, in the order they were approved. -/
def executable (s : Store) (now : Time) (limit : Nat) (retryDelay : Time) (skip : List ApprovalKind) :
    List (JsString × ApprovalKind) :=
  let may (r : Row) : Bool :=
    r.status = .approved && r.kind ∉ skip &&
      (r.heldReason = none || r.heldReason = some (utf16 "send_limit") ||
        (r.heldReason = some (utf16 "retry") && r.heldAt.any (· ≤ now - retryDelay)))
  (((s.rows.filter may).mergeSort decidedFirst).take limit).map fun r => (r.id, r.kind)

/-- The send limit's hold on every approved entry of a kind that has none and has not expired. -/
def holdKind (s : Store) (kind : ApprovalKind) (now : Time) : Nat × Store :=
  let takes (r : Row) : Bool :=
    r.status = .approved && r.kind = kind && r.heldReason = none && !reached r.expiresAt now
  (s.rows.countP takes,
    { s with rows := s.rows.map fun r => if takes r then r.hold (utf16 "send_limit") now else r })

/-- The send limit a claim checks : from how many were claimed within the hour and the day, whether
one more may go. -/
structure ClaimCap where
  admits : (hour day : Nat) → Bool

inductive ClaimResult
  | ok (entry : ApprovalEntry)
  | notClaimable | expired | notExecutable | held

def Row.claim (now : Time) (r : Row) : Row :=
  { r with
    status := .executing
    claimedAt := some now
    attempts := r.attempts + 1
    heldReason := none
    heldAt := none }

/-- How many entries of a kind were claimed since. -/
def claimedSince (s : Store) (kind : ApprovalKind) (since : Time) : Nat :=
  s.rows.countP fun r => r.kind = kind &&
    (r.status = .executing || r.status = .done || r.status = .unknown) && r.claimedAt.any (since < ·)

/-- The executor's claim, before any side effect. -/
def claim (db : EngineDb) (s : Store) (id : JsString) (now : Time) (cap : Option ClaimCap) :
    ClaimResult × Store :=
  match s.find id with
  | none => (.notClaimable, s)
  | some r =>
    if r.status ≠ .approved then (.notClaimable, s)
    else if reached r.expiresAt now then (.expired, s)
    else if !(toEntry db r).executable then (.notExecutable, s)
    else if cap.any fun cap => !cap.admits (claimedSince s r.kind (now - 60 * 60000))
        (claimedSince s r.kind (now - 24 * 60 * 60000)) then
      (.held, (s.update id (·.status = .approved) (Row.hold (utf16 "send_limit") now)).2)
    else
      let out := s.update id (·.status = .approved) (Row.claim now)
      if out.1 then
        match out.2.find id with
        | none => (.notClaimable, out.2)
        | some r => (.ok (toEntry db r), out.2)
      else (.notClaimable, out.2)

inductive FinishOutcome
  | done | failed | unknown | retry
  deriving DecidableEq, Repr

/-- A result says that a matching mail went out shortly before. -/
def approvalResultSawDedup (plain : Option JsString) : Bool :=
  match plain.bind parse with
  | none => false
  | some v =>
    isString (v.get "reason") == some (utf16 "dedup_window") ||
      match v.get "dedupSeen" with
      | some (.bool true) => true
      | _ => false

def resultReadable (plain : Option JsString) : Bool :=
  match plain.bind parse with
  | some (.object _) | some (.array _) => true
  | _ => false

def withDedupSeen (result : Result) : Result :=
  if result.any (·.1 = utf16 "dedupSeen") then
    result.map fun f => if f.1 = utf16 "dedupSeen" then (f.1, .bool true) else f
  else result ++ [(utf16 "dedupSeen", .bool true)]

/-- The result an attempt stores : marked where a matching mail was seen, now or before. -/
def attemptResult (db : EngineDb) (r : Row) (result : Result) : AtRest :=
  let previous := r.resultJson.bind db.tryDec
  let sawDedup := (r.resultJson.isSome && !resultReadable previous) ||
    approvalResultSawDedup previous || approvalResultSawDedup (some (Value.write (.object result)))
  storedResult db (if sawDedup then withDedupSeen result else result)

def Row.retry (result : AtRest) (now : Time) (r : Row) : Row :=
  { r with
    status := .approved
    claimedAt := none
    heldReason := some (utf16 "retry")
    heldAt := some now
    resultJson := some result }

def Row.settle (status : ApprovalStatus) (result : AtRest) (now : Time) (r : Row) : Row :=
  { r with
    status := status
    executedAt := some now
    resultJson := some result
    purgeAfter := some (now + APPROVAL_PURGE_AFTER_MS) }

/-- The status an outcome ends in once no attempt is left. -/
def FinishOutcome.status : FinishOutcome → ApprovalStatus
  | done => .done
  | failed | retry => .failed
  | unknown => .unknown

/-- The executor's outcome for an entry it claimed. -/
def finish (db : EngineDb) (s : Store) (id : JsString) (outcome : FinishOutcome) (result : Result)
    (now : Time) : Option ApprovalStatus × Store :=
  match s.rows.find? fun r => r.id = id && r.status = .executing with
  | none => (none, s)
  | some r =>
    let stored := attemptResult db r result
    if outcome = .retry ∧ r.attempts < APPROVAL_MAX_ATTEMPTS then
      (some .approved, (s.update id (·.status = .executing) (Row.retry stored now)).2)
    else
      (some outcome.status,
        (s.update id (·.status = .executing) (Row.settle outcome.status stored now)).2)

/-! ## The sweep -/

structure SweepInput where
  engineStartedAt : Time
  flagOn : Bool

def Row.expire (db : EngineDb) (reason : JsString) (now : Time) (r : Row) : Row :=
  { r with
    status := .expired
    resultJson := some (storedResult db (reasonResult reason))
    purgeAfter := some (now + APPROVAL_PURGE_AFTER_MS) }

/-- A pending entry expires at its expiry. -/
def sweepPending (db : EngineDb) (now : Time) (r : Row) : Row :=
  if r.status = .pending ∧ reached r.expiresAt now then r.expire db (utf16 "ttl") now else r

/-- The claim window has passed, from the decision or the engine's start; a decision without a time
has no window. -/
def windowPassed (input : SweepInput) (now : Time) (r : Row) : Bool :=
  match r.decidedAt with
  | none => true
  | some t => reached (max t input.engineStartedAt + APPROVAL_CLAIM_WINDOW_MS) now

/-- An approved entry expires at its expiry, and where nothing holds it with the claim window. -/
def sweepApproved (db : EngineDb) (input : SweepInput) (now : Time) (r : Row) : Row :=
  if r.status ≠ .approved then r
  else
    match r.heldReason, input.flagOn with
    | some reason, true => if reached r.expiresAt now then r.expire db reason now else r
    | _, _ =>
      if windowPassed input now r || reached r.expiresAt now then
        r.expire db (utf16 (if input.flagOn then "claim_window" else "flag_off")) now
      else r

def Row.stale (db : EngineDb) (now : Time) (r : Row) : Row :=
  { r with
    status := .unknown
    resultJson := some (storedResult db (reasonResult (utf16 "stale_claim")))
    purgeAfter := some (now + APPROVAL_PURGE_AFTER_MS) }

/-- A claim past the stale limit, or without a time, is of unknown outcome. -/
def sweepExecuting (db : EngineDb) (now : Time) (r : Row) : Row :=
  if r.status = .executing ∧ ¬ r.claimedAt.any (fun t => now < t + APPROVAL_CLAIM_STALE_MS) then
    r.stale db now
  else r

def Row.tombstone (now : Time) (r : Row) : Row :=
  { r with
    payloadJson := .plain []
    resultJson := none
    purgeAfter := none
    tombstonedAt := some now }

/-- A row at its time to go : a tombstone where its outcome is unknown and its keys are keyed. -/
def sweepDue (now : Time) (r : Row) : Option Row :=
  if r.tombstonedAt = none ∧ r.purgeAfter.any (reached · now) then
    if r.status = .unknown ∧ r.binding = .keyed then some (r.tombstone now) else none
  else some r

structure SweepCounts where
  expired : Nat
  unknown : Nat
  tombstoned : Nat
  purged : Nat
  deriving DecidableEq, Repr

def sweep (db : EngineDb) (s : Store) (input : SweepInput) (now : Time) : SweepCounts × Store :=
  let rows₁ := s.rows.map (sweepPending db now)
  let rows₂ := rows₁.map (sweepApproved db input now)
  let rows₃ := rows₂.map (sweepExecuting db now)
  let rows₄ := rows₃.filterMap (sweepDue now)
  let count (status : ApprovalStatus) (rows : List Row) := rows.countP (·.status = status)
  ({ expired := count .expired rows₂ - count .expired s.rows
     unknown := count .unknown rows₃ - count .unknown rows₂
     tombstoned := rows₄.countP (·.tombstonedAt.isSome) - rows₃.countP (·.tombstonedAt.isSome)
     purged := rows₃.length - rows₄.length },
    { s with rows := rows₄ })

/-! ## Runs -/

inductive Op
  | file (id : JsString) (input : FileApprovalInput)
  | decide (id : JsString) (action : DecideAction) (decidedBy : JsString)
  | hold (id reason : JsString)
  | holdKind (kind : ApprovalKind)
  | claim (id : JsString) (cap : Option ClaimCap)
  | finish (id : JsString) (outcome : FinishOutcome) (result : Result)
  | sweep (input : SweepInput)

/-- An operation, when it is made and with which key. -/
structure Call where
  op : Op
  now : Time
  db : EngineDb

inductive Answer
  | filed (result : FileResult)
  | decided (result : DecideResult)
  | held (took : Bool)
  | heldKind (stamped : Nat)
  | claimed (result : ClaimResult)
  | finished (status : Option ApprovalStatus)
  | swept (counts : SweepCounts)
  /-- The id had been drawn before : it was not drawn again. -/
  | notDrawn

variable (T : Texts)

/-- What a call answers, and the store after it. -/
def perform (s : Store) (c : Call) : Answer × Store :=
  match c.op with
  | .file id input =>
    if id ∈ s.drawn then (.notDrawn, s)
    else
      let out := file c.db T s id input c.now
      (.filed out.1, out.2)
  | .decide id action decidedBy =>
    let out := Store.decide c.db s id action decidedBy c.now
    (.decided out.1, out.2)
  | .hold id reason =>
    let out := hold s id reason c.now
    (.held out.1, out.2)
  | .holdKind kind =>
    let out := holdKind s kind c.now
    (.heldKind out.1, out.2)
  | .claim id cap =>
    let out := claim c.db s id c.now cap
    (.claimed out.1, out.2)
  | .finish id outcome result =>
    let out := finish c.db s id outcome result c.now
    (.finished out.1, out.2)
  | .sweep input =>
    let out := sweep c.db s input c.now
    (.swept out.1, out.2)

/-- The store after the calls. -/
def after (calls : List Call) : Store :=
  Run.after (fun s c => (perform T s c).2) Store.empty calls

end Lynox.Approvals
