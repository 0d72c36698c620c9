import Lynox.Text.Stringify
import Mathlib.Data.List.Dedup
import Mathlib.Data.List.Sort

/-!
# What is filed for approval

A filing is a reply or a new mail, with its origin : the run that wanted to send it. Both are kept
as JSON texts (`payloadJson`, `originJson`) and read back by `readFiling` and `readOrigin`, which take
nothing they do not know. `approvalKeys` gives the plain keys under which two filings are the same
mail.
-/

namespace Lynox.Approvals

open Text

inductive ApprovalKind
  | mailReply | mailSend
  deriving DecidableEq, Repr

def ApprovalKind.text : ApprovalKind → JsString
  | mailReply => utf16 "mail_reply"
  | mailSend => utf16 "mail_send"

/-- The sources a filing can come from. -/
def KNOWN_SOURCES : List JsString :=
  [utf16 "workflow", utf16 "task", utf16 "webhook"]

structure ApprovalOrigin where
  source : JsString
  triggerId : JsString
  runId : JsString
  rootRunId : JsString
  eventId : Option JsString
  threadId : Option JsString
  afterUntrusted : Option Bool

structure StoredAddress where
  name : Option JsString
  address : JsString

/-- The message a reply answers. -/
structure Original where
  sender : JsString
  toAddr : List JsString
  cc : List JsString
  replyTo : Option (List JsString)
  subject : JsString
  date : JsString

structure MailReplyPayload where
  accountId : JsString
  fromAddress : JsString
  toAddr : List StoredAddress
  cc : List StoredAddress
  subject : JsString
  bodyText : JsString
  inReplyTo : Option JsString
  references : Option JsString
  originalThreadKey : JsString
  originalMessageId : Option JsString
  originalFolderUid : JsString
  readAccountId : Option JsString
  original : Original
  persona : Option JsString

/-- A follow-up reminder; its days are a number as JSON has it. -/
structure ApprovalFollowup where
  reminderInDays : Int × Int
  reason : JsString
  type : Option JsString

structure MailSendPayload where
  accountId : JsString
  fromAddress : JsString
  toAddr : List StoredAddress
  cc : List StoredAddress
  bcc : List StoredAddress
  subject : JsString
  bodyText : JsString
  trackFollowup : Option ApprovalFollowup

inductive ApprovalFiling
  | mailReply (payload : MailReplyPayload)
  | mailSend (payload : MailSendPayload)

namespace ApprovalFiling

def kind : ApprovalFiling → ApprovalKind
  | mailReply _ => .mailReply
  | mailSend _ => .mailSend

def bodyText : ApprovalFiling → JsString
  | mailReply p => p.bodyText
  | mailSend p => p.bodyText

end ApprovalFiling

/-! ## As JSON -/

def StoredAddress.toValue (a : StoredAddress) : Value :=
  .object (optionalField "name" .string a.name ++ [(utf16 "address", .string a.address)])

def addresses (list : List StoredAddress) : Value :=
  .array (list.map StoredAddress.toValue)

def Original.toValue (o : Original) : Value :=
  .object ([(utf16 "from", .string o.sender), (utf16 "to", .strings o.toAddr),
    (utf16 "cc", .strings o.cc)] ++ optionalField "replyTo" .strings o.replyTo ++
    [(utf16 "subject", .string o.subject), (utf16 "date", .string o.date)])

def ApprovalFollowup.toValue (f : ApprovalFollowup) : Value :=
  .object ([(utf16 "reminder_in_days", .number f.reminderInDays.1 f.reminderInDays.2),
    (utf16 "reason", .string f.reason)] ++ optionalField "type" .string f.type)

def MailReplyPayload.toValue (p : MailReplyPayload) : Value :=
  .object ([(utf16 "accountId", .string p.accountId), (utf16 "fromAddress", .string p.fromAddress),
    (utf16 "to", addresses p.toAddr), (utf16 "cc", addresses p.cc),
    (utf16 "subject", .string p.subject), (utf16 "bodyText", .string p.bodyText)] ++
    optionalField "inReplyTo" .string p.inReplyTo ++
    optionalField "references" .string p.references ++
    [(utf16 "originalThreadKey", .string p.originalThreadKey)] ++
    optionalField "originalMessageId" .string p.originalMessageId ++
    [(utf16 "originalFolderUid", .string p.originalFolderUid)] ++
    optionalField "readAccountId" .string p.readAccountId ++
    [(utf16 "original", p.original.toValue)] ++ optionalField "persona" .string p.persona)

def MailSendPayload.toValue (p : MailSendPayload) : Value :=
  .object [(utf16 "accountId", .string p.accountId), (utf16 "fromAddress", .string p.fromAddress),
    (utf16 "to", addresses p.toAddr), (utf16 "cc", addresses p.cc), (utf16 "bcc", addresses p.bcc),
    (utf16 "subject", .string p.subject), (utf16 "bodyText", .string p.bodyText),
    (utf16 "trackFollowup", (p.trackFollowup.map ApprovalFollowup.toValue).getD .null)]

def ApprovalFiling.payloadJson : ApprovalFiling → JsString
  | mailReply p => p.toValue.write
  | mailSend p => p.toValue.write

def ApprovalOrigin.originJson (o : ApprovalOrigin) : JsString :=
  Value.write (.object ([(utf16 "source", .string o.source), (utf16 "triggerId", .string o.triggerId),
    (utf16 "runId", .string o.runId), (utf16 "rootRunId", .string o.rootRunId)] ++
    optionalField "eventId" .string o.eventId ++ optionalField "threadId" .string o.threadId ++
    optionalField "afterUntrusted" .bool o.afterUntrusted))

/-! ## Reading -/

def isString : Option Json → Option JsString
  | some (.string s) => some s
  | _ => none

/-- A text, or no such field. -/
def isOptionalString : Option Json → Option (Option JsString)
  | none => some none
  | some (.string s) => some (some s)
  | _ => none

def isStringList : Option Json → Option (List JsString)
  | some (.array items) => items.mapM fun v => isString (some v)
  | _ => none

def isAddress (v : Json) : Option StoredAddress := do
  let address ← isString (v.get "address")
  let name ← isOptionalString (v.get "name")
  return ⟨name, address⟩

def isAddressList : Option Json → Option (List StoredAddress)
  | some (.array items) => items.mapM isAddress
  | _ => none

/-- The origin names its trigger, its run and a source that is known, and no empty event. -/
def originIsComplete (o : ApprovalOrigin) : Bool :=
  o.source ∈ KNOWN_SOURCES && o.triggerId ≠ [] && o.runId ≠ [] && o.rootRunId ≠ [] &&
    o.eventId ≠ some []

def isOptionalBool : Option Json → Option (Option Bool)
  | none => some none
  | some (.bool b) => some (some b)
  | _ => none

def readOrigin (json : JsString) : Option ApprovalOrigin := do
  let o ← parse json
  let source ← isString (o.get "source")
  let triggerId ← isString (o.get "triggerId")
  let runId ← isString (o.get "runId")
  let rootRunId ← isString (o.get "rootRunId")
  let eventId ← isOptionalString (o.get "eventId")
  let threadId ← isOptionalString (o.get "threadId")
  let afterUntrusted ← isOptionalBool (o.get "afterUntrusted")
  let origin : ApprovalOrigin :=
    ⟨source, triggerId, runId, rootRunId, eventId, threadId, afterUntrusted⟩
  if originIsComplete origin then some origin else none

def FOLLOWUP_TYPES : List JsString :=
  [utf16 "awaiting_reply", utf16 "user_deliverable", utf16 "custom"]

/-- Null, or a follow-up. -/
def isFollowup : Option Json → Option (Option ApprovalFollowup)
  | some .null => some none
  | some v =>
    match v.get "reminder_in_days", isString (v.get "reason"), isOptionalString (v.get "type") with
    | some (.number mantissa exponent), some reason, some type =>
      if type.all (· ∈ FOLLOWUP_TYPES) then some (some ⟨(mantissa, exponent), reason, type⟩) else none
    | _, _, _ => none
  | none => none

def isOptionalStringList : Option Json → Option (Option (List JsString))
  | none => some none
  | v => (isStringList v).map some

def isOriginal (v : Json) : Option Original := do
  let sender ← isString (v.get "from")
  let toAddr ← isStringList (v.get "to")
  let cc ← isStringList (v.get "cc")
  let subject ← isString (v.get "subject")
  let date ← isString (v.get "date")
  let replyTo ← isOptionalStringList (v.get "replyTo")
  return ⟨sender, toAddr, cc, replyTo, subject, date⟩

/-- The stored payload, none where it does not fit its kind. -/
def readFiling (kind : ApprovalKind) (json : Option JsString) : Option ApprovalFiling := do
  let p ← json.bind parse
  let accountId ← isString (p.get "accountId")
  let fromAddress ← isString (p.get "fromAddress")
  let toAddr ← isAddressList (p.get "to")
  let cc ← isAddressList (p.get "cc")
  let subject ← isString (p.get "subject")
  let bodyText ← isString (p.get "bodyText")
  match kind with
  | .mailReply =>
    let originalThreadKey ← isString (p.get "originalThreadKey")
    let originalFolderUid ← isString (p.get "originalFolderUid")
    let inReplyTo ← isOptionalString (p.get "inReplyTo")
    let references ← isOptionalString (p.get "references")
    let originalMessageId ← isOptionalString (p.get "originalMessageId")
    let persona ← isOptionalString (p.get "persona")
    let readAccountId ← isOptionalString (p.get "readAccountId")
    let original ← (p.get "original").bind isOriginal
    return .mailReply ⟨accountId, fromAddress, toAddr, cc, subject, bodyText, inReplyTo, references,
      originalThreadKey, originalMessageId, originalFolderUid, readAccountId, original, persona⟩
  | .mailSend =>
    let bcc ← isAddressList (p.get "bcc")
    let trackFollowup ← isFollowup (p.get "trackFollowup")
    return .mailSend ⟨accountId, fromAddress, toAddr, cc, bcc, subject, bodyText, trackFollowup⟩

/-! ## Keys -/

/-- What the language gives and this development does not spell out : the lower case of a text, and
the sha256 of bytes in hexadecimal digits. -/
structure Texts where
  toLowerCase : JsString → JsString
  sha256 : Bytes → JsString

/-- Addresses in lower case, without blanks around them, each once, sorted. -/
def recipientList (T : Texts) (lists : List (List StoredAddress)) : List JsString :=
  ((lists.flatten.map fun a => trim (T.toLowerCase a.address)).eraseDups).mergeSort
    fun s t => decide (s ≤ t)

def comparableSubject (T : Texts) (s : JsString) : JsString :=
  T.toLowerCase (trim s)

/-- The message a reply answers, by its id, else by where it lies. -/
def MailReplyPayload.message (p : MailReplyPayload) : JsString :=
  match p.originalMessageId with
  | none => p.originalFolderUid
  | some id => if id = [] then p.originalFolderUid else id

def MailSendPayload.recipients (T : Texts) (p : MailSendPayload) : List JsString :=
  recipientList T [p.toAddr, p.cc, p.bcc]

structure Keys where
  dedupKey : JsString
  familyKey : Option JsString

def approvalKeys (T : Texts) (filing : ApprovalFiling) (origin : ApprovalOrigin) : Keys :=
  match filing with
  | .mailReply p =>
    ⟨Value.write (.strings [utf16 "mail_reply", p.accountId, p.message]), none⟩
  | .mailSend p =>
    let recipients := p.recipients T
    let subject := comparableSubject T p.subject
    let body := T.sha256 (utf8 p.bodyText)
    let event := origin.eventId.getD origin.runId
    ⟨Value.write (.array [.string (utf16 "mail_send"), .string event, .strings recipients,
      .string subject, .string body]),
      some (Value.write (.array [.string (utf16 "mail_send"), .string p.accountId,
        .strings recipients, .string subject]))⟩

end Lynox.Approvals
