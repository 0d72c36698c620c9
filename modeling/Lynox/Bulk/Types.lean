import Mathlib.Data.Rat.Defs
import Mathlib.Data.Nat.Notation

/-!
# Runs, targets and images of the bulk ledger

The vocabulary of `bulk-ledger.ts` : phases, changes, halt reasons and error codes as the
fixed sets the source fixes them to, and the two rows of the ledger, `Target` and `Run`,
with the columns its functions read and write. Encrypted columns hold their plaintext :
every reader decrypts what every writer encrypted.

A value of a target is a JSON value up to its canonical text (`canonicalJson` sorts the
keys of an object), so two values are equal exactly when `sameValue` without HTML fields
says so. Images are stored as JSON texts, as the columns `before` and `after_planned` are,
and read back through `Json`.

`Deps` collects the functions the ledger and the effect call in other modules and in
packages : the keyed hash, the clock's text order, the parsers of a contract and of a list
source, HTML canonicalisation. Nothing is assumed of them here.
-/

namespace Lynox.Bulk

/-! ## Fixed vocabularies -/

/-- Where a run stands. A local dry run starts `previewed`, an external one `planned`. -/
inductive Phase
  | planned | previewed | approved | writing | done | aborted | undone
  deriving DecidableEq, Repr

/-- What a run does to a target. `delete` is planned by an undo only. -/
inductive Change
  | update | create | delete | unchanged | invalid
  deriving DecidableEq, Repr

inductive RunKind
  | apply | undo
  deriving DecidableEq, Repr

/-- How a target can be taken back; a run of both kinds is `mixed`. -/
inductive UndoKind
  | restorable | compensatable | none | mixed
  deriving DecidableEq, Repr

inductive ListState
  | pending | done
  deriving DecidableEq, Repr

/-- Where a list of targets is read from. -/
inductive ListForm
  | shopify | shopifyMedia | shopifyFiltered | woocommerce
  deriving DecidableEq, Repr

inductive ShopifyWriteForm
  | shopifyProduct | shopifyMediaAlt
  deriving DecidableEq, Repr

/-- Why a target could not be planned. -/
inductive InvalidReason
  | pathOutsideWorkspace | unreadable | targetTooLarge | afterNotText | notText
  | unknownColumn | subjectColumn | badValue | badKey | badUrl | afterNotObject
  | fieldNotScalar | fieldMissing | beforeNotObject | notFound | redirect | notJson
  | readFailed | secretInAfter | secretInTarget | mailApi | effectField
  | listItemNotObject | listItemNoId | listItemBadId | listItemOutsideList
  | listItemMismatch | listItemTruncated | notInFilter | shopAddedMarkup
  | secretInBefore | secretInContext | cutOff | verdictInvalid | verdictWithoutAfter
  | markupInText | seoTextRefused | hiddenChar | elementNotAllowed | attributeNotAllowed
  | contentChanged | commentAdded | newImg | newLinkDomain | urlScheme | urlControlChar
  | notCanonical | markupDropped | markupDroppedBefore | shortcodeChanged
  deriving DecidableEq, Repr

/-- Why a target was not written. -/
inductive TargetError
  | conflict | writeFailed | pathChanged | redirect | secret | sentUnknown
  deriving DecidableEq, Repr

/-- The column `error` : a plan-time reason or a failure of the write. -/
inductive ErrorCode
  | invalid (reason : InvalidReason)
  | target (error : TargetError)
  deriving DecidableEq, Repr

/-- Why a run stopped short. -/
inductive HaltReason
  | awaitingStart | failureRate | consecutiveFailures | timeBudget | expired | checksum
  | maxTargets | probeRequired | atomicRolledBack | atomicRollbackIncomplete
  | atomicStoppedRolledBack | atomicStoppedRollbackIncomplete | atomicTimeRolledBack
  | atomicTimeRollbackIncomplete | unavailable | credential | unauthorized | blocked
  | contract | stoppedByOwner | mandateEnded | unrecorded | runUnrecorded | listed
  | listNotAList | listUnreadable | listTooLarge | listNoProgress | listFormWithdrawn
  | listFilterWithdrawn | listOrder | listReadFailed | shopInactive | formCost
  | shopifyReadOff | shopifyWriteOff | markupAddedByShop | superseded | costCap
  | spendLimit | creditRefused | judgeModel
  deriving DecidableEq, Repr

/-- Who planned a run. A mandate's tag is its e-mail address behind a prefix. -/
inductive RequestPrincipal
  | owner
  | mandate (email : String) (mandateId : Option String)
  | cpAdmin
  deriving DecidableEq, Repr

/-- The connection a request carried, and the grant it held. -/
structure AttachedConnection where
  id : String
  grantId : Option String
  deriving DecidableEq, Repr

/-! ## Values and images -/

/-- What a target holds : nothing, or a value. -/
inductive Image (V : Type)
  | absent
  | value (v : V)
  deriving DecidableEq, Repr

/-- What an external target held right after it was written. -/
structure ActualImage (V : Type) where
  value : V
  estimated : Bool
  deriving DecidableEq, Repr

/-- JSON texts of values and images. Parsing a text that was written gives back what was
written. -/
structure Json (V : Type) where
  imageText : Image V → String
  imageOf : String → Image V
  valueText : V → String
  valueOf : String → V
  actualText : ActualImage V → String
  actualOf : String → ActualImage V
  imageOf_imageText : ∀ i, imageOf (imageText i) = i
  valueOf_valueText : ∀ v, valueOf (valueText v) = v
  actualOf_actualText : ∀ a, actualOf (actualText a) = a

attribute [simp] Json.imageOf_imageText Json.valueOf_valueText Json.actualOf_actualText

/-- A value read back after it was sent : kept, stored otherwise, or with markup added. -/
inductive ReadBack
  | kept | rewritten | added
  deriving DecidableEq, Repr

/-- Milliseconds. A column holds the ISO text of one. -/
abbrev Time := Int

/-- What the ledger and the effect call in other modules and packages. -/
structure Deps (V : Type) where
  json : Json V
  /-- `keyedHash` of a list of parts. -/
  keyedHash : List String → String
  /-- Whether the ISO text of the first time sorts before that of the second. -/
  isoBefore : Time → Time → Bool
  /-- Whether the first text sorts before the second, by UTF-16 code units. -/
  textBefore : String → String → Bool
  /-- The members of an object, `none` for any other value. -/
  fields : V → Option (List (String × V))
  object : List (String × V) → V
  /-- The text of a string, `none` for any other value. -/
  text : V → Option String
  ofText : String → V
  /-- The canonical text of a value. -/
  canonicalJson : V → String
  canonicalHtml : String → String
  htmlEqual : String → String → Bool
  endsClosed : String → Bool
  droppedTagsOf : String → List String
  shopifySavedForm : V → Option String → V
  shopifyPairedAfter : V → V → V
  /-- The members of a value read over a list of fields, `none` where it lacks one. -/
  beforeOverFields : V → List String → Option V
  /-- The title a read answered, for a form whose store saves a value in its own way. -/
  titleOf : V → Option String
  /-- What a read-back holds against the value sent. -/
  readBack : V → V → ReadBack
  isMailProviderTarget : String → Bool
  isMeasuredWriteForm : String → String → String → Bool
  isShopifyStoreHostName : String → Bool
  /-- The one verb a stored contract grants besides GET. -/
  parseContractMethods : String → Option String
  parseContractPaths : String → List String
  /-- The form of a stored list source. -/
  listFormOf : String → ListForm
  /-- The after-state a stored list source plans its targets with. -/
  listAfterOf : String → V
  /-- The path of a URL, `none` where it does not parse. -/
  pathnameOf : String → Option String
  /-- Why a stored judge rule would be refused today, with the list source it stands on. -/
  judgeRuleRefusal : String → Option String → Option String
  /-- The most bytes a verdict under a stored judge rule may take. -/
  judgeAfterBound : String → ℕ
  normalizeStartDomains : List String → Option (List String)
  startDomainsText : List String → String
  startDomainsOf : String → List String

/-! ## The two rows -/

/-- A row of `bulk_targets`. -/
structure Target where
  seq : ℕ
  targetKey : String
  change : Change
  undo : Option UndoKind := none
  before : Option String := none
  afterPlanned : Option String := none
  afterActual : Option String := none
  context : Option String := none
  claimedAt : Option Time := none
  appliedAt : Option Time := none
  result : Option String := none
  error : Option ErrorCode := none
  undoneAt : Option Time := none
  sourceSeq : Option ℕ := none
  deselectedAt : Option Time := none
  writeSent : Bool := false
  unknownSends : ℕ := 0
  foundUnsent : Bool := false
  failedOnce : Option Bool := some false
  shopAddedMarkup : Bool := false
  hostRewrote : Bool := false
  readConnectionId : Option String := none
  readGrantId : Option String := none
  writeConnectionId : Option String := none
  writeGrantId : Option String := none
  judgedAt : Option Time := none
  judgeClaimedAt : Option Time := none
  judgeClaimToken : Option String := none
  contextSecretField : Option ℕ := none
  linkDomain : Option String := none
  deriving DecidableEq, Repr

/-- A row of `bulk_runs` with its targets, in the order of their `seq`. No two targets of a
run share one : it is the primary key. -/
structure Run where
  id : String
  createdAt : Time
  createdBy : Option String := none
  ruleHash : String
  targetSystem : String
  undo : UndoKind
  phase : Phase
  contractJson : Option String := none
  approvedBy : Option String := none
  approvedAt : Option Time := none
  approvalChecksum : Option String := none
  maxTargets : Option ℕ := none
  expiresAt : Option Time := none
  targetsTotal : ℕ
  targetsApplied : ℕ := 0
  targetsFailed : ℕ := 0
  haltReason : Option HaltReason := none
  atomic : Bool
  kind : RunKind := .apply
  sourceRunId : Option String := none
  targetCollection : Option String := none
  principal : Option String := none
  mandateId : Option String := none
  listSource : Option String := none
  listState : Option ListState := none
  listPage : ℕ := 0
  listCalls : ℤ := 0
  listBytes : ℕ := 0
  listLastId : ℕ := 0
  costUsd : ℚ := 0
  costCapUsd : Option ℚ := none
  judgeRule : Option String := none
  judgeRuleHash : Option String := none
  judgeStartedAt : Option Time := none
  startDomains : Option String := none
  unsentTracked : Bool := true
  firstConnectionId : Option String := none
  firstGrantId : Option String := none
  targets : List Target
  seq_nodup : (targets.map Target.seq).Nodup

/-! ## Predicates of one row -/

/-- Changes that write. -/
def Change.writes : Change → Bool
  | .update | .create | .delete => true
  | .unchanged | .invalid => false

/-- The one definition of a target that writes : a writing change the owner did not take
out before approving. -/
def Target.writing (t : Target) : Bool :=
  t.change.writes && t.deselectedAt.isNone

/-- A writing target not yet applied, failed or taken back. -/
def Target.pending (t : Target) : Bool :=
  t.writing && t.appliedAt.isNone && t.error.isNone && t.undoneAt.isNone

/-- A target that may have received the write verb : written, or sent to whatever came
back. -/
def Target.counted (t : Target) : Bool :=
  (t.appliedAt.isSome && !t.foundUnsent) || t.writeSent

/-- What an undo takes back. A write to a host may have landed although it failed. -/
def Target.undoEligible (external : Bool) (t : Target) : Bool :=
  t.undoneAt.isNone && t.writing &&
    ((t.appliedAt.isSome && !t.foundUnsent) || (external && t.writeSent))

/-- The host of an external run's target system, `http:<host>`. -/
def externalHostOf (targetSystem : String) : Option String :=
  if "http:".toList.isPrefixOf targetSystem.toList then
    some (String.ofList (targetSystem.toList.drop "http:".toList.length))
  else none

/-- A run whose own loop has stopped and is not started again unless a human resumes it. -/
def Run.isStopped (r : Run) : Bool :=
  r.phase = .done || r.phase = .aborted || (r.phase = .writing && r.haltReason.isSome)

/-- Approved or writing, and not halted : the run may write. -/
def Run.mayWrite (r : Run) : Bool :=
  (r.phase = .approved || r.phase = .writing) && r.haltReason.isNone

end Lynox.Bulk
