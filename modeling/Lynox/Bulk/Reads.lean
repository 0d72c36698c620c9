import Lynox.Bulk.Ledger

/-!
# What the effect and the approval read

The queries of `bulk-ledger.ts` over one run : the parts of its checksum, the targets left
to write, the targets sent to, what a roll-back takes back, the form a run writes in, and
whether a probe lets it write more than one target.

A target is handed to the effect as an `ApplyTarget` : the state it must find and the state
it writes. `toApplyTarget` throws for a change that does not write; `loadTarget` therefore
answers in `Except`.
-/

namespace Lynox.Bulk

variable {V : Type} (D : Deps V)

/-! ## Images of a target -/

/-- One target as the effect writes it. -/
structure ApplyTarget (V : Type) where
  seq : ℕ
  key : String
  change : Change
  expected : Image V
  after : Image V
  sourceSeq : Option ℕ

/-- The state a target must hold for the write to go ahead. -/
def Target.expected (J : Json V) (t : Target) : Image V :=
  match t.before with
  | none => .absent
  | some text => J.imageOf text

/-- The state the write produces; absent for a `delete`. -/
def Target.after (J : Json V) (t : Target) : Image V :=
  match t.change, t.afterPlanned with
  | .delete, _ | _, none => .absent
  | _, some text => .value (J.valueOf text)

def toApplyTarget (J : Json V) (t : Target) : ApplyTarget V :=
  ⟨t.seq, t.targetKey, t.change, t.expected J, t.after J, t.sourceSeq⟩

/-- The target under `seq`, if there is one. A target that does not write throws. -/
def Run.loadTarget (J : Json V) (r : Run) (seq : ℕ) : Except Unit (Option (ApplyTarget V)) :=
  match r.target? seq with
  | none => .ok none
  | some t => if t.change.writes then .ok (some (toApplyTarget J t)) else .error ()

/-! ## Comparing values -/

/-- Whether two values are the same, HTML fields of two objects under `htmlEqual`. -/
def sameValue [DecidableEq V] (htmlFields : List String) (a b : V) : Bool :=
  match D.fields a, D.fields b with
  | some xs, some ys =>
    if htmlFields.isEmpty then a = b
    else
      ((xs.map Prod.fst ++ ys.map Prod.fst).dedup).all fun k =>
        match xs.lookup k, ys.lookup k with
        | some x, some y =>
          match D.text x, D.text y with
          | some s, some u =>
            if htmlFields.contains k && D.endsClosed s && D.endsClosed u
                && (D.droppedTagsOf s).isEmpty && (D.droppedTagsOf u).isEmpty then
              D.htmlEqual s u
            else x = y
          | _, _ => x = y
        | _, _ => false
  | _, _ => a = b

/-- Two images equal : both absent, or values equal. -/
def sameImage [DecidableEq V] (htmlFields : List String) : Image V → Image V → Bool
  | .absent, .absent => true
  | .value a, .value b => sameValue D htmlFields a b
  | _, _ => false

/-- Without HTML fields two images are the same exactly when they are equal. -/
theorem sameImage_nil [DecidableEq V] (a b : Image V) : sameImage D [] a b = decide (a = b) := by
  cases a <;> cases b <;> simp [sameImage]
  unfold sameValue
  split <;> simp

/-- What the rule would do to one target. -/
def classifyChange [DecidableEq V] (htmlFields : List String) (before : Image V) (after : V) :
    Change :=
  match before with
  | .absent => .create
  | .value v => if sameValue D htmlFields v after then .unchanged else .update

/-! ## The checksum -/

def Change.text : Change → String
  | .update => "update"
  | .create => "create"
  | .delete => "delete"
  | .unchanged => "unchanged"
  | .invalid => "invalid"

def RunKind.text : RunKind → String
  | .apply => "apply"
  | .undo => "undo"

/-- A part of the stream left out when its column is null. -/
def optionalPart (name : String) : Option String → List String
  | none => []
  | some text => [name, text]

/-- What one target adds to the stream. -/
def Target.checksumParts (t : Target) : List String :=
  [toString t.seq, t.targetKey, t.change.text, t.before.getD "", t.afterPlanned.getD ""] ++
    if t.deselectedAt.isSome then ["deselected"] else []

/-- The parts `computeChecksum` yields, in order. -/
def Run.checksumParts (r : Run) : List String :=
  ["bulk-approval-v1", r.kind.text, r.targetSystem, r.targetCollection.getD "",
    if r.atomic then "1" else "0", r.sourceRunId.getD "", r.ruleHash] ++
    optionalPart "contract" r.contractJson ++ optionalPart "list" r.listSource ++
    optionalPart "judge" r.judgeRuleHash ++ optionalPart "start_domains" r.startDomains ++
    r.targets.flatMap Target.checksumParts

/-- The approval checksum : a keyed hash over everything an apply would do. -/
def Ledger.computeChecksum (L : Ledger) (runId : String) : Option String :=
  (L.runRow runId).map fun r => D.keyedHash r.checksumParts

/-! ## Targets of a run -/

/-- How many different targets may have received the write verb. -/
def Run.sentCount (r : Run) : ℕ :=
  r.targets.countP Target.counted

/-- Whether the target may already have received the write verb. -/
def Run.wasSent (r : Run) (seq : ℕ) : Bool :=
  (r.target? seq).any fun t => t.appliedAt.isSome || t.writeSent

/-- Whether a send to this target ended without a clear answer. -/
def Run.hasUnknownSend (r : Run) (seq : ℕ) : Bool :=
  (r.target? seq).any fun t => 0 < t.unknownSends

/-- Writing targets not yet applied, failed or taken back, in seq order. -/
def Run.listPending (r : Run) : List ℕ :=
  (r.targets.filter Target.pending).map Target.seq

def Run.countWriting (r : Run) : ℕ :=
  r.targets.countP Target.writing

/-- A target this run applied and has not taken back. -/
def Target.appliedStanding (t : Target) : Bool :=
  t.appliedAt.isSome && !t.foundUnsent && t.undoneAt.isNone && t.writing

/-- A target this run sent its write to and never recorded. -/
def Target.sentUnrecorded (t : Target) : Bool :=
  t.writeSent && t.appliedAt.isNone && t.undoneAt.isNone && t.writing

/-- Newest first : a roll-back's order. -/
def Run.listAppliedDesc (r : Run) : List Target :=
  (r.targets.filter Target.appliedStanding).reverse

def Run.listSentUnrecordedDesc (r : Run) : List Target :=
  (r.targets.filter Target.sentUnrecorded).reverse

/-- The most different targets a pass may send to, `none` for no bound. -/
def bulkWriteCap (maxTargets : Option ℕ) (probeHolds : Bool) : Option ℕ :=
  if probeHolds then maxTargets else some (min (maxTargets.getD 1) 1)

/-- How many targets may fail in one pass before the failure-rate halt : five in a
hundred. -/
def bulkFailureLimit (writing : ℕ) : ℕ :=
  writing * 5 / 100

/-! ## The form a run writes in -/

def Deps.contractMethods (r : Run) : Option String :=
  r.contractJson.bind D.parseContractMethods

def Deps.contractPaths (r : Run) : List String :=
  (r.contractJson.map D.parseContractPaths).getD []

/-- The list form of a run, or of the first run up its chain that has one. The walk is cut
at 64 runs. -/
def Ledger.listFormOfFamily (L : Ledger) : ℕ → Run → Option ListForm
  | 0, _ => none
  | depth + 1, r =>
    match r.listSource with
    | some source => some (D.listFormOf source)
    | none =>
      match r.sourceRunId.bind L.runRow with
      | none => none
      | some up => L.listFormOfFamily depth up

/-- The write form of a Shopify run : one on a store host whose contract names no verb. -/
def Ledger.shopifyFormOfRun (L : Ledger) (r : Run) : Option ShopifyWriteForm :=
  match externalHostOf r.targetSystem with
  | none => none
  | some host =>
    if D.isShopifyStoreHostName host && (D.contractMethods r).isNone then
      if L.listFormOfFamily D 64 r = some .shopifyMedia then some .shopifyMediaAlt
      else some .shopifyProduct
    else none

def htmlFieldsOfListForm : Option ListForm → List String
  | some .shopify | some .shopifyFiltered => ["descriptionHtml"]
  | some .woocommerce => ["description", "short_description"]
  | some .shopifyMedia | none => []

/-- The fields of a run whose values are HTML. -/
def Ledger.htmlFieldsOf (L : Ledger) (r : Run) : List String :=
  let fields := htmlFieldsOfListForm (L.listFormOfFamily D 64 r)
  if L.shopifyFormOfRun D r = some .shopifyProduct then
    (fields ++ htmlFieldsOfListForm (some .shopify)).dedup
  else fields

/-- Whether a run compares a value in the form its store saves it in. -/
def Ledger.comparedInSavedForm (L : Ledger) (r : Run) : Bool :=
  L.shopifyFormOfRun D r = some .shopifyProduct

/-- The fields a run compares under `htmlEqual`. -/
def Ledger.comparedAsHtml (L : Ledger) (r : Run) : List String :=
  if L.comparedInSavedForm D r then L.htmlFieldsOf D r else []

/-- A Shopify apply run while this instance does not read stores. -/
def Ledger.isShopifyRunSwitchedOff (L : Ledger) (shopifyBulkReadEnabled : Bool) (r : Run) : Bool :=
  r.kind = .apply && (L.shopifyFormOfRun D r).isSome && !shopifyBulkReadEnabled

inductive WriteForm
  | measured | unmeasured
  deriving DecidableEq, Repr

def writeFormOf (host : String) (paths : List String) : Option String → WriteForm
  | none => .unmeasured
  | some method =>
    if !paths.isEmpty && paths.all fun p => D.isMeasuredWriteForm host p method then .measured
    else .unmeasured

def Ledger.writeFormOfRun (L : Ledger) (r : Run) : Option WriteForm :=
  match externalHostOf r.targetSystem with
  | none => none
  | some host =>
    if r.listState = some .pending then none
    else if (L.shopifyFormOfRun D r).isSome then some .unmeasured
    else some (writeFormOf D host (D.contractPaths r) (D.contractMethods r))

/-- Whether an external run's stored contract grants a write to a mail provider's API. -/
def contractWritesMail (r : Run) : Bool :=
  match externalHostOf r.targetSystem with
  | none => false
  | some host => (D.contractPaths r).any fun path =>
      D.isMailProviderTarget ("https://" ++ host ++ path)

/-- A run on a system of the instance writes in no form, so nothing is compared as HTML. -/
theorem Ledger.comparedAsHtml_of_local {L : Ledger} {r : Run}
    (h : externalHostOf r.targetSystem = none) :
    L.comparedAsHtml D r = [] ∧ L.comparedInSavedForm D r = false := by
  simp [comparedAsHtml, comparedInSavedForm, shopifyFormOfRun, h]

/-! ## Probes -/

/-- The kind of resource a path names : the path without its last segment. -/
def resourceKindOf (path : String) : String :=
  String.ofList (((path.toList.reverse.dropWhile (· = '/')).dropWhile (· ≠ '/')).reverse)

def unmeasuredProbe : String := "unmeasured:"

def unmeasuredProbeKind (runId kind : String) : String :=
  unmeasuredProbe ++ runId ++ ":" ++ kind

def shopifyProbeMethod : String := "POST"

def ShopifyWriteForm.text : ShopifyWriteForm → String
  | .shopifyProduct => "shopify_product"
  | .shopifyMediaAlt => "shopify_media_alt"

inductive ProbeCause
  | none | wrongForm | filedMeasured | otherRun | ownMissing
  deriving DecidableEq, Repr

/-- Whether this run confirmed an unmeasured probe of `kind` on this host and verb. -/
def Ledger.unmeasuredProbeOfOwn (L : Ledger) (host method kind runId : String) : Bool :=
  L.probes.any fun p => p.host = host && p.method = method && p.runId = runId &&
    (p.kind = unmeasuredProbeKind runId kind || p.kind = unmeasuredProbe ++ kind)

/-- Whether any run did. -/
def Ledger.unmeasuredProbeOfAny (L : Ledger) (host method kind : String) : Bool :=
  L.probes.any fun p => p.host = host && p.method = method &&
    (p.kind = unmeasuredProbe ++ kind || p.kind = unmeasuredProbe ++ p.runId ++ ":" ++ kind)

/-- The target applied first, by its time and then its place. -/
def firstApplied (targets : List Target) : Option Target :=
  (targets.filter fun t => t.appliedAt.isSome && !t.foundUnsent).foldl
    (fun best t =>
      match best with
      | none => some t
      | some b => if D.isoBefore (t.appliedAt.getD 0) (b.appliedAt.getD 0) then some t else some b)
    none

/-- Whether the probe run wrote its one target in a measured form of this kind. -/
def Ledger.probeWroteMeasuredForm (L : Ledger) (probeRunId host method kind : String) : Bool :=
  match (L.runRow probeRunId).bind fun r => firstApplied D r.targets with
  | none => false
  | some t =>
    match D.pathnameOf t.targetKey with
    | none => false
    | some path => resourceKindOf path = kind && D.isMeasuredWriteForm host path method

/-- Why a kind of resource a run writes has no probe that holds, or `none` where it has. -/
def Ledger.probeMissing (L : Ledger) (r : Run) (host method : String) (paths : List String)
    (kind : String) : Option ProbeCause :=
  if paths.any fun p => resourceKindOf p = kind && !D.isMeasuredWriteForm host p method then
    if L.unmeasuredProbeOfOwn host method kind r.id then none
    else if L.unmeasuredProbeOfAny host method kind then some .otherRun
    else if (L.probes.any fun p => p.host = host && p.method = method && p.kind = kind &&
        p.runId = r.id) && L.probeWroteMeasuredForm D r.id host method kind then
      some .filedMeasured
    else some .ownMissing
  else
    match L.probes.find? fun p => p.host = host && p.method = method && p.kind = kind with
    | none => some .none
    | some p =>
      if L.probeWroteMeasuredForm D p.runId host method kind then none else some .wrongForm

/-- Whether a run may write more than one target, and the kinds that keep it from it. -/
def Ledger.probeCoverage (L : Ledger) (r : Run) : Bool × List (String × ProbeCause) :=
  match externalHostOf r.targetSystem with
  | none => (true, [])
  | some host =>
    match L.shopifyFormOfRun D r with
    | some form =>
      if r.kind = .undo || L.unmeasuredProbeOfOwn host shopifyProbeMethod form.text r.id then
        (true, [])
      else
        (false, [(form.text,
          if L.unmeasuredProbeOfAny host shopifyProbeMethod form.text then .otherRun
          else .ownMissing)])
    | none =>
      match D.contractMethods r, ((D.contractPaths r).map resourceKindOf).dedup with
      | none, _ | _, [] => (false, [])
      | some method, kinds =>
        if r.kind = .undo then (true, [])
        else
          let missing := kinds.filterMap fun kind =>
            (L.probeMissing D r host method (D.contractPaths r) kind).map (kind, ·)
          (missing.isEmpty, missing)

/-- Whether the run may write more than one target; a run that is gone may not. -/
def Ledger.probeHoldsFor (L : Ledger) (runId : String) : Bool :=
  (L.runRow runId).any fun r => (L.probeCoverage D r).1

end Lynox.Bulk
