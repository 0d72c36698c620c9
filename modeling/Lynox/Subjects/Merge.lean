import Lynox.Subjects.Graph
import Mathlib.Logic.Function.Basic

/-!
# Merging two subjects and taking a merge back

`planMerge` checks a merge and writes down what it is about to change; `executeMerge` folds the duplicate
into the canonical subject; `rollbackMerge` reverses a merge from its entry. Both run in one transaction :
what fails leaves the graph as it was. `toLowerCase` is that of the runtime, `dec` reads a cell that is
encrypted at rest and hands back what it cannot read.
-/

namespace Lynox.Subjects

open Text

/-! ## What a merge repoints -/

/-- A cell of an engagement that refers to a subject. -/
inductive EngagementRef
  | provider
  | client
  deriving DecidableEq

def EngagementRef.column : EngagementRef → DetailColumn
  | provider => .providerSubjectId
  | client => .clientSubjectId

inductive RepointTarget
  | column (c : Column)
  | engagement (r : EngagementRef)
  deriving DecidableEq

/-- The table, its key column and the column. -/
def RepointTarget.names : RepointTarget → String × String × String
  | column .memoriesSubject => ("memories", "id", "subject_id")
  | column .knowledgeEntriesSubject => ("knowledge_entries", "id", "subject_id")
  | column .tasksSubject => ("tasks", "id", "subject_id")
  | column .tasksAssignee => ("tasks", "id", "assignee_subject_id")
  | column .triggersSubject => ("triggers", "id", "subject_id")
  | column .connectionsSubject => ("connections", "id", "subject_id")
  | column .artifactsSubject => ("artifacts", "id", "subject_id")
  | column .threadsPrimary => ("threads", "id", "primary_subject_id")
  | column .relationshipsFrom => ("relationships", "id", "from_subject_id")
  | column .relationshipsTo => ("relationships", "id", "to_subject_id")
  | engagement .provider => ("engagements", "subject_id", "provider_subject_id")
  | engagement .client => ("engagements", "subject_id", "client_subject_id")
  | column .subjectsParent => ("subjects", "id", "parent_id")

def REPOINT_TARGETS : List RepointTarget :=
  [.column .memoriesSubject, .column .knowledgeEntriesSubject, .column .tasksSubject,
    .column .tasksAssignee, .column .triggersSubject, .column .connectionsSubject,
    .column .artifactsSubject, .column .threadsPrimary, .column .relationshipsFrom,
    .column .relationshipsTo, .engagement .provider, .engagement .client, .column .subjectsParent]

/-- A repoint as a ledger names it. -/
structure Repoint where
  table : String
  pkCol : String
  column : String
  pks : List Id

def Repoint.target? (r : Repoint) : Option RepointTarget :=
  REPOINT_TARGETS.find? fun t => t.names = (r.table, r.pkCol, r.column)

def isRepointTarget (r : Repoint) : Bool :=
  r.target?.isSome

/-- A reference to `old` becomes one to `new`. -/
def movedRef (old new : Id) (v : Option Id) : Option Id :=
  if v = some old then some new else v

def DetailRow.moved {t : DetailTable} (c : DetailColumn) (old new : Id) (row : DetailRow t) : DetailRow t :=
  .ofCells t fun c' => if c' = c ∧ row.cell c = .text old then .text new else row.cell c'

namespace Graph

variable (g : Graph)

def setColumn (c : Column) (rows : Keyed Id (Option Id)) : Graph :=
  { g with columns := Function.update g.columns c rows }

def setDetails (t : DetailTable) (rows : Keyed Id (DetailRow t)) : Graph :=
  { g with details := Function.update g.details t rows }

/-- The keys of the rows that refer to a subject. -/
def selectPks (id : Id) : RepointTarget → List Id
  | .column c => ((g.columns c).select fun _ v => v = some id).map Prod.fst
  | .engagement r =>
    ((g.details .engagements).select fun _ row => row.cell r.column = .text id).map Prod.fst

/-- Every reference to `old` in a column becomes one to `new`. -/
def repointAll (old new : Id) : RepointTarget → Graph
  | .column c => g.setColumn c ((g.columns c).update fun _ => movedRef old new)
  | .engagement r =>
    g.setDetails .engagements ((g.details .engagements).update fun _ row => row.moved r.column old new)

/-- The row under `pk` is repointed where it refers to `old`. -/
def repointAt (old new : Id) (t : RepointTarget) (pk : Id) : Graph :=
  match t with
  | .column c => g.setColumn c ((g.columns c).updateAt pk (movedRef old new))
  | .engagement r =>
    g.setDetails .engagements ((g.details .engagements).updateAt pk fun row => row.moved r.column old new)

end Graph

/-! ## Aliases and detail rows -/

def parseAliases (raw : JsString) : List JsString :=
  match parse raw with
  | some (.array items) => items.filterMap fun item =>
    match item with
    | .string s => some s
    | _ => none
  | _ => []

section Aliases

variable (toLowerCase : JsString → JsString)

structure AliasUnion where
  json : JsString
  added : List JsString

/-- The forms so far, those added last, and one more where it is new. -/
def addForm (out : List JsString × List JsString) (f : JsString) : List JsString × List JsString :=
  if f = [] ∨ toLowerCase f ∈ out.1.map toLowerCase then out else (out.1 ++ [f], out.2 ++ [f])

def unionAliases (existingJson : JsString) (forms : List JsString) : AliasUnion :=
  let out := forms.foldl (addForm toLowerCase) (parseAliases existingJson, [])
  { json := if out.2.length > 0 then (Value.strings out.1).write else existingJson
    added := out.2 }

/-- A list without `forms`, whatever their case. -/
def withoutForms (list forms : List JsString) : List JsString :=
  list.filter fun a => toLowerCase a ∉ forms.map toLowerCase

end Aliases

/-- The columns with their money pair completed. -/
def withMoneyPair (t : DetailTable) (cols : List DetailColumn) : List DetailColumn :=
  match t.moneyAmount with
  | none => cols
  | some amount =>
    if amount ∈ cols ∨ .currency ∈ cols then
      cols ++ [amount, .currency].filter fun c => c ∉ cols
    else cols

/-- The comparison of a detail cell : on the plain text where the column is encrypted. -/
def sameDetailCell (dec : JsString → JsString) (t : DetailTable) (c : DetailColumn) (a b : Cell) : Bool :=
  match a, b with
  | .text a, .text b => if c ∈ t.encryptedCols then dec a = dec b else a = b
  | a, b => a = b

/-- The cells of a detail row. -/
abbrev Cells := DetailColumn → Cell

def coalesceDetailRow (t : DetailTable) (canonicalRow dupRow : Cells) : Cells := fun c =>
  match t.moneyAmount with
  | some amount =>
    if c = .currency then if canonicalRow amount = .null then dupRow c else canonicalRow c
    else (canonicalRow c).orElse (dupRow c)
  | none => (canonicalRow c).orElse (dupRow c)

def restoreDetailColumns (t : DetailTable) (rowNow afterMerge before : Cells)
    (same : DetailColumn → Cell → Cell → Bool) : Cells := fun c =>
  let edited := fun c => !same c (rowNow c) (afterMerge c)
  let keep : Bool :=
    match t.moneyAmount with
    | some amount => if c = amount ∨ c = .currency then edited amount || edited .currency else edited c
    | none => edited c
  if keep then rowNow c else before c

/-! ## The ledger -/

structure MergeDetail where
  dupRow : Option Cells
  canonicalRow : Option Cells

structure MergeLedgerEntry where
  dupId : Id
  canonicalId : Id
  kind : SubjectKind
  ownerUserId : JsString
  dupArchivedAtWas : Option JsString
  dupMergedIntoWas : Option Id
  canonicalAliasesWas : JsString
  canonicalParentWasDup : Bool
  repoints : List Repoint
  /-- The memories of the duplicate. -/
  dupRows : List (Id × Mention)
  canonicalMemoryIdsBefore : List Id
  cooccurrences : List ((Id × Id) × Cooccurrence)
  detail : Option MergeDetail

/-- The word of a kind. -/
def kindName : SubjectKind → JsString
  | .person => utf16 "person"
  | .organization => utf16 "organization"
  | .engagement => utf16 "engagement"
  | .product => utf16 "product"
  | .service => utf16 "service"
  | .other => utf16 "other"

/-- A text that counts as set. -/
def truthy (text : Option JsString) : Bool :=
  text.any fun s => s ≠ []

namespace Graph

variable (g : Graph)

def planRepoints (dupId canonicalId : Id) : List Repoint :=
  REPOINT_TARGETS.filterMap fun t =>
    let pks := g.selectPks dupId t
    let pks := if t = .column .subjectsParent then pks.filter fun pk => pk ≠ canonicalId else pks
    if pks.length > 0 then some ⟨t.names.1, t.names.2.1, t.names.2.2, pks⟩ else none

/-- The detail row of a subject. -/
def detailCells (t : DetailTable) (id : Id) : Option Cells :=
  ((g.details t).get id).map DetailRow.cell

/-- The entry of a merge. -/
def mergeEntry (dupId canonicalId : Id) (dup canonical : SubjectRow) : MergeLedgerEntry :=
  { dupId := dupId
    canonicalId := canonicalId
    kind := dup.kind
    ownerUserId := dup.ownerUserId
    dupArchivedAtWas := dup.archivedAt
    dupMergedIntoWas := dup.mergedInto
    canonicalAliasesWas := canonical.aliases
    canonicalParentWasDup := ((g.columns .subjectsParent).get canonicalId).join = some dupId
    repoints := g.planRepoints dupId canonicalId
    dupRows := (g.memorySubjects.select fun key _ => key.2 = dupId).map fun e => (e.1.1, e.2)
    canonicalMemoryIdsBefore :=
      (g.memorySubjects.select fun key _ => key.2 = canonicalId).map fun e => e.1.1
    cooccurrences := g.cooccurrences.select fun key _ => key.1 = dupId || key.2 = dupId
    detail := (DETAIL_TABLE dup.kind).map fun t => ⟨g.detailCells t dupId, g.detailCells t canonicalId⟩ }

def planMerge (dupId canonicalId : Id) : Except JsString MergeLedgerEntry :=
  match g.subjects.get dupId, g.subjects.get canonicalId with
  | none, _ => .error (utf16 "dup subject not found: " ++ dupId)
  | _, none => .error (utf16 "canonical subject not found: " ++ canonicalId)
  | some dup, some canonical =>
    if dupId = canonicalId then .error (utf16 "cannot merge a subject into itself")
    else if dup.kind ≠ canonical.kind then
      .error (utf16 "kind mismatch: " ++ kindName dup.kind ++ utf16 " ≠ " ++ kindName canonical.kind)
    else if dup.ownerUserId ≠ canonical.ownerUserId then
      .error (utf16 "owner_user_id mismatch — a merge never crosses owners")
    else if dup.isSelf || canonical.isSelf then .error (utf16 "cannot merge the operator self-subject")
    else if truthy dup.mergedInto then
      .error (utf16 "dup already merged into " ++ dup.mergedInto.getD [])
    else if truthy canonical.mergedInto then
      .error (utf16 "canonical is itself merged into " ++ canonical.mergedInto.getD [])
    else if truthy canonical.archivedAt then .error (utf16 "canonical is archived")
    else .ok (g.mergeEntry dupId canonicalId dup canonical)

end Graph

/-! ## Statements that may fail -/

namespace Graph

variable (g : Graph)

/-- A detail row under a subject, in place of one that is there. -/
def putDetail (t : DetailTable) (id : Id) (row : DetailRow t) : Except JsString Graph :=
  match g.violation row with
  | some reason => .error reason
  | none => .ok (g.setDetails t ((g.details t).replace id row))

/-- The detail row of `old` moves over to `new`. -/
def rekeyDetail (t : DetailTable) (old new : Id) : Except JsString Graph :=
  match (g.details t).get old with
  | none => .ok g
  | some row =>
    if old ≠ new ∧ ((g.details t).get new).isSome then .error (utf16 "UNIQUE constraint failed: subject_id")
    else .ok (g.setDetails t (((g.details t).delete fun id => id = old).replace new row))

def deleteDetail (t : DetailTable) (id : Id) : Graph :=
  g.setDetails t ((g.details t).delete fun id' => id' = id)

def insertMention (subject : Id) (row : Id × Mention) : Except JsString Graph :=
  if (g.memorySubjects.get (row.1, subject)).isSome then .ok g
  else if g.hasMemory row.1 && g.hasSubject subject then
    .ok { g with memorySubjects := g.memorySubjects.insertOrIgnore (row.1, subject) row.2 }
  else .error (utf16 "FOREIGN KEY constraint failed")

def insertCooccurrence (row : (Id × Id) × Cooccurrence) : Except JsString Graph :=
  if (g.cooccurrences.get row.1).isSome then .ok g
  else if g.hasSubject row.1.1 && g.hasSubject row.1.2 then
    .ok { g with cooccurrences := g.cooccurrences.insertOrIgnore row.1 row.2 }
  else .error (utf16 "FOREIGN KEY constraint failed")

def deleteMention (memory subject : Id) : Graph :=
  { g with memorySubjects := g.memorySubjects.delete fun key => key = (memory, subject) }

def updateSubject (id : Id) (f : SubjectRow → SubjectRow) : Graph :=
  { g with subjects := g.subjects.updateAt id f }

end Graph

/-! ## The merge -/

section Execute

variable (toLowerCase : JsString → JsString) (g : Graph) (entry : MergeLedgerEntry)

def FOREIGN_REPOINT_REASON : String :=
  "names a reference that this version of the merge never moves — nothing was changed"

/-- The repoints of a merge. Of the children only those that were captured are repointed. -/
def executeRepoints : Graph :=
  entry.repoints.foldl (fun g r =>
    match r.target? with
    | none => g
    | some (.column .subjectsParent) =>
      r.pks.foldl (fun g pk => g.repointAt entry.dupId entry.canonicalId (.column .subjectsParent) pk) g
    | some t => g.repointAll entry.dupId entry.canonicalId t) g

/-- A canonical below its duplicate loses its parent. -/
def guardParent : Graph :=
  if entry.canonicalParentWasDup then
    g.setColumn .subjectsParent ((g.columns .subjectsParent).updateAt entry.canonicalId fun _ => none)
  else g

def executeMentions : Except JsString Graph := do
  let g ← entry.dupRows.foldlM (fun g row => g.insertMention entry.canonicalId row) g
  return { g with memorySubjects := g.memorySubjects.delete fun key => key.2 = entry.dupId }

def executeCooccurrences : Graph :=
  { g with cooccurrences := g.cooccurrences.delete fun key =>
      key.1 = entry.dupId || key.2 = entry.dupId }

/-- The canonical's row filled from the duplicate's as the statement does it. -/
def fillDetail {t : DetailTable} (row : DetailRow t) (dupRow : Cells) : DetailRow t :=
  .ofCells t (coalesceDetailRow t row.cell dupRow)

def fillCanonical (t : DetailTable) (dupRow : Cells) : Except JsString Graph :=
  match (g.details t).get entry.canonicalId with
  | none => .ok g
  | some row => g.putDetail t entry.canonicalId (fillDetail row dupRow)

def executeDetail : Except JsString Graph :=
  match entry.detail with
  | none => .ok g
  | some detail =>
    match detail.dupRow, DETAIL_TABLE entry.kind with
    | none, _ => .ok g
    | some _, none => .error (utf16 "Cannot read properties of undefined (reading 'table')")
    | some dupRow, some t =>
      match detail.canonicalRow with
      | none => g.rekeyDetail t entry.dupId entry.canonicalId
      | some _ => do
        let g ← fillCanonical g entry t dupRow
        return g.deleteDetail t entry.dupId

/-- The duplicate's name and its aliases. -/
def SubjectRow.forms (row : SubjectRow) : List JsString :=
  row.name :: parseAliases row.aliases

def executeAliases : Graph :=
  match g.subjects.get entry.dupId with
  | none => g
  | some dup => g.updateSubject entry.canonicalId fun row =>
    { row with aliases := (unionAliases toLowerCase row.aliases dup.forms).json }

def executeArchive (now : JsString) : Graph :=
  g.updateSubject entry.dupId fun row =>
    { row with mergedInto := some entry.canonicalId, archivedAt := row.archivedAt.or (some now) }

def executeMerge (now : JsString) : Except JsString Graph :=
  match g.subjects.get entry.dupId, g.subjects.get entry.canonicalId with
  | some dupNow, some canonNow =>
    if dupNow.ownerUserId ≠ canonNow.ownerUserId then
      .error (utf16 "executeMerge: owner_user_id mismatch — a merge never crosses owners")
    else if dupNow.kind ≠ canonNow.kind then
      .error (utf16 "executeMerge: kind mismatch (" ++ kindName dupNow.kind ++ utf16 " ≠ " ++
        kindName canonNow.kind ++ utf16 ")")
    else if entry.kind ≠ dupNow.kind then
      .error (utf16 "executeMerge: the entry's kind (" ++ kindName entry.kind ++
        utf16 ") is not the subjects' kind (" ++ kindName dupNow.kind ++ utf16 ")")
    else if !entry.repoints.all isRepointTarget then
      .error (utf16 "executeMerge: the merge entry " ++ utf16 FOREIGN_REPOINT_REASON)
    else do
      let g := guardParent (executeRepoints g entry) entry
      let g ← executeMentions g entry
      let g ← executeDetail (executeCooccurrences g entry) entry
      return executeArchive (executeAliases toLowerCase g entry) entry now
  | _, _ => .error (utf16 "executeMerge: subject vanished (" ++ entry.dupId ++ utf16 " / " ++
      entry.canonicalId ++ utf16 ")")

end Execute

/-! ## The rollback -/

section Rollback

variable (toLowerCase dec : JsString → JsString) (g : Graph) (entry : MergeLedgerEntry)

/-- What a rollback refuses before it writes. -/
def rollbackRefusal : Option JsString :=
  if entry.dupId = entry.canonicalId then
    some (utf16 "this merge ledger names the same entry on both sides — it cannot be a real merge")
  else if !entry.repoints.all isRepointTarget then
    some (utf16 "this merge ledger " ++ utf16 FOREIGN_REPOINT_REASON)
  else
    match g.subjects.get entry.dupId, g.subjects.get entry.canonicalId with
    | some dupRow, some canonRow =>
      if dupRow.mergedInto ≠ some entry.canonicalId then
        match dupRow.mergedInto with
        | none => some (utf16 ("this merge is not in effect — it has already been reversed. If an " ++
            "earlier rollback reported a PARTIAL failure, the engine side is already undone and only " ++
            "the datastore/thread side still needs attention; re-running the whole reversal is not the " ++
            "repair."))
        | some target => some (utf16 "this merge is not in effect — the entry is currently merged into " ++
            target ++ utf16 (", not into the entry this ledger names. Reversing it from here would " ++
              "un-archive the entry while the other merge still holds its aliases."))
      else
        match canonRow.mergedInto with
        | some target => some (utf16 ("this merge is not in effect — the entry it was merged into has " ++
            "since been merged into ") ++ target ++
              utf16 ". Reverse that newer merge first; this one can be reversed after it.")
        | none =>
          if dupRow.kind ≠ entry.kind then
            some (utf16 "this merge ledger names the kind " ++ kindName entry.kind ++
              utf16 ", but the entry is a " ++ kindName dupRow.kind ++ utf16 " — nothing was changed")
          else none
    | none, some _ => some (utf16 ("cannot reverse this merge here — the merged-away entry is not in " ++
        "this subject graph (a ledger from another instance, or an entry deleted since)"))
    | some _, none => some (utf16 ("cannot reverse this merge here — the entry it was merged into is " ++
        "not in this subject graph (a ledger from another instance, or an entry deleted since)"))
    | none, none => some (utf16 ("cannot reverse this merge here — the merged-away entry and the entry " ++
        "it was merged into are not in this subject graph (a ledger from another instance, or an entry " ++
        "deleted since)"))

/-- The duplicate's archive and redirect state goes back. -/
def restoreDup : Except JsString Graph :=
  let restored := fun row : SubjectRow =>
    { row with mergedInto := entry.dupMergedIntoWas, archivedAt := entry.dupArchivedAtWas }
  match g.subjects.get entry.dupId with
  | none => .ok g
  | some row =>
    if g.clashes entry.dupId (restored row) then
      .error (utf16 "UNIQUE constraint failed: index 'idx_subjects_canonical'")
    else if !entry.dupMergedIntoWas.all g.hasSubject then
      .error (utf16 "FOREIGN KEY constraint failed")
    else .ok (g.updateSubject entry.dupId restored)

/-- The canonical's aliases before the merge while the list is the merge's own result, else the list
without what the merge added. -/
def restoredAliases (dup : SubjectRow) (aliasesNow : JsString) : JsString :=
  let mergedAliases := unionAliases toLowerCase entry.canonicalAliasesWas dup.forms
  if aliasesNow = mergedAliases.json then entry.canonicalAliasesWas
  else (Value.strings (withoutForms toLowerCase (parseAliases aliasesNow) mergedAliases.added)).write

def restoreAliases : Graph :=
  match g.subjects.get entry.dupId with
  | none => g
  | some dup => g.updateSubject entry.canonicalId fun row =>
    { row with aliases := restoredAliases toLowerCase entry dup row.aliases }

def restoreParent : Graph :=
  if entry.canonicalParentWasDup then
    g.setColumn .subjectsParent
      ((g.columns .subjectsParent).updateAt entry.canonicalId fun _ => some entry.dupId)
  else g

def restoreCanonical : Graph :=
  restoreParent (restoreAliases toLowerCase g entry) entry

/-- The duplicate's own detail row. A column that may not be null takes its default. -/
def insertDup (t : DetailTable) (dupWas : Cells) : Except JsString Graph :=
  g.putDetail t entry.dupId (.ofCells t fun c => (dupWas c).orElse (t.default c))

/-- The columns of a row that moved over which were edited since. -/
def editedCols (t : DetailTable) (rowNow dupWas : Cells) : List DetailColumn :=
  withMoneyPair t (t.cols.filter fun c => !sameDetailCell dec t c (rowNow c) (dupWas c))

/-- The canonical keeps the columns it edited. -/
def keepEdited (t : DetailTable) (rowNow : Cells) (edited : List DetailColumn) : Except JsString Graph :=
  let keep := edited.filter fun c => rowNow c ≠ .null
  let g := g.deleteDetail t entry.canonicalId
  if keep.length > 0 then
    g.putDetail t entry.canonicalId (.ofCells t fun c => if c ∈ keep then rowNow c else t.default c)
  else .ok g

/-- The canonical's columns go back where they still hold the merge's result. -/
def restoreColumns (t : DetailTable) (dupWas before : Cells) : Except JsString Graph :=
  match g.detailCells t entry.canonicalId with
  | none => .ok g
  | some rowNow =>
    let afterMerge := coalesceDetailRow t before dupWas
    g.putDetail t entry.canonicalId
      (.ofCells t (restoreDetailColumns t rowNow afterMerge before (sameDetailCell dec t)))

/-- A row that moved over goes back, but for the columns edited since. -/
def moveBack (t : DetailTable) (dupWas : Cells) : Except JsString Graph :=
  match g.detailCells t entry.canonicalId with
  | none => insertDup g entry t dupWas
  | some rowNow =>
    let edited := editedCols dec t rowNow dupWas
    if edited.length = 0 then g.rekeyDetail t entry.canonicalId entry.dupId
    else do
      let g ← keepEdited g entry t rowNow edited
      insertDup g entry t dupWas

def rollbackDetail : Except JsString Graph :=
  match entry.detail with
  | none => .ok g
  | some detail =>
    match DETAIL_TABLE entry.kind with
    | none => .error (utf16 "Cannot read properties of undefined (reading 'cols')")
    | some t =>
      match detail.dupRow, detail.canonicalRow with
      | some dupWas, none => moveBack dec g entry t dupWas
      | some dupWas, some before => do
        let g ← restoreColumns dec g entry t dupWas before
        insertDup g entry t dupWas
      | none, _ => .ok g

/-- A link of the duplicate goes back; the canonical's goes where the merge had added it. -/
def rollbackMention (row : Id × Mention) : Except JsString Graph := do
  let g ← g.insertMention entry.dupId row
  return if row.1 ∈ entry.canonicalMemoryIdsBefore then g else g.deleteMention row.1 entry.canonicalId

/-- A row that was repointed goes back while it refers to the canonical. -/
def rollbackRepoints : Graph :=
  entry.repoints.foldl (fun g r =>
    match r.target? with
    | none => g
    | some t => r.pks.foldl (fun g pk => g.repointAt entry.canonicalId entry.dupId t pk) g) g

def rollbackSteps : Except JsString Graph :=
  match rollbackRefusal g entry with
  | some reason => .error reason
  | none => do
    let g ← restoreDup g entry
    let g ← rollbackDetail dec (restoreCanonical toLowerCase g entry) entry
    let g ← entry.cooccurrences.foldlM Graph.insertCooccurrence g
    let g ← entry.dupRows.foldlM (fun g row => rollbackMention g entry row) g
    return rollbackRepoints g entry

/-- The graph after a rollback, and why it was refused. -/
def rollbackMerge : Graph × Option JsString :=
  match rollbackSteps toLowerCase dec g entry with
  | .ok g => (g, none)
  | .error reason => (g, some reason)

end Rollback

end Lynox.Subjects
