import Lynox.Data.Keyed
import Lynox.Text.Stringify

/-!
# The subject graph

The rows of the engine's database that a merge of two subjects reads and writes. A table is read under its
primary key. A column that refers to a subject is kept as a table of its own under the key of its row,
but for the provider and the client of an engagement, which are cells of a detail row. The columns no merge
touches are left out, and so are the times of change.
-/

namespace Lynox.Subjects

open Text

abbrev Id := JsString

/-! ## Rows -/

inductive SubjectKind
  | person
  | organization
  | engagement
  | product
  | service
  | other
  deriving DecidableEq

structure SubjectRow where
  kind : SubjectKind
  name : JsString
  aliases : JsString
  isSelf : Bool
  ownerUserId : JsString
  archivedAt : Option JsString
  mergedInto : Option Id
  deriving DecidableEq

/-- The columns that refer to a subject, the cells of detail rows apart. -/
inductive Column
  | memoriesSubject
  | knowledgeEntriesSubject
  | tasksSubject
  | tasksAssignee
  | triggersSubject
  | connectionsSubject
  | artifactsSubject
  | threadsPrimary
  | relationshipsFrom
  | relationshipsTo
  | subjectsParent
  deriving DecidableEq

inductive DetailColumn
  | email
  | phone
  | role
  | type
  | domain
  | vatId
  | country
  | providerSubjectId
  | clientSubjectId
  | startedAt
  | endedAt
  | budgetCents
  | currency
  | billingModel
  | sku
  | priceCents
  | hourlyRateCents
  deriving DecidableEq

inductive DetailTable
  | people
  | organizations
  | engagements
  | products
  | services
  deriving DecidableEq

/-- The 1:1 detail table of a kind. -/
def DETAIL_TABLE : SubjectKind → Option DetailTable
  | .person => some .people
  | .organization => some .organizations
  | .engagement => some .engagements
  | .product => some .products
  | .service => some .services
  | .other => none

namespace DetailTable

def cols : DetailTable → List DetailColumn
  | people => [.email, .phone, .role, .type]
  | organizations => [.domain, .vatId, .country, .type]
  | engagements => [.providerSubjectId, .clientSubjectId, .startedAt, .endedAt, .budgetCents, .currency,
    .billingModel]
  | products => [.sku, .priceCents, .currency]
  | services => [.hourlyRateCents, .currency]

/-- The amount whose currency is the table's. -/
def moneyAmount : DetailTable → Option DetailColumn
  | people | organizations => none
  | engagements => some .budgetCents
  | products => some .priceCents
  | services => some .hourlyRateCents

/-- The columns that are encrypted at rest. -/
def encryptedCols : DetailTable → List DetailColumn
  | people => [.email, .phone]
  | organizations => [.vatId]
  | engagements | products | services => []

end DetailTable

inductive Cell
  | null
  | text (s : JsString)
  | int (n : ℤ)
  deriving DecidableEq

namespace Cell

/-- The cell, or another where it is null. -/
def orElse : Cell → Cell → Cell
  | null, other => other
  | cell, _ => cell

end Cell

/-- What a column holds where an insert leaves it out. -/
def DetailTable.default : DetailTable → DetailColumn → Cell
  | people, .type => .text (utf16 "contact")
  | organizations, .type => .text (utf16 "other")
  | _, _ => .null

/-- A detail row : null outside the columns of its table. -/
@[ext] structure DetailRow (t : DetailTable) where
  cell : DetailColumn → Cell
  fits : ∀ c ∉ t.cols, cell c = .null

/-- The row with the cells `f`. -/
def DetailRow.ofCells (t : DetailTable) (f : DetailColumn → Cell) : DetailRow t where
  cell c := if c ∈ t.cols then f c else .null
  fits _ hc := if_neg hc

structure Mention where
  mentionType : JsString
  createdAt : JsString
  deriving DecidableEq

structure Cooccurrence where
  count : ℤ
  lastSeenAt : JsString
  deriving DecidableEq

structure Graph where
  subjects : Keyed Id SubjectRow
  columns : Column → Keyed Id (Option Id)
  details : (t : DetailTable) → Keyed Id (DetailRow t)
  /-- Under the memory and the subject. -/
  memorySubjects : Keyed (Id × Id) Mention
  cooccurrences : Keyed (Id × Id) Cooccurrence

/-! ## Cells of a row -/

section Rows

variable {t : DetailTable} {c : DetailColumn}

theorem cell_ofCells (f : DetailColumn → Cell) (hc : c ∈ t.cols) :
    (DetailRow.ofCells t f).cell c = f c :=
  if_pos hc

@[simp] theorem Cell.orElse_null (cell : Cell) : cell.orElse .null = cell := by
  cases cell <;> rfl

@[simp] theorem Cell.null_orElse (cell : Cell) : Cell.null.orElse cell = cell :=
  rfl

theorem Cell.orElse_of_ne {cell : Cell} (h : cell ≠ .null) (other : Cell) : cell.orElse other = cell := by
  cases cell with
  | null => exact absurd rfl h
  | text s => rfl
  | int n => rfl

end Rows

/-! ## Foreign keys and the unique name -/

namespace Graph

variable (g : Graph)

def hasSubject (id : Id) : Bool :=
  (g.subjects.get id).isSome

def hasMemory (id : Id) : Bool :=
  ((g.columns .memoriesSubject).get id).isSome

/-- A cell that refers to a subject refers to one that is there. -/
def refers : Cell → Bool
  | .null => true
  | .text id => g.hasSubject id
  | .int _ => false

/-- The constraint that a detail row breaks. -/
def violation : {t : DetailTable} → DetailRow t → Option JsString
  | .engagements, row =>
    if g.refers (row.cell .providerSubjectId) && g.refers (row.cell .clientSubjectId) then none
    else some (utf16 "FOREIGN KEY constraint failed")
  | .people, row =>
    if row.cell .type = .null then some (utf16 "NOT NULL constraint failed: people.type") else none
  | .organizations, row =>
    if row.cell .type = .null then some (utf16 "NOT NULL constraint failed: organizations.type") else none
  | .products, _ | .services, _ => none

end Graph

/-- The lower case of `LOWER` in SQLite : ASCII letters only. -/
def lowerAscii (s : JsString) : JsString :=
  s.map fun u => if 0x41 ≤ u ∧ u ≤ 0x5A then u + 0x20 else u

def NAME_DEDUPED_SUBJECT_KINDS : List SubjectKind :=
  [.person, .organization, .product, .service]

/-- What `idx_subjects_canonical` holds of a row. -/
def SubjectRow.canonicalKey (row : SubjectRow) : Option (JsString × SubjectKind × JsString) :=
  if row.archivedAt.isNone ∧ row.kind ∈ NAME_DEDUPED_SUBJECT_KINDS then
    some (lowerAscii row.name, row.kind, row.ownerUserId)
  else none

/-- Whether another row has the canonical key of this one. -/
def Graph.clashes (g : Graph) (id : Id) (row : SubjectRow) : Bool :=
  row.canonicalKey.isSome &&
    g.subjects.rows.any fun e => e.1 ≠ id && e.2.canonicalKey = row.canonicalKey

end Lynox.Subjects
