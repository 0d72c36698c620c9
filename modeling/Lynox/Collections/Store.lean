import Lynox.Data.Constrained
import Lynox.Data.Keyed
import Lynox.Data.Throws
import Lynox.Process.Durable

/-!
# The data store

The data store keeps its collections in one database : a row of `ds_collections` for each, with its
schema and its record count, and a table with its records. Each operation first reads and checks, then
writes in one transaction, except for a delete, which counts what is left in a second one, and
`dropEmptyCrmOverlaps`, which drops its collections one after the other.

How a value is coerced to its column, how large the database is and which rows a filter selects are
parameters (`Env`), and so are the values themselves.
-/

namespace Lynox.Collections

open Throws

def MAX_COLLECTIONS : Nat := 100
def MAX_COLUMNS : Nat := 50
def MAX_RECORDS : Nat := 100000
def MAX_INSERT_BATCH : Nat := 1000
def MAX_DB_SIZE_BYTES : Nat := 500 * 1024 * 1024

def RESERVED_NAMES : List String := ["meta", "collections", "schema_version", "sqlite_master"]

def CRM_OVERLAP_NAMES : List String := ["contacts", "companies", "people", "deals", "interactions"]

/-- The system columns a filter may name. -/
def VISIBLE_META_COLUMNS : List String := ["_id", "_created_at", "_updated_at"]

/-- Every column the store writes itself. -/
def SYSTEM_COLUMNS : List String := VISIBLE_META_COLUMNS ++ ["_source_grants", "_source_run_id"]

/-- `COLLECTION_NAME_RE` and `VALID_COLUMN_NAME_RE`. -/
def validName (name : String) : Bool :=
  match name.toList with
  | [] => false
  | c :: cs => c.isLower && decide (cs.length ≤ 62) &&
      cs.all fun c => c.isLower || c.isDigit || c = '_'

/-! ## Collections -/

inductive SchemaType
  | string | number | date | boolean | json | subject
deriving DecidableEq

def SchemaType.text : SchemaType → String
  | .string => "string"
  | .number => "number"
  | .date => "date"
  | .boolean => "boolean"
  | .json => "json"
  | .subject => "subject"

/-- A user column. `occurredAt` is the role `occurred_at`. -/
structure ColumnDef where
  name : String
  type : SchemaType
  unique : Bool
  subjectKind : Option String
  occurredAt : Bool
deriving DecidableEq

/-- A row of `ds_collections`. -/
structure Meta where
  scopeType : String
  scopeId : String
  columns : List ColumnDef
  uniqueKey : Option (List String)
  recordCount : Nat
  createdAt : String
  updatedAt : String
deriving DecidableEq

/-- The unique key as it is read back : an empty one is none. -/
def Meta.key (m : Meta) : Option (List String) :=
  m.uniqueKey.filter fun key => !key.isEmpty

/-- The table of a collection. -/
abbrev DataTable (ν : Type) := Constrained String ν

/-- The database. -/
structure Store (ν : Type) where
  collections : Keyed String Meta
  tables : Keyed String (DataTable ν)

/-- A database with no collection. -/
def Store.empty (ν : Type) : Store ν :=
  ⟨⟨[], List.nodup_nil⟩, ⟨[], List.nodup_nil⟩⟩

/-- What the operations ask of their surroundings, for stored values `ν` and given values `ι`. -/
structure Env (ν ι : Type) where
  now : String
  /-- A text as it is stored. -/
  text : String → ν
  /-- `String(val)`, as it is stored. -/
  string : ι → ν
  dbSize : Store ν → Nat
  /-- `_coerceValue`, for the record with a number : a subject's name may be resolved otherwise later. -/
  coerceValue : Nat → ι → ColumnDef → Except String (Option ν)
  coercePlainColumnValue : ι → ColumnDef → Except String (Option ν)
  /-- `_buildWhere` : the rows a filter over some columns selects, or none where it has no clause. -/
  buildWhere : ι → List String → Except String (Option (Row String ν → Bool))

variable {ν ι : Type} [DecidableEq ν]

def checkDbSize (env : Env ν ι) (db : Store ν) : Except String Unit :=
  let dbSize := env.dbSize db
  let mb := dbSize / 1024 / 1024
  let limit := MAX_DB_SIZE_BYTES / 1024 / 1024
  if dbSize > MAX_DB_SIZE_BYTES then .error s!"DataStore disk size ({mb}MB) exceeds limit ({limit}MB)."
  else .ok ()

def noSuchTable (collection : String) : String :=
  s!"no such table: ds_{collection}"

/-- What SQLite says of a refused statement. -/
def violationText (collection : String) : Violation String → String
  | .unique key =>
    "UNIQUE constraint failed: " ++ ", ".intercalate (key.map fun c => s!"ds_{collection}.{c}")
  | .noConstraint => "ON CONFLICT clause does not match any PRIMARY KEY or UNIQUE constraint"

def validateOccurredAtRole (columns : List ColumnDef) : Except String Unit :=
  match columns.find? fun c => c.occurredAt && c.type ≠ .date with
  | some c =>
    let type := c.type.text
    .error (s!"Column \"{c.name}\" has role \"occurred_at\" but type \"{type}\". Only a \"date\" " ++
      "column can mark when a record occurred.")
  | none =>
    if columns.countP (·.occurredAt) > 1 then
      .error "A collection may mark at most one \"occurred_at\" column (the single event time)."
    else .ok ()

/-! ## Creating, altering and dropping -/

/-- The checks on one column of a new collection, after the names seen before it. -/
def newColumn (colNames : List String) (col : ColumnDef) : Except String (List String) :=
  if !validName col.name then
    .error (s!"Column name \"{col.name}\" is not valid. Use lowercase letters, numbers, and " ++
      "underscores only (e.g., \"revenue\", \"created_at\").")
  else if SYSTEM_COLUMNS.contains col.name then
    .error s!"Column name \"{col.name}\" is reserved by the system. Choose a different name."
  else if colNames.contains col.name then .error s!"Duplicate column name \"{col.name}\"."
  else .ok (colNames ++ [col.name])

/-- What `createCollection` checks before its transaction. -/
def createChecks (env : Env ν ι) (name : String) (columns : List ColumnDef)
    (uniqueKey : Option (List String)) (db : Store ν) : Except String Unit := do
  throwIf (!validName name) (s!"Table name \"{name}\" is not valid. Use lowercase letters, numbers, " ++
    "and underscores only (e.g., \"sales_data\", \"monthly_kpis\").")
  throwIf (RESERVED_NAMES.contains name)
    s!"Table name \"{name}\" is reserved by the system. Choose a different name."
  checkDbSize env db
  throwIf (db.collections.rows.length ≥ MAX_COLLECTIONS)
    s!"Maximum of {MAX_COLLECTIONS} tables reached. Delete unused tables first."
  throwIf (db.collections.get name).isSome s!"A table named \"{name}\" already exists."
  throwIf (columns.length = 0) "At least one column is required."
  throwIf (columns.length > MAX_COLUMNS) s!"Maximum {MAX_COLUMNS} columns per collection."
  let colNames ← columns.foldlM newColumn []
  validateOccurredAtRole columns
  match (uniqueKey.getD []).find? fun key => !colNames.contains key with
  | some key => .error s!"Unique key references column \"{key}\" which is not defined in the table."
  | none => .ok ()

/-- The unique constraints of a new table : its unique columns and its unique key. -/
def uniquesOf (columns : List ColumnDef) (uniqueKey : Option (List String)) : List (List String) :=
  (columns.filter (·.unique)).map (fun c => [c.name]) ++
    (uniqueKey.filter fun key => !key.isEmpty).toList

/-- The transaction of `createCollection`. -/
def createTables (env : Env ν ι) (name scopeType scopeId : String) (columns : List ColumnDef)
    (uniqueKey : Option (List String)) (db : Store ν) : Except String (Meta × Store ν) :=
  if (db.tables.get name).isSome then .error s!"table \"ds_{name}\" already exists"
  else if (db.collections.get name).isSome then
    .error "UNIQUE constraint failed: ds_collections.name"
  else
    let info : Meta := ⟨scopeType, scopeId, columns, uniqueKey, 0, env.now, env.now⟩
    .ok (info, {
      collections := db.collections.replace name info
      tables := db.tables.replace name (Constrained.create (uniquesOf columns uniqueKey)) })

def createCollection (env : Env ν ι) (name scopeType scopeId : String) (columns : List ColumnDef)
    (uniqueKey : Option (List String)) : Durable String (Store ν) Meta := do
  Durable.reads (createChecks env name columns uniqueKey)
  Durable.transaction (createTables env name scopeType scopeId columns uniqueKey)

/-- The checks on one added column, after the names there are. -/
def addColumn (existingNames : List String) (col : ColumnDef) : Except String (List String) :=
  if !validName col.name then
    .error (s!"Column name \"{col.name}\" is not valid. Use lowercase letters, numbers, and " ++
      "underscores only.")
  else if SYSTEM_COLUMNS.contains col.name then .error s!"Column name \"{col.name}\" is reserved."
  else if existingNames.contains col.name then .error s!"Column \"{col.name}\" already exists."
  else .ok (existingNames ++ [col.name])

/-- What `alterCollection` checks before its transaction. -/
def alterChecks (env : Env ν ι) (collection : String) (addColumns : List ColumnDef) (db : Store ν) :
    Except String Meta :=
  match db.collections.get collection with
  | none => .error s!"Collection \"{collection}\" not found."
  | some info => do
    checkDbSize env db
    throwIf (info.columns.length + addColumns.length > MAX_COLUMNS)
      s!"Would exceed {MAX_COLUMNS} column limit."
    validateOccurredAtRole (info.columns ++ addColumns)
    pure info

/-- The transaction of `alterCollection`. A new column is empty in every row. -/
def alterTables (env : Env ν ι) (collection : String) (addColumns : List ColumnDef) (info : Meta)
    (db : Store ν) : Except String (Meta × Store ν) := do
  let _ ← addColumns.foldlM addColumn (info.columns.map (·.name))
  let columns := info.columns ++ addColumns
  pure ({ info with columns, updatedAt := env.now }, { db with
    collections := db.collections.updateAt collection fun m => { m with columns, updatedAt := env.now } })

def alterCollection (env : Env ν ι) (collection : String) (addColumns : List ColumnDef) :
    Durable String (Store ν) Meta := do
  let info ← Durable.reads (alterChecks env collection addColumns)
  Durable.transaction (alterTables env collection addColumns info)

def dropTables (name : String) (db : Store ν) : Store ν where
  collections := db.collections.delete fun n => n = name
  tables := db.tables.delete fun n => n = name

def dropCollection (name : String) : Durable String (Store ν) Bool := do
  let found ← Durable.reads fun db => .ok (db.collections.get name).isSome
  if found then
    Durable.transaction fun db => .ok (true, dropTables name db)
  else pure false

/-! ## Records -/

structure InsertResult where
  inserted : Nat
  updated : Nat
  errors : List String

/-- What is in the database after some records of a batch, and what was said of them. -/
structure Batch (ν : Type) where
  table : DataTable ν
  succeeded : Nat
  errors : List String

/-- The values of a record, column by column. -/
def recordValues (env : Env ν ι) (i : Nat) (columns : List ColumnDef)
    (record : List (String × Option ι)) : Except String (List (String × Option ν)) :=
  columns.mapM fun col =>
    match (Assoc.get record col.name).join with
    | none => .ok (col.name, none)
    | some val => (env.coerceValue i val col).map fun v => (col.name, v)

/-- A row as it is written : the values and the system columns. -/
def rowCells (env : Env ν ι) (values : List (String × Option ν)) : List (String × Option ν) :=
  values ++ [("_created_at", some (env.text env.now)), ("_updated_at", some (env.text env.now))]

/-- `DO UPDATE SET` : every column but the key and `_created_at` as the new row has it. -/
def setExcluded (key : List String) (excluded cells : List (String × Option ν)) :
    List (String × Option ν) :=
  (excluded.filter fun e => !key.contains e.1 && e.1 ≠ "_created_at").foldl
    (fun cells e => Assoc.set cells e.1 e.2) cells

/-- The statement of `insertRecords`. -/
def runInsert (key : Option (List String)) (cells : List (String × Option ν)) (t : DataTable ν) :
    Except (Violation String) (DataTable ν) :=
  match key with
  | some key => t.upsert key cells (setExcluded key cells)
  | none => t.insert cells

/-- One record of a batch : a record that cannot be written is skipped. -/
def insertRecord (env : Env ν ι) (collection : String) (info : Meta) (batch : Batch ν)
    (e : List (String × Option ι) × Nat) : Batch ν :=
  let (record, i) := e
  match recordValues env i info.columns record with
  | .error message => { batch with errors := batch.errors ++ [s!"Record {i}: {message}"] }
  | .ok values =>
    let colNames := info.columns.map (·.name)
    let unknown := (record.map Prod.fst).filter fun key => !colNames.contains key
    let errors := batch.errors ++ unknown.map fun key => s!"Record {i}: unknown field \"{key}\" ignored."
    match runInsert info.key (rowCells env values) batch.table with
    | .error v =>
      let message := violationText collection v
      { batch with errors := errors ++ [s!"Record {i}: {message}"] }
    | .ok table => ⟨table, batch.succeeded + 1, errors⟩

/-- The statement is prepared : its table is there, and so is the constraint it is an upsert on. -/
def prepareInsert (collection : String) (key : Option (List String)) (db : Store ν) :
    Except String Unit :=
  match db.tables.get collection with
  | none => .error (noSuchTable collection)
  | some t =>
    match key with
    | some key => if key ∈ t.uniques then .ok () else .error (violationText collection .noConstraint)
    | none => .ok ()

/-- What `insertRecords` checks before its transaction. -/
def insertChecks (env : Env ν ι) (collection : String) (records : List (List (String × Option ι)))
    (db : Store ν) : Except String Meta := do
  throwIf (records.length > MAX_INSERT_BATCH) s!"Maximum {MAX_INSERT_BATCH} records per insert call."
  match db.collections.get collection with
  | none => .error s!"Collection \"{collection}\" not found."
  | some info => do
    let currentCount := info.recordCount
    throwIf (currentCount + records.length > MAX_RECORDS)
      s!"Collection \"{collection}\" would exceed {MAX_RECORDS} record limit (current: {currentCount})."
    checkDbSize env db
    prepareInsert collection info.key db
    pure info

/-- The transaction of `insertRecords`. -/
def insertBatch (env : Env ν ι) (collection : String) (records : List (List (String × Option ι)))
    (info : Meta) (db : Store ν) : Except String (InsertResult × Store ν) :=
  match db.tables.get collection with
  | none => .error (noSuchTable collection)
  | some t =>
    let batch := records.zipIdx.foldl (insertRecord env collection info) ⟨t, 0, []⟩
    let countAfter := batch.table.rows.length
    let inserted := countAfter - t.rows.length
    let updated := if info.key.isSome then batch.succeeded - inserted else 0
    .ok (⟨inserted, updated, batch.errors⟩, {
      collections := db.collections.updateAt collection fun m =>
        { m with recordCount := countAfter, updatedAt := env.now }
      tables := db.tables.replace collection batch.table })

def insertRecords (env : Env ν ι) (collection : String) (records : List (List (String × Option ι))) :
    Durable String (Store ν) InsertResult :=
  if records.isEmpty then pure ⟨0, 0, []⟩
  else do
    let info ← Durable.reads (insertChecks env collection records)
    Durable.transaction (insertBatch env collection records info)

inductive PutOutcome
  | inserted | updated
deriving DecidableEq

/-- A row to put : its collection as it was read, the key's column and value, and all values. -/
structure PutPlan (ν : Type) where
  info : Meta
  keyCol : String
  key : ν
  values : List (String × Option ν)

/-- The values of a row to put, column by column. A subject column's are stored verbatim. -/
def putValues (env : Env ν ι) (columns : List ColumnDef) (row : List (String × Option ι)) :
    Except String (List (String × Option ν)) :=
  columns.mapM fun col =>
    match (Assoc.get row col.name).join with
    | none => .ok (col.name, none)
    | some val =>
      if col.type = .subject then .ok (col.name, some (env.string val))
      else (env.coercePlainColumnValue val col).map fun v => (col.name, v)

/-- What `putRowVerbatim` checks before its transaction. -/
def putChecks (env : Env ν ι) (collection : String) (row : List (String × Option ι)) (db : Store ν) :
    Except String (PutPlan ν) :=
  match db.collections.get collection with
  | none => .error s!"Collection \"{collection}\" not found."
  | some info =>
    match info.key with
    | some [keyCol] =>
      match (row.map Prod.fst).find? fun k => !(info.columns.map (·.name)).contains k with
      | some k => .error s!"Unknown column \"{k}\"."
      | none => do
        let values ← putValues env info.columns row
        match (Assoc.get values keyCol).join with
        | none => .error "The row has no value for the unique key."
        | some key => do
          checkDbSize env db
          prepareInsert collection (some [keyCol]) db
          pure ⟨info, keyCol, key, values⟩
    | _ => .error s!"Collection \"{collection}\" has no single-column unique key."

/-- The transaction of `putRowVerbatim`. -/
def putRow (env : Env ν ι) (collection : String) (plan : PutPlan ν) (db : Store ν) :
    Except String (PutOutcome × Store ν) :=
  match db.tables.get collection with
  | none => .error (noSuchTable collection)
  | some t =>
    let found := t.rows.any fun r => Constrained.cell r plan.keyCol = some plan.key
    if !found && decide (plan.info.recordCount + 1 > MAX_RECORDS) then
      let current := plan.info.recordCount
      .error s!"Collection \"{collection}\" would exceed {MAX_RECORDS} record limit (current: {current})."
    else
      let cells := rowCells env plan.values
      match t.upsert [plan.keyCol] cells (setExcluded [plan.keyCol] cells) with
      | .error v => .error (violationText collection v)
      | .ok t' => .ok (if found then .updated else .inserted, {
          collections := db.collections.updateAt collection fun m =>
            { m with recordCount := m.recordCount + (if found then 0 else 1), updatedAt := env.now }
          tables := db.tables.replace collection t' })

def putRowVerbatim (env : Env ν ι) (collection : String) (row : List (String × Option ι)) :
    Durable String (Store ν) PutOutcome := do
  let plan ← Durable.reads (putChecks env collection row)
  Durable.transaction (putRow env collection plan)

/-- The rows a delete asks for. -/
def deleteWhere (env : Env ν ι) (collection : String) (filter : ι) (db : Store ν) :
    Except String (Row String ν → Bool) :=
  match db.collections.get collection with
  | none => .error s!"Collection \"{collection}\" not found."
  | some info => do
    let whereClause ← env.buildWhere filter (info.columns.map (·.name) ++ VISIBLE_META_COLUMNS)
    match whereClause with
    | none =>
      .error "A filter is required for delete operations. Use dropCollection() to remove all records."
    | some p => pure p

/-- `DELETE … RETURNING "_id"`. -/
def deleteRows (collection : String) (p : Row String ν → Bool) (db : Store ν) :
    Except String (List Nat × Store ν) :=
  match db.tables.get collection with
  | none => .error (noSuchTable collection)
  | some t => .ok ((t.rows.filter p).map (·.id),
      { db with tables := db.tables.replace collection (t.delete p) })

/-- `record_count` from what is counted. -/
def recount (env : Env ν ι) (collection : String) (db : Store ν) : Except String (Unit × Store ν) :=
  match db.tables.get collection with
  | none => .error (noSuchTable collection)
  | some t => .ok ((), { db with
      collections := db.collections.updateAt collection fun m =>
        { m with recordCount := t.rows.length, updatedAt := env.now } })

def deleteRecordsReturningIds (env : Env ν ι) (collection : String) (filter : ι) :
    Durable String (Store ν) (List Nat) := do
  let p ← Durable.reads (deleteWhere env collection filter)
  let ids ← Durable.transaction (deleteRows collection p)
  if ids.isEmpty then pure ids
  else do
    Durable.transaction (recount env collection)
    pure ids

/-! ## Subjects -/

/-- What a repoint changed. In a ledger that is read back a name may be no text. -/
structure SubjectRepointRecord where
  collection : Option String
  column : Option String
  ids : List Nat

/-- The subject columns, collection by collection. -/
def subjectColumns (db : Store ν) : List (String × String) :=
  db.collections.rows.flatMap fun e =>
    (e.2.columns.filter (·.type = .subject)).map fun col => (e.1, col.name)

/-- One column of a repoint. -/
def repointColumn (oldId newId : ν)
    (s : List SubjectRepointRecord × Keyed String (DataTable ν)) (c : String × String) :
    Except String (List SubjectRepointRecord × Keyed String (DataTable ν)) :=
  let (changed, tables) := s
  let (name, col) := c
  match tables.get name with
  | none => .error (noSuchTable name)
  | some t =>
    let ids := (t.rows.filter fun r => Constrained.cell r col = some oldId).map (·.id)
    if ids.isEmpty then .ok s
    else
      match t.update (fun r => Constrained.cell r col = some oldId)
          fun cells => Assoc.set cells col (some newId) with
      | .error v => .error (violationText name v)
      | .ok t' => .ok (changed ++ [⟨some name, some col, ids⟩], tables.replace name t')

def repointTables (oldId newId : ν) (db : Store ν) :
    Except String (List SubjectRepointRecord × Store ν) := do
  let (changed, tables) ← (subjectColumns db).foldlM (repointColumn oldId newId) ([], db.tables)
  pure (changed, { db with tables })

def repointSubjectId (oldId newId : ν) : Durable String (Store ν) (List SubjectRepointRecord) :=
  Durable.transaction (repointTables oldId newId)

inductive RepointState
  | ok (collection column : String)
  | gone
  | foreign

/-- Whether a record of a ledger can be moved back, and where. -/
def repointRecordState (db : Store ν) (record : SubjectRepointRecord) : RepointState :=
  match record.collection, record.column with
  | some collection, some column =>
    match db.collections.get collection with
    | none => .gone
    | some info =>
      match info.columns.find? fun c => c.name = column with
      | none => .gone
      | some col => if col.type = .subject then .ok collection column else .foreign
  | _, _ => .foreign

def FOREIGN_REPOINT_RECORD_REASON : String :=
  "the merge ledger names a column that is not a subject column of this data store — nothing was changed"

/-- The cells a rollback moves : where they are, and the rows. -/
def rollbackMoves (records : List SubjectRepointRecord) (db : Store ν) :
    Except String (List (String × String × Nat)) := do
  let moves ← records.mapM fun record =>
    match repointRecordState db record with
    | .ok collection column => .ok (record.ids.map fun id => (collection, column, id))
    | .gone => .ok []
    | .foreign => .error FOREIGN_REPOINT_RECORD_REASON
  pure moves.flatten

/-- One cell of a rollback. -/
def rollbackCell (oldId newId : ν) (tables : Keyed String (DataTable ν))
    (move : String × String × Nat) : Except String (Keyed String (DataTable ν)) :=
  let (name, col, id) := move
  match tables.get name with
  | none => .error (noSuchTable name)
  | some t =>
    match t.update (fun r => r.id = id && Constrained.cell r col = some newId)
        fun cells => Assoc.set cells col (some oldId) with
    | .error v => .error (violationText name v)
    | .ok t' => .ok (tables.replace name t')

def rollbackTables (oldId newId : ν) (moves : List (String × String × Nat)) (db : Store ν) :
    Except String (Unit × Store ν) := do
  let tables ← moves.foldlM (rollbackCell oldId newId) db.tables
  pure ((), { db with tables })

def rollbackRepoint (oldId newId : ν) (records : List SubjectRepointRecord) :
    Durable String (Store ν) Unit := do
  let moves ← Durable.reads (rollbackMoves records)
  Durable.transaction (rollbackTables oldId newId moves)

/-! ## At boot -/

/-- The shape of a collection the CRM creates. -/
structure CollectionShape where
  name : String
  scopeType : String
  scopeId : String
  columns : List ColumnDef
  uniqueKey : Option (List String)
deriving DecidableEq

def CollectionShape.isCurrent (c : CollectionShape) (name : String) (m : Meta) : Bool :=
  c.name = name && c.scopeType = m.scopeType && c.scopeId = m.scopeId && c.columns = m.columns &&
    c.uniqueKey = m.uniqueKey

/-- The collections of a CRM name that are counted empty and have no current shape. -/
def emptyCrmOverlaps (current : List CollectionShape) (db : Store ν) : List String :=
  (db.collections.rows.filter fun e => CRM_OVERLAP_NAMES.contains e.1 && e.2.recordCount = 0 &&
    !current.any fun c => c.isCurrent e.1 e.2).map Prod.fst

def dropEach : List String → Durable String (Store ν) (List String)
  | [] => pure []
  | name :: names => do
    let did ← dropCollection name
    let dropped ← dropEach names
    pure (if did then name :: dropped else dropped)

def dropEmptyCrmOverlaps (current : List CollectionShape) : Durable String (Store ν) (List String) := do
  let names ← Durable.reads fun db => .ok (emptyCrmOverlaps current db)
  dropEach names

end Lynox.Collections
