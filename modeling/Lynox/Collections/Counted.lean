import Lynox.Collections.Store
import Lynox.Process.Run

/-!
# The record count never hides rows

`RowsCounted` says that no collection has more rows than it is counted to have, and no table more than
`MAX_RECORDS`. Each operation keeps it in every state it commits (the `keeps_` lemmas), so it holds
after any sequence of operations, each let to its end or cut short by a crash (`rowsCounted_after`).
A collection that is counted empty is then empty, and the drop at boot takes no row.
-/

set_option linter.unusedSectionVars false

namespace Lynox.Collections

open Durable Throws

variable {ν ι : Type} [DecidableEq ν] {db db' : Store ν} {env : Env ν ι} {collection name : String}
  {info : Meta} {t t' : DataTable ν} {records : List (List (String × Option ι))}

/-- No collection has more rows than it is counted to have, and none more than `MAX_RECORDS`. -/
structure RowsCounted (db : Store ν) : Prop where
  counted : ∀ {name info t}, db.collections.get name = some info → db.tables.get name = some t →
    t.rows.length ≤ info.recordCount
  bounded : ∀ {name t}, db.tables.get name = some t → t.rows.length ≤ MAX_RECORDS

theorem rowsCounted_empty : RowsCounted (Store.empty ν) where
  counted h := nomatch h
  bounded h := nomatch h

/-! ## What a write must say of its rows -/

/-- Each table has no more rows than it had. -/
def NoMoreRows (tables tables' : Keyed String (DataTable ν)) : Prop :=
  ∀ name t', tables'.get name = some t' → ∃ t, tables.get name = some t ∧
    t'.rows.length ≤ t.rows.length

theorem noMoreRows_refl (tables : Keyed String (DataTable ν)) : NoMoreRows tables tables :=
  fun _ t h => ⟨t, h, le_rfl⟩

theorem NoMoreRows.trans {a b c : Keyed String (DataTable ν)} (hab : NoMoreRows a b)
    (hbc : NoMoreRows b c) : NoMoreRows a c := by
  intro name t'' h
  obtain ⟨t', ht', hle'⟩ := hbc name t'' h
  obtain ⟨t, ht, hle⟩ := hab name t' ht'
  exact ⟨t, ht, hle'.trans hle⟩

theorem noMoreRows_replace {tables : Keyed String (DataTable ν)} (ht : tables.get name = some t)
    (hle : t'.rows.length ≤ t.rows.length) : NoMoreRows tables (tables.replace name t') := by
  intro n s hs
  rw [Keyed.get_replace] at hs
  split at hs
  next hn =>
    obtain rfl := Option.some.inj hs
    exact ⟨t, hn ▸ ht, hle⟩
  next => exact ⟨s, hs, le_rfl⟩

/-- Collections that are counted as before, with no more rows than before. -/
theorem RowsCounted.of_noMoreRows (h : RowsCounted db) (hrows : NoMoreRows db.tables db'.tables)
    (hcount : ∀ name info', db'.collections.get name = some info' →
      ∃ info, db.collections.get name = some info ∧ info'.recordCount = info.recordCount) :
    RowsCounted db' where
  counted hinfo ht := by
    obtain ⟨info, hinfo, hsame⟩ := hcount _ _ hinfo
    obtain ⟨t, ht, hle⟩ := hrows _ _ ht
    exact hsame ▸ hle.trans (h.counted hinfo ht)
  bounded ht := by
    obtain ⟨t, ht, hle⟩ := hrows _ _ ht
    exact hle.trans (h.bounded ht)

/-- A table written with the count of its collection. -/
theorem RowsCounted.write (h : RowsCounted db) {f : Meta → Meta}
    (hcount : ∀ info, db.collections.get name = some info → t.rows.length ≤ (f info).recordCount)
    (hmax : t.rows.length ≤ MAX_RECORDS) :
    RowsCounted ⟨db.collections.updateAt name f, db.tables.replace name t⟩ where
  counted {n info s} hinfo hs := by
    rw [Keyed.get_updateAt] at hinfo
    rw [Keyed.get_replace] at hs
    obtain ⟨info₀, hinfo₀, rfl⟩ := Option.map_eq_some_iff.1 hinfo
    by_cases hn : n = name
    · rw [if_pos hn] at hs ⊢
      obtain rfl := Option.some.inj hs
      exact hcount info₀ (hn ▸ hinfo₀)
    · rw [if_neg hn] at hs ⊢
      exact h.counted hinfo₀ hs
  bounded {n s} hs := by
    rw [Keyed.get_replace] at hs
    split at hs
    · exact Option.some.inj hs ▸ hmax
    · exact h.bounded hs

/-! ## Creating, altering and dropping -/

theorem rowsCounted_createTables {scopeType scopeId : String} {columns : List ColumnDef}
    {uniqueKey : Option (List String)} (h : RowsCounted db)
    (hok : createTables env name scopeType scopeId columns uniqueKey db = .ok (info, db')) :
    RowsCounted db' := by
  unfold createTables at hok
  split at hok
  · exact nomatch hok
  · split at hok
    · exact nomatch hok
    · obtain ⟨-, rfl⟩ := Prod.mk.inj (Except.ok.inj hok)
      refine ⟨fun {n info s} hinfo hs => ?_, fun {n s} hs => ?_⟩
      · rw [Keyed.get_replace] at hinfo hs
        by_cases hn : n = name
        · rw [if_pos hn] at hs
          obtain rfl := Option.some.inj hs
          exact Nat.zero_le _
        · rw [if_neg hn] at hs hinfo
          exact h.counted hinfo hs
      · rw [Keyed.get_replace] at hs
        split at hs
        · obtain rfl := Option.some.inj hs
          exact Nat.zero_le _
        · exact h.bounded hs

theorem rowsCounted_alterTables {addColumns : List ColumnDef} {info' : Meta} (h : RowsCounted db)
    (hok : alterTables env collection addColumns info db = .ok (info', db')) : RowsCounted db' := by
  obtain ⟨_, -, hok⟩ := ok_of_bind hok
  obtain ⟨-, rfl⟩ := Prod.mk.inj (Except.ok.inj hok)
  refine h.of_noMoreRows (noMoreRows_refl _) fun n info' hinfo' => ?_
  rw [Keyed.get_updateAt] at hinfo'
  obtain ⟨info, hinfo, rfl⟩ := Option.map_eq_some_iff.1 hinfo'
  refine ⟨info, hinfo, ?_⟩
  split <;> rfl

theorem rowsCounted_dropTables (h : RowsCounted db) : RowsCounted (dropTables name db) := by
  have hsub : ∀ {α : Type} {k : Keyed String α} {n : String} {a : α},
      (k.delete fun n => n = name).get n = some a → k.get n = some a := by
    intro α k n a hget
    rw [Keyed.get_delete] at hget
    split at hget
    · exact nomatch hget
    · exact hget
  exact h.of_noMoreRows (fun n t ht => ⟨t, hsub ht, le_rfl⟩) fun n info hinfo => ⟨info, hsub hinfo, rfl⟩

/-! ## Records -/

theorem insertChecks_ok (hok : insertChecks env collection records db = .ok info) :
    db.collections.get collection = some info ∧ info.recordCount + records.length ≤ MAX_RECORDS := by
  obtain ⟨_, -, hok⟩ := ok_of_bind hok
  split at hok
  · exact nomatch hok
  next info' hget =>
    obtain ⟨_, hlimit, hok⟩ := ok_of_bind hok
    obtain ⟨_, -, hok⟩ := ok_of_bind hok
    obtain ⟨_, -, hok⟩ := ok_of_bind hok
    obtain rfl := Except.ok.inj hok
    exact ⟨hget, Nat.not_lt.1 (ok_of_throwIf hlimit)⟩

theorem length_insertRecord (env : Env ν ι) (collection : String) (info : Meta) (batch : Batch ν)
    (e : List (String × Option ι) × Nat) :
      (insertRecord env collection info batch e).table.rows.length ≤ batch.table.rows.length + 1 := by
  unfold insertRecord
  dsimp only
  split
  · exact Nat.le_succ _
  · split
    · exact Nat.le_succ _
    next t' hrun =>
      unfold runInsert at hrun
      split at hrun
      · exact Constrained.length_upsert hrun
      · exact (Constrained.length_insert hrun).le

/-- A batch adds at most a row for each record. -/
theorem length_insertRecords (env : Env ν ι) (collection : String) (info : Meta) :
    ∀ (es : List (List (String × Option ι) × Nat)) (batch : Batch ν),
      (es.foldl (insertRecord env collection info) batch).table.rows.length ≤
        batch.table.rows.length + es.length
  | [], _ => le_rfl
  | e :: es, batch => by
    rw [List.foldl_cons, List.length_cons]
    have hrest := length_insertRecords env collection info es (insertRecord env collection info batch e)
    have hfirst := length_insertRecord env collection info batch e
    omega

theorem rowsCounted_insertBatch {result : InsertResult} (h : RowsCounted db)
    (hinfo : db.collections.get collection = some info)
    (hlimit : info.recordCount + records.length ≤ MAX_RECORDS)
    (hok : insertBatch env collection records info db = .ok (result, db')) : RowsCounted db' := by
  unfold insertBatch at hok
  split at hok
  · exact nomatch hok
  next t ht =>
    obtain ⟨-, rfl⟩ := Prod.mk.inj (Except.ok.inj hok)
    have hbatch := length_insertRecords env collection info records.zipIdx ⟨t, 0, []⟩
    rw [List.length_zipIdx] at hbatch
    refine h.write (fun _ _ => le_rfl) ?_
    calc _ ≤ t.rows.length + records.length := hbatch
      _ ≤ info.recordCount + records.length := Nat.add_le_add_right (h.counted hinfo ht) _
      _ ≤ MAX_RECORDS := hlimit

theorem putChecks_ok {row : List (String × Option ι)} {plan : PutPlan ν}
    (hok : putChecks env collection row db = .ok plan) :
    db.collections.get collection = some plan.info ∧
      (Assoc.get plan.values plan.keyCol).join = some plan.key := by
  unfold putChecks at hok
  split at hok
  · cases hok
  next info hget =>
    split at hok
    next keyCol hkeyCol =>
      split at hok
      · cases hok
      · obtain ⟨values, -, hok⟩ := ok_of_bind hok
        split at hok
        · cases hok
        next key hkey =>
          obtain ⟨_, -, hok⟩ := ok_of_bind hok
          obtain ⟨_, -, hok⟩ := ok_of_bind hok
          obtain rfl := Except.ok.inj hok
          exact ⟨hget, hkey⟩
    · cases hok

/-- The row that is written has the key that was looked for. -/
theorem cell_rowCells (env : Env ν ι) {values : List (String × Option ν)} {keyCol : String} {key : ν}
    (n : Nat) (hkey : (Assoc.get values keyCol).join = some key) :
    Constrained.cell ⟨n, rowCells env values⟩ keyCol = some key := by
  have hget : Assoc.get values keyCol = some (some key) := Option.join_eq_some_iff.1 hkey
  obtain ⟨e, he, hval⟩ := Option.map_eq_some_iff.1 hget
  have hrow : Table.find Prod.fst (rowCells env values) keyCol = some e := by
    rw [rowCells, Table.find_append, he, Option.some_or]
  rw [Constrained.cell, Assoc.get, hrow, Option.map_some, hval]
  rfl

theorem rowsCounted_putRow {plan : PutPlan ν} {outcome : PutOutcome} (h : RowsCounted db)
    (hinfo : db.collections.get collection = some plan.info)
    (hkey : (Assoc.get plan.values plan.keyCol).join = some plan.key)
    (hok : putRow env collection plan db = .ok (outcome, db')) : RowsCounted db' := by
  unfold putRow at hok
  split at hok
  · exact nomatch hok
  next t ht =>
    dsimp only at hok
    split at hok
    · exact nomatch hok
    next hlimit =>
      split at hok
      · exact nomatch hok
      next t' hrun =>
        obtain ⟨-, rfl⟩ := Prod.mk.inj (Except.ok.inj hok)
        have hcount := h.counted hinfo ht
        by_cases hfound : t.rows.any fun r => Constrained.cell r plan.keyCol = some plan.key
        · -- The row that was found has the key, so the statement updates it.
          have hsame : t'.rows.length = t.rows.length := by
            refine Constrained.length_upsert_of_found hrun ?_
            obtain ⟨r, hr, hcell⟩ := List.any_eq_true.1 hfound
            refine ⟨r, hr, ?_⟩
            have hnew := cell_rowCells env (t.seq + 1) hkey
            simp [Constrained.agree, hnew, of_decide_eq_true hcell]
          refine h.write (fun info' hinfo' => ?_) (hsame ▸ h.bounded ht)
          obtain rfl := Option.some.inj (hinfo.symm.trans hinfo')
          rw [hsame]
          exact Nat.le_add_right_of_le hcount
        · -- One row more at most, and the limit was checked for it.
          have hmore := Constrained.length_upsert hrun
          have hroom : plan.info.recordCount + 1 ≤ MAX_RECORDS := by
            simpa [hfound] using hlimit
          refine h.write (fun info' hinfo' => ?_) (hmore.trans ((Nat.succ_le_succ hcount).trans hroom))
          obtain rfl := Option.some.inj (hinfo.symm.trans hinfo')
          rw [if_neg hfound]
          exact hmore.trans (Nat.succ_le_succ hcount)

theorem rowsCounted_deleteRows {p : Row String ν → Bool} {ids : List Nat} (h : RowsCounted db)
    (hok : deleteRows collection p db = .ok (ids, db')) : RowsCounted db' := by
  unfold deleteRows at hok
  split at hok
  · exact nomatch hok
  next t ht =>
    obtain ⟨-, rfl⟩ := Prod.mk.inj (Except.ok.inj hok)
    exact h.of_noMoreRows (noMoreRows_replace ht Constrained.length_delete) fun n info hinfo =>
      ⟨info, hinfo, rfl⟩

theorem rowsCounted_recount (h : RowsCounted db) (hok : recount env collection db = .ok ((), db')) :
    RowsCounted db' := by
  unfold recount at hok
  split at hok
  · exact nomatch hok
  next t ht =>
    obtain ⟨-, rfl⟩ := Prod.mk.inj (Except.ok.inj hok)
    refine ⟨fun {n info s} hinfo hs => ?_, fun {n s} hs => h.bounded hs⟩
    rw [Keyed.get_updateAt] at hinfo
    obtain ⟨info₀, hinfo₀, rfl⟩ := Option.map_eq_some_iff.1 hinfo
    by_cases hn : n = collection
    · rw [if_pos hn]
      rw [hn, ht] at hs
      exact Option.some.inj hs ▸ le_rfl
    · rw [if_neg hn]
      exact h.counted hinfo₀ hs

/-! ## Subjects -/

theorem rowsCounted_repointTables {oldId newId : ν} {changed : List SubjectRepointRecord}
    (h : RowsCounted db) (hok : repointTables oldId newId db = .ok (changed, db')) :
    RowsCounted db' := by
  obtain ⟨⟨changed', tables⟩, hloop, hok⟩ := ok_of_bind hok
  obtain ⟨-, rfl⟩ := Prod.mk.inj (Except.ok.inj hok)
  have hrows : NoMoreRows db.tables tables := by
    refine foldlM_keeps (R := fun s s' => NoMoreRows s.2 s'.2) (fun s => noMoreRows_refl s.2)
      (fun _ _ _ => .trans) (fun s c s' hs => ?_) hloop
    unfold repointColumn at hs
    dsimp only at hs
    split at hs
    · exact nomatch hs
    next t ht =>
      split at hs
      · exact Except.ok.inj hs ▸ noMoreRows_refl s.2
      · split at hs
        · exact nomatch hs
        next t' hrun =>
          rw [← Except.ok.inj hs]
          exact noMoreRows_replace ht (Constrained.length_update hrun).le
  exact h.of_noMoreRows hrows fun n info hinfo => ⟨info, hinfo, rfl⟩

theorem rowsCounted_rollbackTables {oldId newId : ν} {moves : List (String × String × Nat)} {u : Unit}
    (h : RowsCounted db) (hok : rollbackTables oldId newId moves db = .ok (u, db')) :
    RowsCounted db' := by
  obtain ⟨tables, hloop, hok⟩ := ok_of_bind hok
  obtain ⟨-, rfl⟩ := Prod.mk.inj (Except.ok.inj hok)
  have hrows : NoMoreRows db.tables tables := by
    refine foldlM_keeps (R := NoMoreRows) noMoreRows_refl (fun _ _ _ => .trans)
      (fun tables move tables' hs => ?_) hloop
    unfold rollbackCell at hs
    dsimp only at hs
    split at hs
    · exact nomatch hs
    next t ht =>
      split at hs
      · exact nomatch hs
      next t' hrun =>
        rw [← Except.ok.inj hs]
        exact noMoreRows_replace ht (Constrained.length_update hrun).le
  exact h.of_noMoreRows hrows fun n info hinfo => ⟨info, hinfo, rfl⟩

/-! ## Sequences of operations -/

/-- An operation of the store. -/
inductive Call (ν ι : Type)
  | createCollection (name scopeType scopeId : String) (columns : List ColumnDef)
      (uniqueKey : Option (List String))
  | insertRecords (collection : String) (records : List (List (String × Option ι)))
  | putRowVerbatim (collection : String) (row : List (String × Option ι))
  | deleteRecords (collection : String) (filter : ι)
  | alterCollection (collection : String) (addColumns : List ColumnDef)
  | repointSubjectId (oldId newId : ν)
  | rollbackRepoint (oldId newId : ν) (records : List SubjectRepointRecord)
  | dropCollection (name : String)
  | dropEmptyCrmOverlaps (current : List CollectionShape)

/-- What an operation leaves where the process dies after `n` of its transactions. Where there are no
more than `n`, it came to its end. -/
def Call.left (env : Env ν ι) (db : Store ν) (n : Nat) : Call ν ι → Store ν
  | .createCollection name scopeType scopeId columns uniqueKey =>
    (Collections.createCollection env name scopeType scopeId columns uniqueKey).left db n
  | .insertRecords collection records => (Collections.insertRecords env collection records).left db n
  | .putRowVerbatim collection row => (Collections.putRowVerbatim env collection row).left db n
  | .deleteRecords collection filter => (deleteRecordsReturningIds env collection filter).left db n
  | .alterCollection collection addColumns =>
    (Collections.alterCollection env collection addColumns).left db n
  | .repointSubjectId oldId newId => (Collections.repointSubjectId oldId newId).left db n
  | .rollbackRepoint oldId newId records => (Collections.rollbackRepoint oldId newId records).left db n
  | .dropCollection name => (Collections.dropCollection name).left db n
  | .dropEmptyCrmOverlaps current => (Collections.dropEmptyCrmOverlaps current).left db n

/-- An operation in its surroundings, and after how many of its transactions the process dies. -/
structure Event (ν ι : Type) where
  env : Env ν ι
  call : Call ν ι
  landed : Nat

def perform (db : Store ν) (e : Event ν ι) : Store ν :=
  e.call.left e.env db e.landed

theorem keeps_insertRecords :
    Keeps RowsCounted RowsCounted (insertRecords env collection records) fun _ => RowsCounted := by
  unfold insertRecords
  split
  · exact keeps_pure fun _ h => h
  · refine keeps_checked fun info s result s' h hinfo hok => ?_
    obtain ⟨hget, hlimit⟩ := insertChecks_ok hinfo
    exact rowsCounted_insertBatch h hget hlimit hok

theorem keeps_deleteRecords {filter : ι} :
    Keeps RowsCounted RowsCounted (deleteRecordsReturningIds env collection filter)
      fun _ => RowsCounted := by
  refine Keeps.bind (keeps_reads (Q := fun _ => RowsCounted) fun _ _ h _ => h) fun p => ?_
  refine Keeps.bind (keeps_transaction (Q := fun _ => RowsCounted) fun s ids s' h hok =>
    ⟨rowsCounted_deleteRows h hok, rowsCounted_deleteRows h hok⟩) fun ids => ?_
  split
  · exact keeps_pure fun _ h => h
  · exact Keeps.bind (keeps_transaction (Q := fun _ => RowsCounted) fun s _ s' h hok =>
      ⟨rowsCounted_recount h hok, rowsCounted_recount h hok⟩) fun _ => keeps_pure fun _ h => h

/-- A drop keeps what the removal of its collection keeps. -/
theorem keeps_dropCollection {I : Store ν → Prop} (h : ∀ db, I db → I (dropTables name db)) :
    Keeps I I (dropCollection name) fun _ => I := by
  refine Keeps.bind (keeps_reads (Q := fun _ => I) fun _ _ h _ => h) fun found => ?_
  split
  · refine keeps_transaction fun db _ db' hdb hok => ?_
    obtain ⟨-, rfl⟩ := Prod.mk.inj (Except.ok.inj hok)
    exact ⟨h db hdb, h db hdb⟩
  · exact keeps_pure fun _ h => h

theorem keeps_dropEach {I : Store ν → Prop} : ∀ {names : List String},
    (∀ name ∈ names, ∀ db, I db → I (dropTables name db)) → Keeps I I (dropEach names) fun _ => I
  | [], _ => keeps_pure fun _ h => h
  | name :: names, h => by
    refine Keeps.bind (keeps_dropCollection (h name List.mem_cons_self)) fun did => ?_
    exact Keeps.bind (keeps_dropEach fun n hn => h n (List.mem_cons_of_mem name hn)) fun _ =>
      keeps_pure fun _ h => h

theorem rowsCounted_perform (h : RowsCounted db) (e : Event ν ι) : RowsCounted (perform db e) := by
  obtain ⟨env, call, landed⟩ := e
  cases call with
  | createCollection name scopeType scopeId columns uniqueKey =>
    exact (keeps_checked fun _ _ _ _ h _ hok => rowsCounted_createTables h hok).left h h landed
  | insertRecords collection records => exact keeps_insertRecords.left h h landed
  | putRowVerbatim collection row =>
    refine (keeps_checked fun plan s _ _ h hplan hok => ?_).left h h landed
    obtain ⟨hinfo, hkey⟩ := putChecks_ok hplan
    exact rowsCounted_putRow h hinfo hkey hok
  | deleteRecords collection filter => exact keeps_deleteRecords.left h h landed
  | alterCollection collection addColumns =>
    exact (keeps_checked fun _ _ _ _ h _ hok => rowsCounted_alterTables h hok).left h h landed
  | repointSubjectId oldId newId =>
    refine (keeps_transaction (Q := fun _ _ => True) fun s changed s' h hok => ?_).left h h landed
    exact ⟨rowsCounted_repointTables h hok, trivial⟩
  | rollbackRepoint oldId newId records =>
    exact (keeps_checked fun _ _ _ _ h _ hok => rowsCounted_rollbackTables h hok).left h h landed
  | dropCollection name =>
    exact (keeps_dropCollection fun _ h => rowsCounted_dropTables h).left h h landed
  | dropEmptyCrmOverlaps current =>
    exact (Keeps.bind (keeps_reads (Q := fun _ => RowsCounted) fun _ _ h _ => h) fun names =>
      keeps_dropEach fun _ _ _ h => rowsCounted_dropTables h).left h h landed

/-- After any operations, each cut short by a crash or not. -/
theorem rowsCounted_after (events : List (Event ν ι)) :
    RowsCounted (Run.after perform (Store.empty ν) events) :=
  Run.invariant (I := RowsCounted) (fun _ e h => rowsCounted_perform h e) rowsCounted_empty

/-- The drop at boot leaves a table with a row as it is, wherever it is cut short. -/
theorem get_dropEmptyCrmOverlaps (h : RowsCounted db) (ht : db.tables.get name = some t)
    (hrows : t.rows ≠ []) (current : List CollectionShape) (n : Nat) :
    ((dropEmptyCrmOverlaps current).left db n).tables.get name = some t := by
  have hname : name ∉ emptyCrmOverlaps current db := by
    intro hmem
    obtain ⟨⟨name', info⟩, hrow, rfl⟩ := List.mem_map.1 hmem
    obtain ⟨hlisted, hempty⟩ := List.mem_filter.1 hrow
    have hle := h.counted (Keyed.get_eq_some_iff.2 hlisted) ht
    have hzero : info.recordCount = 0 := by
      simp only [Bool.and_eq_true, decide_eq_true_eq] at hempty
      exact hempty.1.2
    exact hrows (List.length_eq_zero_iff.1 (Nat.le_zero.1 (hzero ▸ hle)))
  have hkeeps : Keeps (·.tables.get name = some t) (· = db) (dropEmptyCrmOverlaps current)
      fun _ s => s.tables.get name = some t := by
    refine Keeps.bind (Q := fun names s => s = db ∧ names = emptyCrmOverlaps current db)
      (keeps_reads fun s names hs hnames => ⟨hs, hs ▸ (Except.ok.inj hnames).symm⟩) fun names => ?_
    by_cases hnames : names = emptyCrmOverlaps current db
    · refine Keeps.mono (fun s hs => hs.1 ▸ ht) (fun _ _ h => h)
        (keeps_dropEach fun dropped hdropped s hs => ?_)
      have hne : name ≠ dropped := fun he => hname (hnames ▸ he ▸ hdropped)
      rw [dropTables, Keyed.get_delete, if_neg (by simpa using hne)]
      exact hs
    · exact fun s hs => absurd hs.2 hnames
  exact hkeeps.left ht rfl n

/-- No collection is ever counted to have fewer rows than it has, none has more than `MAX_RECORDS`,
and the drop at boot takes no collection with a row. -/
theorem record_count_hides_no_row (events : List (Event ν ι)) :
    let db := Run.after perform (Store.empty ν) events
    (∀ name info t, db.collections.get name = some info → db.tables.get name = some t →
      t.rows.length ≤ info.recordCount) ∧
    (∀ name t, db.tables.get name = some t → t.rows.length ≤ MAX_RECORDS) ∧
    ∀ name t, db.tables.get name = some t → t.rows ≠ [] → ∀ current n,
      ((dropEmptyCrmOverlaps current).left db n).tables.get name = some t :=
  have h := rowsCounted_after events
  ⟨fun _ _ _ => h.counted, fun _ _ => h.bounded, fun _ _ ht hrows => get_dropEmptyCrmOverlaps h ht hrows⟩

end Lynox.Collections
