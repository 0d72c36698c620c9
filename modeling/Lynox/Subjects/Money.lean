import Lynox.Subjects.Merge
import Lynox.Data.Throws

/-!
# Money pairs over a merge

The amount of a detail row and its currency are two columns. `updateDetail` is the statement by which a merge
fills the canonical's row; it gives the row that `coalesceDetailRow` computes. The pair of a subject is
followed through a merge, edits of the canonical's row and the rollback : it is never put together from the
two sides.
-/

namespace Lynox.Subjects

open Text Throws

/-! ## The statement -/

/-- What a column is set to; its placeholder takes the duplicate's cell. -/
inductive SetExpr
  /-- `COALESCE("c", ?)` -/
  | coalesce
  /-- `CASE WHEN "amount" IS NULL THEN ? ELSE "c" END` -/
  | whenNull (amount : DetailColumn)

/-- The value for a column of a row. -/
def SetExpr.eval (row : Cells) (c : DetailColumn) (v : Cell) : SetExpr → Cell
  | coalesce => (row c).orElse v
  | whenNull amount => if row amount = .null then v else row c

def mergeSets (t : DetailTable) : List (DetailColumn × SetExpr) :=
  t.cols.map fun c =>
    match t.moneyAmount with
    | some amount => if c = .currency then (c, .whenNull amount) else (c, .coalesce)
    | none => (c, .coalesce)

/-- `UPDATE … SET …` on a row : the placeholders are bound in order, and every expression reads the row as it
was. -/
def updateDetail {t : DetailTable} (sets : List (DetailColumn × SetExpr)) (vals : List Cell) (row : DetailRow t) :
    DetailRow t :=
  .ofCells t fun c =>
    match (sets.zip vals).find? fun e => e.1.1 = c with
    | some ((_, e), v) => e.eval row.cell c v
    | none => row.cell c

/-- The statement of a merge computes what the rollback recomputes. -/
theorem updateDetail_merge {t : DetailTable} (row : DetailRow t) (dupRow : Cells) :
    updateDetail (mergeSets t) (t.cols.map dupRow) row = .ofCells t (coalesceDetailRow t row.cell dupRow) := by
  refine DetailRow.ext (funext fun c => ?_)
  by_cases hc : c ∈ t.cols
  · rw [updateDetail, cell_ofCells _ hc, cell_ofCells _ hc]
    cases t <;> cases c <;> first | rfl | exact absurd hc (by decide)
  · exact (if_neg hc).trans (if_neg hc).symm

/-! ## The pair of a subject -/

section Money

variable {toLowerCase dec : JsString → JsString} {g g' g'' : Graph} {entry : MergeLedgerEntry} {t t' : DetailTable}
  {amount : DetailColumn} {id k dupId canonicalId : Id}

/-- The amount and the currency of a detail row, nulls where there is none. -/
def rowPair (amount : DetailColumn) : Option (DetailRow t) → Cell × Cell
  | some row => (row.cell amount, row.cell .currency)
  | none => (.null, .null)

def Graph.pair (g : Graph) (t : DetailTable) (amount : DetailColumn) (id : Id) : Cell × Cell :=
  rowPair amount ((g.details t).get id)

/-- Two graphs have the same detail rows, but for the columns that hold no money. -/
def SameMoney (amount : DetailColumn) (t : DetailTable) (g g' : Graph) : Prop :=
  ∀ id, ((g'.details t).get id).map (fun row => (row.cell amount, row.cell .currency)) =
    ((g.details t).get id).map fun row => (row.cell amount, row.cell .currency)

theorem SameMoney.trans (h : SameMoney amount t g g') (h' : SameMoney amount t g' g'') :
    SameMoney amount t g g'' :=
  fun id => (h' id).trans (h id)

theorem SameMoney.of_details (h : g'.details = g.details) : SameMoney amount t g g' := fun id => by rw [h]

theorem SameMoney.pair (h : SameMoney amount t g g') : g'.pair t amount id = g.pair t amount id := by
  have hid := h id
  unfold Graph.pair rowPair
  cases hrow : (g.details t).get id <;> cases hrow' : (g'.details t).get id <;> simp_all

theorem SameMoney.isSome (h : SameMoney amount t g g') :
    ((g'.details t).get id).isSome = ((g.details t).get id).isSome := by
  have hid := congrArg Option.isSome (h id)
  rwa [Option.isSome_map, Option.isSome_map] at hid

theorem amount_facts (h : t.moneyAmount = some amount) :
    amount ∈ t.cols ∧ .currency ∈ t.cols ∧ amount ≠ .currency ∧ t.default amount = .null ∧
      t.default .currency = .null ∧ (∀ c, c ∉ t.encryptedCols) ∧ ∀ r : EngagementRef, amount ≠ r.column := by
  cases t <;> simp only [DetailTable.moneyAmount, reduceCtorEq, Option.some.injEq] at h <;> subst h <;>
    refine ⟨by decide, by decide, by decide, rfl, rfl, fun _ => List.not_mem_nil, fun r => by cases r <;> decide⟩

/-! ### Rows that keep their money -/

theorem get_setDetails (rows : Keyed Id (DetailRow t)) : (g.setDetails t rows).details t = rows :=
  Function.update_self ..

theorem get_setDetails_of_ne (h : t' ≠ t) (rows : Keyed Id (DetailRow t)) :
    (g.setDetails t rows).details t' = g.details t' :=
  Function.update_of_ne h ..

theorem cell_moved (row : DetailRow t) {c c' : DetailColumn} (h : c' ≠ c) (old new : Id) :
    (row.moved c old new).cell c' = row.cell c' := by
  by_cases hc : c' ∈ t.cols
  · exact (if_pos hc).trans (if_neg fun hand => h hand.1)
  · rw [row.fits c' hc]
    exact if_neg hc

/-- A repointed row has its money. -/
theorem sameMoney_repoint (h : t.moneyAmount = some amount) (g : Graph) (r : EngagementRef) (p : Id → Prop)
    [DecidablePred p] (old new : Id) : SameMoney amount t g (g.setDetails .engagements
      ((g.details .engagements).update fun k row => if p k then row.moved r.column old new else row)) := by
  intro id
  by_cases ht : t = .engagements
  · subst ht
    have hcurrency : DetailColumn.currency ≠ r.column := by cases r <;> decide
    rw [get_setDetails, Keyed.get_update, Option.map_map]
    refine congrArg (Option.map · _) (funext fun row => ?_)
    simp only [Function.comp]
    split
    · rw [cell_moved row ((amount_facts h).2.2.2.2.2.2 r), cell_moved row hcurrency]
    · rfl
  · rw [get_setDetails_of_ne ht]

theorem sameMoney_repointAt (h : t.moneyAmount = some amount) (g : Graph) (old new : Id) (target : RepointTarget)
    (pk : Id) : SameMoney amount t g (g.repointAt old new target pk) := by
  cases target with
  | column c => exact .of_details rfl
  | engagement r => exact sameMoney_repoint h g r (fun k => k = pk) old new

theorem sameMoney_repointAll (h : t.moneyAmount = some amount) (g : Graph) (old new : Id)
    (target : RepointTarget) : SameMoney amount t g (g.repointAll old new target) := by
  cases target with
  | column c => exact .of_details rfl
  | engagement r =>
    have hall := sameMoney_repoint h g r (fun _ => True) old new
    simp only [if_true] at hall
    exact hall

/-- Statements that each keep the money keep it together. -/
theorem sameMoney_foldl {β : Type*} {step : Graph → β → Graph}
    (hstep : ∀ g b, SameMoney amount t g (step g b)) : ∀ (bs : List β) (g : Graph),
      SameMoney amount t g (bs.foldl step g)
  | [], _ => .of_details rfl
  | b :: bs, g => (hstep g b).trans (sameMoney_foldl hstep bs (step g b))

theorem sameMoney_foldlM {β : Type} {step : Graph → β → Except JsString Graph}
    (hstep : ∀ g b g', step g b = .ok g' → g'.details = g.details) {bs : List β}
    (h : bs.foldlM step g = .ok g') : SameMoney amount t g g' :=
  foldlM_keeps (R := SameMoney amount t) (fun _ => .of_details rfl) (fun _ _ _ => .trans)
    (fun g b g' hone => .of_details (hstep g b g' hone)) h

theorem sameMoney_executeRepoints (h : t.moneyAmount = some amount) (g : Graph) (entry : MergeLedgerEntry) :
    SameMoney amount t g (executeRepoints g entry) := by
  refine sameMoney_foldl (fun g r => ?_) entry.repoints g
  rcases r.target? with _ | (c | r')
  · exact .of_details rfl
  · cases c <;> first
      | exact sameMoney_foldl (fun g pk => sameMoney_repointAt h g _ _ _ pk) r.pks g
      | exact sameMoney_repointAll h g _ _ _
  · exact sameMoney_repointAll h g _ _ _

theorem sameMoney_rollbackRepoints (h : t.moneyAmount = some amount) (g : Graph) (entry : MergeLedgerEntry) :
    SameMoney amount t g (rollbackRepoints g entry) := by
  refine sameMoney_foldl (fun g r => ?_) entry.repoints g
  rcases r.target? with _ | target
  · exact .of_details rfl
  · exact sameMoney_foldl (fun g pk => sameMoney_repointAt h g _ _ target pk) r.pks g

theorem details_insertMention {subject : Id} {row : Id × Mention} (h : g.insertMention subject row = .ok g') :
    g'.details = g.details := by
  unfold Graph.insertMention at h
  split_ifs at h
  · rw [← Except.ok.inj h]
  · rw [← Except.ok.inj h]

theorem details_insertCooccurrence {row : (Id × Id) × Cooccurrence} (h : g.insertCooccurrence row = .ok g') :
    g'.details = g.details := by
  unfold Graph.insertCooccurrence at h
  split_ifs at h
  · rw [← Except.ok.inj h]
  · rw [← Except.ok.inj h]

theorem details_rollbackMention {row : Id × Mention} (h : rollbackMention g entry row = .ok g') :
    g'.details = g.details := by
  obtain ⟨g₁, hinsert, h⟩ := ok_of_bind h
  rw [← Except.ok.inj h, ← details_insertMention hinsert]
  split <;> rfl

theorem details_guardParent (g : Graph) (entry : MergeLedgerEntry) :
    (guardParent g entry).details = g.details := by
  unfold guardParent
  split <;> rfl

theorem details_executeAliases (g : Graph) (entry : MergeLedgerEntry) :
    (executeAliases toLowerCase g entry).details = g.details := by
  unfold executeAliases
  split <;> rfl

theorem details_restoreDup (h : restoreDup g entry = .ok g') : g'.details = g.details := by
  unfold restoreDup at h
  simp only at h
  split at h
  · rw [← Except.ok.inj h]
  · split_ifs at h
    rw [← Except.ok.inj h]
    rfl

theorem details_restoreCanonical (g : Graph) (entry : MergeLedgerEntry) :
    (restoreCanonical toLowerCase g entry).details = g.details := by
  have hparent : ∀ g : Graph, (restoreParent g entry).details = g.details := fun g => by
    unfold restoreParent
    split <;> rfl
  have haliases : (restoreAliases toLowerCase g entry).details = g.details := by
    unfold restoreAliases
    split <;> rfl
  rw [restoreCanonical, hparent, haliases]

/-! ### Statements on detail rows -/

theorem get_putDetail {row : DetailRow t} (h : g.putDetail t id row = .ok g') :
    (g'.details t).get k = if k = id then some row else (g.details t).get k := by
  unfold Graph.putDetail at h
  split at h
  · exact nomatch h
  · rw [← Except.ok.inj h, get_setDetails, Keyed.get_replace]

theorem get_deleteDetail :
    ((g.deleteDetail t id).details t).get k = if k = id then none else (g.details t).get k := by
  rw [Graph.deleteDetail, get_setDetails, Keyed.get_delete]
  by_cases hk : k = id <;> simp [hk]

theorem get_rekeyDetail {old new : Id} {row : DetailRow t} (hrow : (g.details t).get old = some row)
    (h : g.rekeyDetail t old new = .ok g') :
    (g'.details t).get k = if k = new then some row else if k = old then none else (g.details t).get k := by
  rw [Graph.rekeyDetail, hrow] at h
  dsimp only at h
  split at h
  · exact nomatch h
  · rw [← Except.ok.inj h, get_setDetails, Keyed.get_replace, Keyed.get_delete]
    by_cases hk : k = old <;> simp [hk]

/-- The row that `coalesceDetailRow` gives has the pair of one side. -/
theorem pair_coalesce (h : t.moneyAmount = some amount) (row : DetailRow t) (dupRow : Cells) :
    rowPair amount (some (fillDetail row dupRow)) =
      if row.cell amount = .null then (dupRow amount, dupRow .currency)
      else (row.cell amount, row.cell .currency) := by
  obtain ⟨hamount, hcurrency, hne, -⟩ := amount_facts h
  have hcell : (fillDetail row dupRow).cell amount = (row.cell amount).orElse (dupRow amount) := by
    rw [fillDetail, cell_ofCells _ hamount, coalesceDetailRow]
    simp only [h, hne, if_false]
  have hcell' : (fillDetail row dupRow).cell .currency =
      if row.cell amount = .null then dupRow .currency else row.cell .currency := by
    rw [fillDetail, cell_ofCells _ hcurrency, coalesceDetailRow]
    simp only [h, if_true]
  rw [rowPair, hcell, hcell']
  split
  · next hnull => rw [hnull, Cell.null_orElse]
  · next hnull => rw [Cell.orElse_of_ne hnull]

/-- The row that the rollback gives has the pair of the live row or of the row before. -/
theorem pair_restore (h : t.moneyAmount = some amount) (rowNow afterMerge before : Cells)
    (same : DetailColumn → Cell → Cell → Bool) :
    rowPair amount (some (.ofCells t (restoreDetailColumns t rowNow afterMerge before same) : DetailRow t)) =
        (rowNow amount, rowNow .currency) ∨
      rowPair amount (some (.ofCells t (restoreDetailColumns t rowNow afterMerge before same) : DetailRow t)) =
        (before amount, before .currency) := by
  obtain ⟨hamount, hcurrency, -⟩ := amount_facts h
  rw [rowPair, cell_ofCells _ hamount, cell_ofCells _ hcurrency]
  simp only [restoreDetailColumns, h, or_true, true_or, if_true]
  by_cases hkeep : (!same amount (rowNow amount) (afterMerge amount) ||
      !same .currency (rowNow .currency) (afterMerge .currency)) = true
  · exact .inl (by rw [if_pos hkeep, if_pos hkeep])
  · exact .inr (by rw [if_neg hkeep, if_neg hkeep])

/-! ## The merge -/

/-- What an entry holds of the detail rows before a merge. -/
structure Planned (g : Graph) (entry : MergeLedgerEntry) (t : DetailTable) : Prop where
  ne : entry.dupId ≠ entry.canonicalId
  table : DETAIL_TABLE entry.kind = some t
  detail : entry.detail = some ⟨g.detailCells t entry.dupId, g.detailCells t entry.canonicalId⟩

theorem planned_of_ok (ht : DETAIL_TABLE entry.kind = some t) (h : g.planMerge dupId canonicalId = .ok entry) :
    Planned g entry t ∧ entry.dupId = dupId ∧ entry.canonicalId = canonicalId := by
  unfold Graph.planMerge at h
  split at h
  · exact nomatch h
  · exact nomatch h
  · split_ifs at h with hne
    obtain rfl := Except.ok.inj h
    refine ⟨⟨hne, ht, ?_⟩, rfl, rfl⟩
    have hkind : DETAIL_TABLE _ = some t := ht
    simp only [Graph.mergeEntry] at hkind ⊢
    rw [hkind]
    rfl

/-- A detail row whose money is that of another, where there is one. -/
theorem SameMoney.some {row : DetailRow t} (h : SameMoney amount t g g') (hrow : (g.details t).get id = some row) :
    ∃ row', (g'.details t).get id = some row' ∧ rowPair amount (some row') = rowPair amount (some row) := by
  have hid := h id
  rw [hrow, Option.map_some, Option.map_eq_some_iff] at hid
  exact hid

theorem SameMoney.none (h : SameMoney amount t g g') (hrow : (g.details t).get id = none) :
    (g'.details t).get id = none := by
  have hid : ((g'.details t).get id).isSome = ((g.details t).get id).isSome := h.isSome
  rw [hrow] at hid
  exact Option.isSome_eq_false_iff.1 hid |> Option.isNone_iff_eq_none.1

/-- The merge of the detail rows gives the canonical the pair of one side and takes the duplicate's row. -/
theorem executeDetail_pair {g₀ : Graph} (hmoney : t.moneyAmount = some amount) (hplan : Planned g entry t)
    (hsame : SameMoney amount t g g₀) (h : executeDetail g₀ entry = .ok g') :
    (g'.pair t amount entry.canonicalId = g.pair t amount entry.canonicalId ∨
        g'.pair t amount entry.canonicalId = g.pair t amount entry.dupId) ∧
      (g'.details t).get entry.dupId = none := by
  simp only [executeDetail, hplan.detail, hplan.table, Graph.detailCells] at h
  cases hdup : (g.details t).get entry.dupId with
  | none =>
    simp only [hdup, Option.map_none] at h
    obtain rfl := Except.ok.inj h
    exact ⟨.inl hsame.pair, hsame.none hdup⟩
  | some d =>
    obtain ⟨d', hd', hpair⟩ := hsame.some hdup
    cases hcanonical : (g.details t).get entry.canonicalId with
    | none =>
      simp only [hdup, hcanonical, Option.map_none, Option.map_some] at h
      refine ⟨.inr ?_, ?_⟩
      · rw [Graph.pair, get_rekeyDetail hd' h, if_pos rfl, hpair, Graph.pair, hdup]
      · rw [get_rekeyDetail hd' h, if_neg hplan.ne, if_pos rfl]
    | some c =>
      obtain ⟨c', hc', hpair'⟩ := hsame.some hcanonical
      simp only [hdup, hcanonical, Option.map_some] at h
      obtain ⟨g₁, hfill, h⟩ := ok_of_bind h
      obtain rfl := Except.ok.inj h
      rw [fillCanonical, hc'] at hfill
      refine ⟨?_, by rw [get_deleteDetail, if_pos rfl]⟩
      rw [Graph.pair, get_deleteDetail, if_neg hplan.ne.symm, get_putDetail hfill, if_pos rfl,
        pair_coalesce hmoney, Graph.pair, Graph.pair, hdup, hcanonical]
      split
      · exact .inr rfl
      · exact .inl hpair'

/-- After a merge the canonical has the pair of one side, and the duplicate has no detail row. -/
theorem executeMerge_pair {now : JsString} (hmoney : t.moneyAmount = some amount) (hplan : Planned g entry t)
    (h : executeMerge toLowerCase g entry now = .ok g') :
    (g'.pair t amount entry.canonicalId = g.pair t amount entry.canonicalId ∨
        g'.pair t amount entry.canonicalId = g.pair t amount entry.dupId) ∧
      (g'.details t).get entry.dupId = none := by
  unfold executeMerge at h
  split at h
  · split_ifs at h
    obtain ⟨g₁, hmentions, h⟩ := ok_of_bind h
    obtain ⟨g₂, hdetail, h⟩ := ok_of_bind h
    obtain ⟨g₃, hinsert, hmentions⟩ := ok_of_bind hmentions
    have hsame : SameMoney amount t g (executeCooccurrences g₁ entry) := by
      refine (sameMoney_executeRepoints hmoney g entry).trans ?_
      refine (SameMoney.of_details (details_guardParent _ entry)).trans ?_
      refine (sameMoney_foldlM (fun _ _ _ => details_insertMention) hinsert).trans ?_
      exact .of_details (by rw [← Except.ok.inj hmentions]; rfl)
    have hend : g'.details = g₂.details := by
      rw [← Except.ok.inj h]
      exact details_executeAliases g₂ entry
    have hmerged := executeDetail_pair hmoney hplan hsame hdetail
    unfold Graph.pair at hmerged ⊢
    rwa [hend]
  · exact nomatch h

/-! ## The rollback -/

/-- The duplicate gets its row back. -/
theorem insertDup_pair {dupWas : DetailRow t} (hmoney : t.moneyAmount = some amount) (hplan : Planned g entry t)
    (h : insertDup g' entry t dupWas.cell = .ok g'') :
    g''.pair t amount entry.dupId = rowPair amount (some dupWas) ∧
      g''.pair t amount entry.canonicalId = g'.pair t amount entry.canonicalId := by
  obtain ⟨hamount, hcurrency, -, hdefault, hdefault', -⟩ := amount_facts hmoney
  unfold insertDup at h
  constructor
  · rw [Graph.pair, get_putDetail h, if_pos rfl, rowPair, cell_ofCells _ hamount, cell_ofCells _ hcurrency,
      hdefault, hdefault', Cell.orElse_null, Cell.orElse_null]
    rfl
  · rw [Graph.pair, get_putDetail h, if_neg hplan.ne.symm, Graph.pair]

/-- Of a money pair both columns are edited or none is. -/
theorem pair_mem_withMoneyPair (hmoney : t.moneyAmount = some amount) (cols : List DetailColumn) :
    amount ∈ withMoneyPair t cols ↔ .currency ∈ withMoneyPair t cols := by
  unfold withMoneyPair
  simp only [hmoney]
  split
  · have hin : ∀ c ∈ [amount, DetailColumn.currency],
        c ∈ cols ++ [amount, .currency].filter fun c => c ∉ cols := by
      intro c hc
      by_cases hold : c ∈ cols
      · exact List.mem_append_left _ hold
      · exact List.mem_append_right _ (List.mem_filter.2 ⟨hc, decide_eq_true hold⟩)
    exact iff_of_true (hin _ List.mem_cons_self) (hin _ (List.mem_cons_of_mem _ List.mem_cons_self))
  · next hnone => exact iff_of_false (fun hin => hnone (.inl hin)) fun hin => hnone (.inr hin)

/-- The canonical keeps the pair that an edit left, or has none, as before the merge. -/
theorem keepEdited_pair {rowNow : DetailRow t} {dupWas : Cells} (hmoney : t.moneyAmount = some amount)
    (h : keepEdited g' entry t rowNow.cell (editedCols dec t rowNow.cell dupWas) = .ok g'') :
    g''.pair t amount entry.canonicalId = rowPair amount (some rowNow) ∨
      g''.pair t amount entry.canonicalId = (.null, .null) := by
  obtain ⟨hamount, hcurrency, -, hdefault, hdefault', -⟩ := amount_facts hmoney
  unfold keepEdited at h
  simp only at h
  split at h
  · next hkeep =>
    rw [Graph.pair, get_putDetail h, if_pos rfl, rowPair, cell_ofCells _ hamount, cell_ofCells _ hcurrency,
      hdefault, hdefault']
    have hpair : amount ∈ editedCols dec t rowNow.cell dupWas ↔
        .currency ∈ editedCols dec t rowNow.cell dupWas := pair_mem_withMoneyPair hmoney _
    by_cases hedited : amount ∈ editedCols dec t rowNow.cell dupWas
    · refine .inl ?_
      have hedited' := hpair.1 hedited
      have hcell : ∀ c ∈ editedCols dec t rowNow.cell dupWas,
          (if c ∈ (editedCols dec t rowNow.cell dupWas).filter fun c => rowNow.cell c ≠ .null then
            rowNow.cell c else .null) = rowNow.cell c := by
        intro c hc
        by_cases hnull : rowNow.cell c = .null
        · rw [hnull, ite_self]
        · exact if_pos (List.mem_filter.2 ⟨hc, decide_eq_true hnull⟩)
      rw [hcell _ hedited, hcell _ hedited', rowPair]
    · refine .inr ?_
      rw [if_neg fun hin => hedited (List.mem_filter.1 hin).1,
        if_neg fun hin => hedited (hpair.2 (List.mem_filter.1 hin).1)]
  · rw [← Except.ok.inj h]
    refine .inr ?_
    rw [Graph.pair, get_deleteDetail, if_pos rfl]
    rfl

/-- A row that moved back untouched has the pair of the duplicate. -/
theorem pair_of_editedCols {rowNow dupWas : DetailRow t} (hmoney : t.moneyAmount = some amount)
    (h : (editedCols dec t rowNow.cell dupWas.cell).length = 0) :
    rowPair amount (some rowNow) = rowPair amount (some dupWas) := by
  obtain ⟨hamount, hcurrency, -, -, -, hplain, -⟩ := amount_facts hmoney
  have hsame : ∀ c ∈ t.cols, rowNow.cell c = dupWas.cell c := by
    intro c hc
    by_contra hne
    have hedited : c ∈ t.cols.filter fun c => !sameDetailCell dec t c (rowNow.cell c) (dupWas.cell c) := by
      refine List.mem_filter.2 ⟨hc, ?_⟩
      unfold sameDetailCell
      split
      · next s s' hs hs' =>
        rw [hs, hs'] at hne
        rw [if_neg (hplain c)]
        simpa using hne
      · simpa using hne
    have hin : c ∈ editedCols dec t rowNow.cell dupWas.cell := by
      unfold editedCols withMoneyPair
      simp only [hmoney]
      split
      · exact List.mem_append_left _ hedited
      · exact hedited
    rw [List.length_eq_zero_iff.1 h] at hin
    exact List.not_mem_nil hin
  rw [rowPair, hsame _ hamount, hsame _ hcurrency, rowPair]

/-- The rollback of the detail rows gives the duplicate its pair, and the canonical the one before the merge or
the one that is live. -/
theorem rollbackDetail_pair {live : Graph} (hmoney : t.moneyAmount = some amount) (hplan : Planned g entry t)
    (hdup : (live.details t).get entry.dupId = none) (h : rollbackDetail dec live entry = .ok g') :
    (g'.pair t amount entry.canonicalId = g.pair t amount entry.canonicalId ∨
        g'.pair t amount entry.canonicalId = live.pair t amount entry.canonicalId) ∧
      g'.pair t amount entry.dupId = g.pair t amount entry.dupId := by
  simp only [rollbackDetail, hplan.detail, hplan.table, Graph.detailCells] at h
  cases hdupWas : (g.details t).get entry.dupId with
  | none =>
    simp only [hdupWas, Option.map_none] at h
    obtain rfl := Except.ok.inj h
    refine ⟨.inr rfl, ?_⟩
    rw [Graph.pair, hdup, Graph.pair, hdupWas]
  | some dupWas =>
    have hD : g.pair t amount entry.dupId = rowPair amount (some dupWas) := by rw [Graph.pair, hdupWas]
    cases hbefore : (g.details t).get entry.canonicalId with
    | none =>
      simp only [hdupWas, hbefore, Option.map_none, Option.map_some, moveBack, Graph.detailCells] at h
      have hC : g.pair t amount entry.canonicalId = (.null, .null) := by
        rw [Graph.pair, hbefore]
        rfl
      cases hnow : (live.details t).get entry.canonicalId with
      | none =>
        simp only [hnow, Option.map_none] at h
        obtain ⟨hdup', hcanonical⟩ := insertDup_pair hmoney hplan h
        exact ⟨.inr hcanonical, hdup'.trans hD.symm⟩
      | some rowNow =>
        simp only [hnow, Option.map_some] at h
        have hL : live.pair t amount entry.canonicalId = rowPair amount (some rowNow) := by rw [Graph.pair, hnow]
        split at h
        · next hnone =>
          rw [hC, hD]
          constructor
          · refine .inl ?_
            rw [Graph.pair, get_rekeyDetail hnow h, if_neg hplan.ne.symm, if_pos rfl]
            rfl
          · rw [Graph.pair, get_rekeyDetail hnow h, if_pos rfl]
            exact pair_of_editedCols hmoney hnone
        · obtain ⟨g₁, hkeep, h⟩ := ok_of_bind h
          obtain ⟨hdup', hcanonical⟩ := insertDup_pair hmoney hplan h
          rw [hcanonical, hC, hL]
          exact ⟨(keepEdited_pair hmoney hkeep).symm, hdup'.trans hD.symm⟩
    | some before =>
      simp only [hdupWas, hbefore, Option.map_some] at h
      obtain ⟨g₁, hrestore, h⟩ := ok_of_bind h
      obtain ⟨hdup', hcanonical⟩ := insertDup_pair hmoney hplan h
      refine ⟨?_, hdup'.trans hD.symm⟩
      rw [hcanonical]
      simp only [restoreColumns, Graph.detailCells] at hrestore
      cases hnow : (live.details t).get entry.canonicalId with
      | none =>
        simp only [hnow, Option.map_none] at hrestore
        obtain rfl := Except.ok.inj hrestore
        exact .inr rfl
      | some rowNow =>
        simp only [hnow, Option.map_some] at hrestore
        have hback := pair_restore hmoney rowNow.cell (coalesceDetailRow t before.cell dupWas.cell) before.cell
          (sameDetailCell dec t)
        rw [Graph.pair, get_putDetail hrestore, if_pos rfl, Graph.pair, Graph.pair, hnow, hbefore]
        exact hback.symm

/-- A rollback that is refused leaves the graph; one that is not ends with the pairs of `rollbackDetail`. -/
theorem rollbackMerge_pair {live : Graph} (hmoney : t.moneyAmount = some amount) (hplan : Planned g entry t)
    (hdup : (live.details t).get entry.dupId = none) :
    ((rollbackMerge toLowerCase dec live entry).1.pair t amount entry.canonicalId =
          g.pair t amount entry.canonicalId ∨
        (rollbackMerge toLowerCase dec live entry).1.pair t amount entry.canonicalId =
          live.pair t amount entry.canonicalId) ∧
      ((rollbackMerge toLowerCase dec live entry).2 = none →
        (rollbackMerge toLowerCase dec live entry).1.pair t amount entry.dupId = g.pair t amount entry.dupId) := by
  unfold rollbackMerge
  cases hsteps : rollbackSteps toLowerCase dec live entry with
  | error reason => exact ⟨.inr rfl, fun hnone => nomatch hnone⟩
  | ok g' =>
    unfold rollbackSteps at hsteps
    split at hsteps
    · exact nomatch hsteps
    · obtain ⟨g₁, hrestore, h⟩ := ok_of_bind hsteps
      obtain ⟨g₂, hdetail, h⟩ := ok_of_bind h
      obtain ⟨g₃, hco, h⟩ := ok_of_bind h
      obtain ⟨g₄, hmentions, h⟩ := ok_of_bind h
      have hfront : (restoreCanonical toLowerCase g₁ entry).details = live.details := by
        rw [details_restoreCanonical, details_restoreDup hrestore]
      have hsame : SameMoney amount t g₂ g' := by
        refine (sameMoney_foldlM (fun _ _ _ => details_insertCooccurrence) hco).trans ?_
        refine (sameMoney_foldlM (fun _ _ _ => details_rollbackMention) hmentions).trans ?_
        rw [← Except.ok.inj h]
        exact sameMoney_rollbackRepoints hmoney g₄ entry
      have hback := rollbackDetail_pair hmoney hplan (by rw [hfront]; exact hdup) hdetail
      rw [← hsame.pair, ← hsame.pair] at hback
      unfold Graph.pair at hback ⊢
      rw [hfront] at hback
      exact ⟨hback.1, fun _ => hback.2⟩

end Money

/-- A write of the detail row of a subject. -/
def Graph.editDetail (g : Graph) (t : DetailTable) (id : Id) (edit : Option (DetailRow t) → Option (DetailRow t)) :
    Graph :=
  match edit ((g.details t).get id) with
  | some row => g.setDetails t ((g.details t).replace id row)
  | none => g.deleteDetail t id

def Graph.editDetails (g : Graph) (t : DetailTable) (id : Id)
    (edits : List (Option (DetailRow t) → Option (DetailRow t))) : Graph :=
  edits.foldl (fun g edit => g.editDetail t id edit) g

theorem get_editDetail (g : Graph) (t : DetailTable) (id k : Id)
    (edit : Option (DetailRow t) → Option (DetailRow t)) : ((g.editDetail t id edit).details t).get k =
      if k = id then edit ((g.details t).get id) else (g.details t).get k := by
  unfold Graph.editDetail
  cases hedit : edit ((g.details t).get id) with
  | some row => exact (congrArg (Keyed.get · k) (get_setDetails _)).trans Keyed.get_replace
  | none => exact get_deleteDetail

theorem get_editDetails_of_ne {t : DetailTable} {id k : Id} (hk : k ≠ id) :
    ∀ (edits : List (Option (DetailRow t) → Option (DetailRow t))) (g : Graph),
      ((g.editDetails t id edits).details t).get k = (g.details t).get k
  | [], _ => rfl
  | edit :: edits, g => by
    have htail := get_editDetails_of_ne hk edits (g.editDetail t id edit)
    rw [get_editDetail, if_neg hk] at htail
    exact htail

/-- A merge of two subjects with money, edits of the canonical's detail row and a rollback. At every time the
canonical has its own pair from before the merge, that of the duplicate, or the one that an edit left; after
the rollback the duplicate has its own. The statement of the merge gives the row that `coalesceDetailRow`
computes. -/
theorem money_keeps_currency (toLowerCase dec : JsString → JsString) (g g' : Graph) (dupId canonicalId : Id)
    (entry : MergeLedgerEntry) (now : JsString) (t : DetailTable) (amount : DetailColumn)
    (edits : List (Option (DetailRow t) → Option (DetailRow t)))
    (hplan : g.planMerge dupId canonicalId = .ok entry) (hmerge : executeMerge toLowerCase g entry now = .ok g')
    (htable : DETAIL_TABLE entry.kind = some t) (hmoney : t.moneyAmount = some amount) :
    (∀ first, first <+: edits →
      (g'.editDetails t canonicalId first).pair t amount canonicalId = g.pair t amount canonicalId ∨
      (g'.editDetails t canonicalId first).pair t amount canonicalId = g.pair t amount dupId ∨
      ∃ earlier edit, first = earlier ++ [edit] ∧
        (g'.editDetails t canonicalId first).pair t amount canonicalId =
          rowPair amount (edit (((g'.editDetails t canonicalId earlier).details t).get canonicalId))) ∧
    ((rollbackMerge toLowerCase dec (g'.editDetails t canonicalId edits) entry).1.pair t amount canonicalId =
        g.pair t amount canonicalId ∨
      (rollbackMerge toLowerCase dec (g'.editDetails t canonicalId edits) entry).1.pair t amount canonicalId =
        (g'.editDetails t canonicalId edits).pair t amount canonicalId) ∧
    ((rollbackMerge toLowerCase dec (g'.editDetails t canonicalId edits) entry).2 = none →
      (rollbackMerge toLowerCase dec (g'.editDetails t canonicalId edits) entry).1.pair t amount dupId =
        g.pair t amount dupId) ∧
    ∀ (row : DetailRow t) (dupRow : Cells), updateDetail (mergeSets t) (t.cols.map dupRow) row =
      .ofCells t (coalesceDetailRow t row.cell dupRow) := by
  obtain ⟨hplanned, rfl, rfl⟩ := planned_of_ok htable hplan
  obtain ⟨hmerged, hnone⟩ := executeMerge_pair hmoney hplanned hmerge
  have hdup : ((g'.editDetails t entry.canonicalId edits).details t).get entry.dupId = none := by
    rw [get_editDetails_of_ne hplanned.ne, hnone]
  obtain ⟨hcanonical, hback⟩ := rollbackMerge_pair hmoney hplanned hdup
  refine ⟨fun first _ => ?_, hcanonical, hback, updateDetail_merge⟩
  rcases List.eq_nil_or_concat first with rfl | ⟨earlier, edit, rfl⟩
  · exact hmerged.imp_right .inl
  · refine .inr (.inr ⟨earlier, edit, by rw [List.concat_eq_append], ?_⟩)
    rw [List.concat_eq_append, Graph.editDetails, List.foldl_append, Graph.pair]
    exact congrArg (rowPair amount) ((get_editDetail _ t _ _ edit).trans (if_pos rfl))

/-- Two services, the second with a currency but no rate. -/
private def rates : Graph where
  subjects := ⟨[utf16 "a", utf16 "b"].map fun id =>
    (id, ⟨.service, id, utf16 "[]", false, utf16 "system", none, none⟩), by decide⟩
  columns _ := .empty
  details t :=
    match t with
    | .services => ⟨[(utf16 "a", .ofCells .services fun c =>
        if c = .hourlyRateCents then .int 5000 else .text (utf16 "EUR")),
      (utf16 "b", .ofCells .services fun c => if c = .currency then .text (utf16 "USD") else .null)], by decide⟩
    | _ => .empty
  memorySubjects := .empty
  cooccurrences := .empty

/-- The rate comes over with its currency, and both go back. -/
theorem money_keeps_currency_rates : ∃ entry g', rates.planMerge (utf16 "a") (utf16 "b") = .ok entry ∧
    executeMerge id rates entry (utf16 "now") = .ok g' ∧
    (rollbackMerge id id (g'.editDetails .services (utf16 "b") []) entry).2 = none ∧
    (rollbackMerge id id (g'.editDetails .services (utf16 "b") []) entry).1.pair .services .hourlyRateCents
      (utf16 "a") = rates.pair .services .hourlyRateCents (utf16 "a") :=
  ⟨_, _, rfl, rfl, rfl, (money_keeps_currency id id rates _ (utf16 "a") (utf16 "b") _ (utf16 "now") .services
    .hourlyRateCents [] rfl rfl rfl rfl).2.2.1 rfl⟩

end Lynox.Subjects
