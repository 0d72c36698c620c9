import Lynox.Bulk.Lifecycle
import Lynox.Data.Oldest

/-!
# Planning under the cap

Every planning inserts its run and drops prunable runs so that at most
`bulkMaxPreviewedRuns` are left : of its own planner as many as are over the cap, or, for the
owner, the oldest of all planners. No run that was approved is among them, and an undo is
none of them; a planning that does not fit throws and leaves the ledger as it was.

Anyone but the owner never drops the run just planned : it is left out of the drop by its id.
The owner's drop keeps the newest runs by their creation time alone, so the run just planned
stays exactly when fewer than `bulkMaxPreviewedRuns` prunable runs carry a later time. A clock
that was set back makes them carry one.
-/

namespace Lynox.Bulk

variable {V : Type} {D : Deps V}

/-! ## Plannings -/

/-- The three ways to plan a run. -/
inductive Planning (V : Type)
  | dryRun (p : DryRun V)
  | external (dead : String → Bool) (p : ExternalPlan V)
  | list (dead : String → Bool) (p : ListPlan)

namespace Planning

def params : Planning V → PlanParams
  | .dryRun p => p.toPlanParams
  | .external _ p => p.toPlanParams
  | .list _ p => p.toPlanParams

def op : Planning V → LedgerOp V
  | .dryRun p => .recordDryRun p
  | .external dead p => .recordExternalPlan dead p
  | .list dead p => .recordExternalListPlan dead p

/-- What a planning answers : the ledger with its run, or why it was refused. -/
def record [DecidableEq V] (D : Deps V) (L : Ledger) : Planning V → Except PlanRefusal Ledger
  | .dryRun p => L.recordDryRun D p
  | .external dead p => L.recordExternalPlan D dead p
  | .list dead p => L.recordExternalListPlan D dead p

/-- The run a planning inserts. -/
def run [DecidableEq V] (D : Deps V) : Planning V → Run
  | .dryRun p => Ledger.dryRun D p
  | .external _ p => Ledger.externalRun D p
  | .list _ p => Ledger.listRun D p

variable [DecidableEq V] {L : Ledger} {p : Planning V}

theorem run_id : (p.run D).id = p.params.id := by
  cases p <;> rfl

theorem run_createdAt : (p.run D).createdAt = p.params.createdAt := by
  cases p <;> rfl

theorem run_kind : (p.run D).kind = .apply := by
  cases p <;> rfl

theorem new_run (fresh : L.runRow p.params.id = none) : (p.run D).New L := by
  cases p with
  | dryRun p => exact Ledger.new_dryRun fresh
  | external dead p => exact Ledger.new_externalRun fresh
  | list dead p => exact Ledger.new_listRun fresh

end Planning

/-- `a` was not created later than `b`. -/
def Deps.notAfter (D : Deps V) (a b : Run) : Prop :=
  (!D.isoBefore b.createdAt a.createdAt) = true

instance (D : Deps V) : DecidableRel D.notAfter :=
  fun a b => inferInstanceAs (Decidable ((!D.isoBefore b.createdAt a.createdAt) = true))

/-- Times are compared by their texts, and texts are in order. -/
structure Deps.SortsTimes (D : Deps V) : Prop where
  asymm : ∀ a b, D.isoBefore a b = true → D.isoBefore b a = false
  split : ∀ a b c, D.isoBefore a c = true → D.isoBefore a b = true ∨ D.isoBefore b c = true

theorem Deps.SortsTimes.total (hD : D.SortsTimes) : Std.Total D.notAfter := by
  refine ⟨fun a b => ?_⟩
  rcases h : D.isoBefore b.createdAt a.createdAt with _ | _
  · exact .inl (by simp [notAfter, h])
  · exact .inr (by simp [notAfter, hD.asymm _ _ h])

theorem Deps.SortsTimes.trans (hD : D.SortsTimes) : IsTrans Run D.notAfter := by
  refine ⟨fun a b c hab hbc => ?_⟩
  simp only [notAfter, Bool.not_eq_true'] at hab hbc ⊢
  by_contra h
  rcases hD.split _ b.createdAt _ (by simpa using h) with h | h
  · simp [hbc] at h
  · simp [hab] at h

theorem Run.New.prunable {L : Ledger} {r : Run} (h : r.New L) (hkind : r.kind = .apply) :
    r.prunable = true := by
  have hphase := h.unapproved
  simp only [Run.unapproved, Bool.or_eq_true, decide_eq_true_eq] at hphase
  simp [Run.prunable, Run.judgeStarted, hkind, h.cap, hphase.symm]

namespace Ledger

variable {L L' : Ledger}

theorem haltDeadReads_none (L : Ledger) : L.haltDeadReads (fun _ => false) = L :=
  mapRuns_eq_self fun x _ => by simp [RunEdit.under]

/-- A planning that succeeded : dead reads halted, the run inserted, and the drop made. -/
theorem record_ok [DecidableEq V] {p : Planning V} (h : p.record D L = .ok L') :
    ∃ dead own, (L.haltDeadReads dead).capRoomFor p.params.principal = .ok own ∧
      L' = ((L.haltDeadReads dead).insertRun (p.run D)).pruneUnapproved D p.params.principal own
        (some p.params.id) := by
  have hplan {r : Run} {principal : RequestPrincipal} {dead : String → Bool}
      (h : (L.haltDeadReads dead).plan D r principal = .ok L') :
      ∃ own, (L.haltDeadReads dead).capRoomFor principal = .ok own ∧
        L' = ((L.haltDeadReads dead).insertRun r).pruneUnapproved D principal own (some r.id) := by
    unfold plan at h
    split at h
    · cases h
    · next own hown => exact ⟨own, hown, (Except.ok.inj h).symm⟩
  cases p with
  | dryRun p =>
    simp only [Planning.record, recordDryRun] at h
    split_ifs at h
    rw [← haltDeadReads_none L] at h
    exact ⟨_, hplan h⟩
  | external dead p =>
    simp only [Planning.record, recordExternalPlan] at h
    split_ifs at h
    exact ⟨dead, hplan h⟩
  | list dead p =>
    simp only [Planning.record, recordExternalListPlan] at h
    split_ifs at h
    exact ⟨dead, hplan h⟩

/-- The halt of the dead reads changes nothing a drop looks at. -/
theorem countP_haltDeadReads {dead : String → Bool} {q : Run → Bool}
    (h : ∀ x reason, q { x with haltReason := some reason } = q x ∨ x.reading = false) :
    (L.haltDeadReads dead).runs.countP q = L.runs.countP q := by
  simp only [haltDeadReads, mapRuns, List.countP_map]
  refine List.countP_congr fun x _ => ?_
  simp only [Function.comp_apply, RunEdit.under]
  split
  · next hread =>
    rcases h x .unavailable with h | h
    · rw [h]
    · simp [h] at hread
  · rfl

theorem prunable_halted (x : Run) (reason : HaltReason) :
    Run.prunable { x with haltReason := some reason } = x.prunable ∨ x.reading = false := by
  by_cases hphase : x.phase = .planned
  · exact .inl (by simp [Run.prunable, Run.judgeStarted, hphase])
  · exact .inr (by simp [Run.reading, hphase])

/-! ## The drop -/

theorem nodup_ids_byAge {runs : List Run} (h : (runs.map Run.id).Nodup) :
    ((byAge D runs).map Run.id).Nodup :=
  ((List.perm_insertionSort ..).map Run.id).nodup_iff.mpr h

theorem nodup_ids_filter {runs : List Run} (h : (runs.map Run.id).Nodup) (q : Run → Bool) :
    ((runs.filter q).map Run.id).Nodup :=
  h.sublist (List.filter_sublist.map _)

theorem nodup_doomed (L : Ledger) (principal : RequestPrincipal) (own : ℕ)
    (newRun : Option String) : ((L.doomed D principal own newRun).map Run.id).Nodup := by
  unfold doomed
  split
  · exact (nodup_ids_byAge (nodup_ids_filter L.id_nodup _)).sublist ((List.take_sublist ..).map _)
  · exact (nodup_ids_byAge (nodup_ids_filter L.id_nodup _)).sublist ((List.take_sublist ..).map _)

theorem length_byAge (runs : List Run) : (byAge D runs).length = runs.length :=
  (List.perm_insertionSort ..).length_eq

theorem mem_byAge {runs : List Run} {x : Run} : x ∈ byAge D runs ↔ x ∈ runs :=
  (List.perm_insertionSort ..).mem_iff

/-- What a drop leaves : the rows that are not doomed. -/
theorem runs_pruneUnapproved {principal : RequestPrincipal} {own : ℕ} {newRun : Option String}
    (hL : L.Staged) : (L.pruneUnapproved D principal own newRun).runs =
      L.runs.filter fun x => x.id ∉ (L.doomed D principal own newRun).map Run.id := by
  have hunapproved : ∀ x ∈ L.runs,
      ((L.doomed D principal own newRun).map Run.id).contains x.id = true → x.approvedAt = none := by
    intro x hx hdoomed
    obtain ⟨q, hq, hid⟩ := List.mem_map.mp (List.contains_iff_mem.mp hdoomed)
    obtain ⟨hql, hprunable⟩ := prunable_of_doomed hq
    obtain rfl : q = x := Option.some.inj ((runRow_of_mem hql).symm.trans (hid ▸ runRow_of_mem hx))
    exact hL.approvedAt_of_prunable hx hprunable
  rw [pruneUnapproved, hL.runs_deleteRuns hunapproved]
  refine List.filter_congr fun x _ => ?_
  rw [List.contains_eq_mem, decide_not]

theorem runRow_pruneUnapproved {principal : RequestPrincipal} {own : ℕ} {newRun : Option String}
    (hL : L.Staged) {x : Run} (hx : x ∈ L.runs) :
    (L.pruneUnapproved D principal own newRun).runRow x.id = none ↔
      x ∈ L.doomed D principal own newRun := by
  have hruns : (L.pruneUnapproved D principal own newRun).runs =
      L.runs.filter fun x => x.id ∉ (L.doomed D principal own newRun).map Run.id :=
    runs_pruneUnapproved hL
  constructor
  · intro hnone
    by_contra hkept
    have hmem : x ∈ (L.pruneUnapproved D principal own newRun).runs := by
      rw [hruns, List.mem_filter, decide_eq_true_eq]
      refine ⟨hx, fun hid => hkept ?_⟩
      obtain ⟨q, hq, hqid⟩ := List.mem_map.mp hid
      obtain rfl : q = x := Option.some.inj
        ((runRow_of_mem (prunable_of_doomed hq).1).symm.trans (hqid ▸ runRow_of_mem hx))
      exact hq
    rw [runRow_of_mem hmem] at hnone
    cases hnone
  · intro hdoomed
    rcases hrow : (L.pruneUnapproved D principal own newRun).runRow x.id with _ | y
    · rfl
    · have hy := mem_of_runRow hrow
      rw [hruns, List.mem_filter, decide_eq_true_eq, id_of_runRow hrow] at hy
      exact absurd (List.mem_map_of_mem hdoomed) hy.2

/-- As many prunable runs are left as there were, without the doomed ones. -/
theorem countP_pruneUnapproved {principal : RequestPrincipal} {own : ℕ} {newRun : Option String}
    (hL : L.Staged) : (L.pruneUnapproved D principal own newRun).runs.countP Run.prunable +
      (L.doomed D principal own newRun).length = L.runs.countP Run.prunable := by
  rw [runs_pruneUnapproved hL, List.countP_eq_length_filter, List.countP_eq_length_filter,
    List.filter_comm]
  refine Oldest.length_filter_notMem (nodup_ids_filter L.id_nodup _) (nodup_doomed ..)
    fun x hx => ?_
  exact List.mem_filter.mpr (prunable_of_doomed hx)

/-! ### Of a planner's own runs -/

variable {r : Run} {principal : RequestPrincipal} {own : ℕ}

theorem filter_own (fresh : L.runRow r.id = none) :
    (L.insertRun r).runs.filter (fun x => x.prunableBy principal && some x.id ≠ some r.id) =
      L.runs.filter (Run.prunableBy principal) := by
  rw [runs_insertRun fresh, List.filter_append]
  have hnew : [r].filter (fun x => x.prunableBy principal && some x.id ≠ some r.id) = [] := by
    simp
  rw [hnew, List.append_nil]
  refine List.filter_congr fun x hx => ?_
  have hne : x.id ≠ r.id := by
    intro hid
    rw [← hid, runRow_of_mem hx] at fresh
    cases fresh
  simp [hne]

/-- Whose runs anyone but the owner drops. -/
theorem prunableBy_of_doomed (hprincipal : principal ≠ .owner) (fresh : L.runRow r.id = none)
    {x : Run} (hx : x ∈ (L.insertRun r).doomed D principal own (some r.id)) :
    x ∈ L.runs ∧ x.prunableBy principal = true := by
  rw [doomed, if_neg hprincipal, filter_own fresh] at hx
  exact List.mem_filter.mp (mem_byAge.mp (List.mem_of_mem_take hx))

theorem length_doomed_own (hprincipal : principal ≠ .owner) (fresh : L.runRow r.id = none)
    (hown : own ≤ L.runs.countP (Run.prunableBy principal)) :
    ((L.insertRun r).doomed D principal own (some r.id)).length = own := by
  rw [doomed, if_neg hprincipal, filter_own fresh, List.length_take, length_byAge,
    ← List.countP_eq_length_filter]
  omega

/-! ### Of the oldest of all -/

theorem length_doomed_owner (L : Ledger) (newRun : Option String) :
    (L.doomed D .owner own newRun).length = L.runs.countP Run.prunable - bulkMaxPreviewedRuns := by
  rw [doomed, if_pos rfl, List.length_take, length_byAge, ← List.countP_eq_length_filter]
  omega

/-- Prunable runs with a time later than `time`. -/
def prunableAfter (D : Deps V) (L : Ledger) (time : Time) : ℕ :=
  L.runs.countP fun x => x.prunable && D.isoBefore time x.createdAt

/-- The owner's drop takes the new run when enough prunable runs carry a later time. -/
theorem mem_doomed_owner (hD : D.SortsTimes) (fresh : L.runRow r.id = none)
    (hr : r.prunable = true) :
    r ∈ (L.insertRun r).doomed D .owner own (some r.id) ↔
      bulkMaxPreviewedRuns ≤ L.prunableAfter D r.createdAt := by
  have := hD.total
  have := hD.trans
  have hfilter : (L.insertRun r).runs.filter Run.prunable = L.runs.filter Run.prunable ++ [r] := by
    rw [runs_insertRun fresh, List.filter_append]
    simp [hr]
  have hnodup : (L.runs.filter Run.prunable ++ [r]).Nodup := by
    rw [← hfilter]
    exact (nodup_ids_filter (L.insertRun r).id_nodup _).of_map
  have hage := Oldest.mem_take_insertionSort (r := D.notAfter) hnodup bulkMaxPreviewedRuns
  rw [doomed, if_pos rfl, hfilter]
  dsimp only
  rw [length_byAge]
  refine hage.trans ?_
  rw [prunableAfter, List.countP_filter]
  simp [Deps.notAfter, Bool.and_comm]

/-! ## Under the cap -/

theorem countP_plan (fresh : L.runRow r.id = none) (hr : r.prunable = true)
    (hL : (L.insertRun r).Staged) (hroom : L.capRoomFor principal = .ok own) :
    ((L.insertRun r).pruneUnapproved D principal own (some r.id)).runs.countP Run.prunable ≤
      bulkMaxPreviewedRuns := by
  have hcount : ((L.insertRun r).pruneUnapproved D principal own (some r.id)).runs.countP
      Run.prunable + ((L.insertRun r).doomed D principal own (some r.id)).length =
      (L.insertRun r).runs.countP Run.prunable := countP_pruneUnapproved hL
  have hinsert : (L.insertRun r).runs.countP Run.prunable = L.runs.countP Run.prunable + 1 := by
    rw [runs_insertRun fresh, List.countP_append]
    simp [hr]
  by_cases hprincipal : principal = .owner
  · subst hprincipal
    rw [length_doomed_owner] at hcount
    omega
  · rw [capRoomFor, if_neg hprincipal] at hroom
    dsimp only at hroom
    split_ifs at hroom with hfits hexcess
    · cases hroom
      omega
    · cases hroom
      rw [length_doomed_own hprincipal fresh hexcess] at hcount
      omega

end Ledger

/-- The phases of a run that was approved. -/
def Phase.afterApproval : Phase → Bool
  | .approved | .writing | .done | .undone => true
  | .planned | .previewed | .aborted => false

/-- What a planning that succeeded owes : at most so many prunable runs are left, its own among
the rows, a planner other than the owner lost only its own, and no approved run and no undo
is gone. -/
structure Planning.UnderCap (p : Planning V) (L L' : Ledger) : Prop where
  cap : L'.runs.countP Run.prunable ≤ bulkMaxPreviewedRuns
  there : (L'.runRow p.params.id).isSome = true
  own : p.params.principal ≠ .owner → ∀ x ∈ L.runs, L'.runRow x.id = none →
    x.principal = some p.params.principal.tag ∧ x.mandateId = p.params.principal.grant
  keeps : ∀ x ∈ L.runs, x.phase.afterApproval = true ∨ x.kind = .undo →
    (L'.runRow x.id).isSome = true

namespace Ledger

variable {L : Ledger} {r : Run} {principal : RequestPrincipal} {own : ℕ}

theorem isSome_runRow_pruneUnapproved (hL : L.Staged) {newRun : Option String} {x : Run}
    (hx : x ∈ L.runs) : ((L.pruneUnapproved D principal own newRun).runRow x.id).isSome = true ↔
      x ∉ L.doomed D principal own newRun := by
  rw [← runRow_pruneUnapproved hL hx, Option.isSome_iff_ne_none]

/-- A run whose phase follows its approval, or an undo, is not dropped. -/
theorem not_prunable {x : Run} (h : x.phase.afterApproval = true ∨ x.kind = .undo) :
    x.prunable = false := by
  rcases h with hphase | hkind
  · rcases hp : x.phase <;> simp_all [Phase.afterApproval, Run.prunable]
  · simp [Run.prunable, hkind]

/-- The run just planned stays, unless the owner planned it behind runs with later times. -/
theorem isSome_plan (hD : D.SortsTimes) (fresh : L.runRow r.id = none) (hr : r.prunable = true)
    (hL : (L.insertRun r).Staged) :
    (((L.insertRun r).pruneUnapproved D principal own (some r.id)).runRow r.id).isSome = true ↔
      principal ≠ .owner ∨ L.prunableAfter D r.createdAt < bulkMaxPreviewedRuns := by
  have hmem : r ∈ (L.insertRun r).runs := by
    rw [runs_insertRun fresh]
    simp
  rw [isSome_runRow_pruneUnapproved hL hmem]
  by_cases hprincipal : principal = .owner
  · subst hprincipal
    rw [mem_doomed_owner hD fresh hr]
    simp
  · refine iff_of_true (fun hdoomed => ?_) (.inl hprincipal)
    rw [runRow_of_mem (prunableBy_of_doomed hprincipal fresh hdoomed).1] at fresh
    cases fresh

/-- The halt of the dead reads keeps every row, but for its halt. -/
theorem row_haltDeadReads (dead : String → Bool) {x : Run} (hx : x ∈ L.runs) :
    ∃ y ∈ (L.haltDeadReads dead).runs, y.id = x.id ∧ y.phase = x.phase ∧ y.kind = x.kind ∧
      y.principal = x.principal ∧ y.mandateId = x.mandateId := by
  refine ⟨_, mem_mapRuns.mpr ⟨x, hx, rfl⟩, ?_⟩
  simp only [RunEdit.under]
  split <;> simp

variable [DecidableEq V] {ops : List (LedgerOp V)} {p : Planning V} {L' : Ledger}

/-- A planning that succeeded meets the cap, and keeps its own run but for the owner's behind
runs with later times. -/
theorem underCap_iff (hD : D.SortsTimes) (hL : L.Staged) (fresh : L.runRow p.params.id = none)
    (h : p.record D L = .ok L') : p.UnderCap L L' ↔
      p.params.principal ≠ .owner ∨ L.prunableAfter D p.params.createdAt < bulkMaxPreviewedRuns := by
  obtain ⟨dead, own, hroom, rfl⟩ := record_ok h
  have hfresh : (L.haltDeadReads dead).runRow p.params.id = none :=
    runRow_haltDeadReads_none fresh
  have hafter : (L.haltDeadReads dead).prunableAfter D p.params.createdAt =
      L.prunableAfter D p.params.createdAt := by
    refine countP_haltDeadReads fun x reason => ?_
    rcases prunable_halted x reason with hsame | hreading
    · exact .inl (by rw [hsame])
    · exact .inr hreading
  have hH := hL.statements (reaches_haltDeadReads (D := D) dead hL)
  rw [← hafter, ← Planning.run_createdAt (D := D)]
  rw [← Planning.run_id (D := D)] at hfresh ⊢
  have hnew : (p.run D).New (L.haltDeadReads dead) :=
    Planning.new_run (Planning.run_id (D := D) ▸ hfresh)
  have hprunable := hnew.prunable Planning.run_kind
  have hI : ((L.haltDeadReads dead).insertRun (p.run D)).Staged :=
    hH.statement (D := D) (.inserts hnew)
  have hthere : ((((L.haltDeadReads dead).insertRun (p.run D)).pruneUnapproved D
      p.params.principal own (some (p.run D).id)).runRow (p.run D).id).isSome = true ↔
      p.params.principal ≠ .owner ∨
        (L.haltDeadReads dead).prunableAfter D (p.run D).createdAt < bulkMaxPreviewedRuns :=
    isSome_plan hD hfresh hprunable hI
  refine ⟨fun hcap => hthere.mp (Planning.run_id (D := D) ▸ hcap.there), fun hcond => ?_⟩
  refine ⟨countP_plan hfresh hprunable hI hroom, Planning.run_id (D := D) ▸ hthere.mpr hcond,
    fun hprincipal x hx hnone => ?_, fun x hx hphase => ?_⟩
  · obtain ⟨y, hy, hid, -, -, htag, hgrant⟩ := row_haltDeadReads dead hx
    have hyI : y ∈ ((L.haltDeadReads dead).insertRun (p.run D)).runs := by
      rw [runs_insertRun hfresh]
      exact List.mem_append_left _ hy
    rw [← hid, runRow_pruneUnapproved hI hyI] at hnone
    have hown := (prunableBy_of_doomed hprincipal hfresh hnone).2
    simp only [Run.prunableBy, Bool.and_eq_true, decide_eq_true_eq, htag, hgrant] at hown
    exact ⟨hown.1.2, hown.2⟩
  · obtain ⟨y, hy, hid, hyphase, hykind, -, -⟩ := row_haltDeadReads dead hx
    have hyI : y ∈ ((L.haltDeadReads dead).insertRun (p.run D)).runs := by
      rw [runs_insertRun hfresh]
      exact List.mem_append_left _ hy
    rw [← hid, isSome_runRow_pruneUnapproved hI hyI]
    intro hdoomed
    have hnot := not_prunable (x := y) (by rwa [hyphase, hykind])
    simp [(prunable_of_doomed hdoomed).2] at hnot

/-- After every run of operations : a planning that succeeds meets the cap and what it owes,
exactly when it is not the owner's or fewer than the cap of prunable runs carry a later time; and
one refused by the cap leaves every row as it was. -/
theorem planning_under_cap (hD : D.SortsTimes)
    (hops : Run.Obeys (step D) LedgerOp.Allowed empty ops)
    (fresh : (afterOps D ops).runRow p.params.id = none) :
    (∀ L', p.record D (afterOps D ops) = .ok L' → (p.UnderCap (afterOps D ops) L' ↔
      p.params.principal ≠ .owner ∨
        (afterOps D ops).prunableAfter D p.params.createdAt < bulkMaxPreviewedRuns)) ∧
    (∀ waiting, p.record D (afterOps D ops) = .error (.previewCap waiting) →
      (afterOps D ops).step D p.op = afterOps D ops) := by
  refine ⟨fun L' h => underCap_iff hD (staged_afterOps hops) fresh h, fun waiting h => ?_⟩
  cases p with
  | dryRun p =>
    simp only [Planning.record] at h
    simp only [Planning.op, step, h, orElse]
  | external dead p =>
    simp only [Planning.record] at h
    simp only [Planning.op, step, h, afterExternal]
  | list dead p =>
    simp only [Planning.record] at h
    simp only [Planning.op, step, h, afterExternal]

/-- The owner plans a dry run of one target. -/
def ownPreview (id : String) (createdAt : Time) : DryRun Bool :=
  { id, createdAt, createdBy := none, principal := .owner, targetSystem := "data_store",
    scope := "", targets := [.valid "a" (.value false) true] }

/-- The owner plans as many runs as are kept, all at one time. -/
def fullPreviews : List (LedgerOp Bool) :=
  ["0", "1", "2", "3", "4", "5", "6", "7", "8", "9"].map fun id => .recordDryRun (ownPreview id 10)

theorem obeys_fullPreviews : Run.Obeys (step plainDeps) LedgerOp.Allowed empty fullPreviews :=
  ⟨rfl, rfl, rfl, rfl, rfl, rfl, rfl, rfl, rfl, rfl, trivial⟩

theorem sortsTimes_plainDeps : plainDeps.SortsTimes where
  asymm := by
    intro a b h
    simp only [plainDeps, decide_eq_true_eq, decide_eq_false_iff_not] at h ⊢
    exact lt_asymm h
  split := by
    intro a b c h
    simp only [plainDeps, decide_eq_true_eq] at h ⊢
    rcases lt_or_ge a b with hab | hba
    · exact .inl hab
    · exact .inr (lt_of_le_of_lt hba h)

theorem eleventh_preview_fits :
    ∃ L', (Planning.dryRun (ownPreview "new" 10)).record plainDeps
      (afterOps plainDeps fullPreviews) = .ok L' ∧
      (Planning.dryRun (ownPreview "new" 10)).UnderCap (afterOps plainDeps fullPreviews) L' := by
  have hok : ((Planning.dryRun (ownPreview "new" 10)).record plainDeps
      (afterOps plainDeps fullPreviews)).toBool = true := by decide +kernel
  have hlater : (afterOps plainDeps fullPreviews).prunableAfter plainDeps 10 <
      bulkMaxPreviewedRuns := by decide +kernel
  rcases h : (Planning.dryRun (ownPreview "new" 10)).record plainDeps
      (afterOps plainDeps fullPreviews) with _ | L'
  · simp [h, Except.toBool] at hok
  · exact ⟨L', rfl, ((planning_under_cap sortsTimes_plainDeps obeys_fullPreviews rfl).1 L' h).mpr
      (.inr hlater)⟩

/-- Ten runs carry a later time than the one the owner plans : it is gone once it is planned. -/
theorem late_preview_is_dropped :
    Run.Obeys (step plainDeps) LedgerOp.Allowed empty fullPreviews ∧
      (afterOps plainDeps fullPreviews).runRow "late" = none ∧
      ∃ L', (Planning.dryRun (ownPreview "late" 0)).record plainDeps
        (afterOps plainDeps fullPreviews) = .ok L' ∧
        ¬(Planning.dryRun (ownPreview "late" 0)).UnderCap (afterOps plainDeps fullPreviews) L' := by
  have hgone : ((Planning.dryRun (ownPreview "late" 0)).record plainDeps
      (afterOps plainDeps fullPreviews)).toOption.map (fun L' => (L'.runRow "late").isSome) =
        some false := by decide +kernel
  refine ⟨obeys_fullPreviews, rfl, ?_⟩
  rcases h : (Planning.dryRun (ownPreview "late" 0)).record plainDeps
      (afterOps plainDeps fullPreviews) with _ | L'
  · simp [h, Except.toOption] at hgone
  · refine ⟨L', rfl, fun hcap => ?_⟩
    have hthere : (L'.runRow "late").isSome = true := hcap.there
    simp [h, Except.toOption, hthere] at hgone

end Ledger

end Lynox.Bulk
