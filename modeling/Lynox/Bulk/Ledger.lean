import Lynox.Bulk.Types
import Lynox.Data.Table

/-!
# The ledger as two tables

`Ledger` holds the runs with their targets and the confirmed probes. A run's id and a
target's `seq` are primary keys, carried as fields, and an update statement is an edit that
keeps the key (`TargetEdit`, `RunEdit`), under the condition of its `WHERE`. What a
statement does to a row is read off `target?_editTarget` and `runRow_editRun`; nothing else
of the ledger changes.
-/

namespace Lynox.Bulk

/-- A row of `bulk_host_probes`. -/
structure HostProbe where
  host : String
  method : String
  kind : String
  runId : String
  confirmedBy : Option String
  confirmedAt : Time
  deriving DecidableEq, Repr

/-- The bulk tables of `engine.db`, the runs in the order they were inserted. -/
structure Ledger where
  runs : List Run
  probes : List HostProbe := []
  id_nodup : (runs.map Run.id).Nodup

/-! ## Edits -/

/-- What `SET` does to a row of `bulk_targets` : never its key. -/
structure TargetEdit where
  apply : Target → Target
  keeps : ∀ t, (apply t).seq = t.seq := by intro t; rfl

/-- What `SET` does to a row of `bulk_runs`, its targets included. -/
structure RunEdit where
  apply : Run → Run
  keeps : ∀ r, (apply r).id = r.id := by intro r; rfl

/-- The edit of the rows that satisfy `p`. -/
def TargetEdit.under (p : Target → Bool) (e : TargetEdit) : TargetEdit where
  apply t := if p t then e.apply t else t
  keeps t := by
    split
    · exact e.keeps t
    · rfl

theorem TargetEdit.under_pos {p : Target → Bool} {e : TargetEdit} {t : Target} (h : p t = true) :
    (e.under p).apply t = e.apply t :=
  if_pos h

/-- What an edit keeps of a target, it keeps of it under `p`. -/
theorem TargetEdit.under_keeps {α : Type} {f : Target → α} {e : TargetEdit} {p : Target → Bool}
    {t : Target} (h : f (e.apply t) = f t) : f ((e.under p).apply t) = f t := by
  simp only [TargetEdit.under]
  split
  · exact h
  · rfl

/-- The edit of the rows that satisfy `p`. -/
def RunEdit.under (p : Run → Bool) (e : RunEdit) : RunEdit where
  apply r := if p r then e.apply r else r
  keeps r := by
    split
    · exact e.keeps r
    · rfl

/-! ## Targets of a run -/

namespace Run

/-- The target under `seq`. -/
def target? (r : Run) (seq : ℕ) : Option Target :=
  Table.find Target.seq r.targets seq

/-- An update of every target of the run. -/
def mapTargets (e : TargetEdit) (r : Run) : Run :=
  { r with
    targets := r.targets.map e.apply
    seq_nodup := by rw [Table.map_key e.keeps]; exact r.seq_nodup }

/-- An update of the target under `seq`. -/
def editTarget (seq : ℕ) (e : TargetEdit) (r : Run) : Run :=
  r.mapTargets (e.under fun t => t.seq = seq)

variable {r : Run} {e : TargetEdit} {seq seq' : ℕ} {t : Target}

theorem mem_of_target? (h : r.target? seq = some t) : t ∈ r.targets :=
  Table.mem_of_find h

theorem seq_of_target? (h : r.target? seq = some t) : t.seq = seq :=
  Table.key_of_find h

theorem target?_of_mem (h : t ∈ r.targets) : r.target? t.seq = some t :=
  Table.find_of_mem r.seq_nodup h

theorem target?_mapTargets : (r.mapTargets e).target? seq = (r.target? seq).map e.apply :=
  Table.find_map e.keeps

theorem mem_mapTargets : t ∈ (r.mapTargets e).targets ↔ ∃ u ∈ r.targets, e.apply u = t :=
  List.mem_map

theorem target?_editTarget_ne (h : seq' ≠ seq) :
    (r.editTarget seq e).target? seq' = r.target? seq' := by
  rw [editTarget, target?_mapTargets]
  rcases ht : r.target? seq' with _ | t
  · rfl
  · simp [TargetEdit.under, seq_of_target? ht, h]

theorem target?_editTarget_self :
    (r.editTarget seq e).target? seq = (r.target? seq).map e.apply := by
  rw [editTarget, target?_mapTargets]
  rcases ht : r.target? seq with _ | t
  · rfl
  · simp [TargetEdit.under, seq_of_target? ht]

theorem target?_editTarget : (r.editTarget seq e).target? seq' =
    if seq' = seq then (r.target? seq').map e.apply else r.target? seq' := by
  split
  · next h => rw [h, target?_editTarget_self]
  · next h => exact target?_editTarget_ne h

theorem map_mapTargets {α : Type} {f : Target → α} (h : ∀ t ∈ r.targets, f (e.apply t) = f t) :
    (r.mapTargets e).targets.map f = r.targets.map f := by
  rw [mapTargets, List.map_map]
  exact List.map_congr_left h

theorem map_editTarget {α : Type} {f : Target → α} (h : ∀ t ∈ r.targets, f (e.apply t) = f t) :
    (r.editTarget seq e).targets.map f = r.targets.map f :=
  map_mapTargets fun t ht => TargetEdit.under_keeps (h t ht)

/-- An edit that keeps `p` of every row keeps the number of rows that satisfy it. -/
theorem countP_editTarget {p : Target → Bool} (h : ∀ t, p (e.apply t) = p t) :
    (r.editTarget seq e).targets.countP p = r.targets.countP p := by
  have hmap : (r.editTarget seq e).targets.map p = r.targets.map p := map_editTarget fun t _ => h t
  have hkeep := congrArg (List.countP fun b : Bool => b) hmap
  rwa [List.countP_map, List.countP_map] at hkeep

/-- An edit of one row changes a count by that row alone. -/
theorem countP_editTarget_row {p : Target → Bool} (h : r.target? seq = some t) :
    (r.editTarget seq e).targets.countP p + (if p t then 1 else 0) =
      r.targets.countP p + (if p (e.apply t) then 1 else 0) := by
  have hedit : (e.under fun t => t.seq = seq).apply = Table.edit Target.seq seq e.apply := by
    funext t
    simp [TargetEdit.under, Table.edit]
  simp only [editTarget, mapTargets, hedit]
  exact Table.countP_edit r.seq_nodup h

/-- A row of an edited run is the edited row, or a row under another `seq`. -/
theorem mem_editTarget : t ∈ (r.editTarget seq e).targets ↔
    (∃ u, r.target? seq = some u ∧ e.apply u = t) ∨ t ∈ r.targets ∧ t.seq ≠ seq := by
  rw [editTarget, mem_mapTargets]
  constructor
  · rintro ⟨u, hu, rfl⟩
    by_cases hs : u.seq = seq
    · exact .inl ⟨u, hs ▸ target?_of_mem hu, by simp [TargetEdit.under, hs]⟩
    · exact .inr (by simpa [TargetEdit.under, hs] using hu)
  · rintro (⟨u, hu, rfl⟩ | ⟨ht, hs⟩)
    · exact ⟨u, mem_of_target? hu, by simp [TargetEdit.under, seq_of_target? hu]⟩
    · exact ⟨t, ht, by simp [TargetEdit.under, hs]⟩

end Run

/-! ## Runs of the ledger -/

namespace Ledger

/-- `SELECT * FROM bulk_runs WHERE id = ?`. -/
def runRow (L : Ledger) (id : String) : Option Run :=
  Table.find Run.id L.runs id

/-- An update of every run. -/
def mapRuns (e : RunEdit) (L : Ledger) : Ledger :=
  { L with
    runs := L.runs.map e.apply
    id_nodup := by rw [Table.map_key e.keeps]; exact L.id_nodup }

/-- An update of the run under `id`. -/
def editRun (L : Ledger) (id : String) (e : RunEdit) : Ledger :=
  L.mapRuns (e.under fun r => r.id = id)

/-- An update of the target under `seq` of the run under `id`. -/
def editTarget (L : Ledger) (id : String) (seq : ℕ) (e : TargetEdit) : Ledger :=
  L.editRun id { apply := Run.editTarget seq e }

/-- The target under `seq` of the run under `id`. -/
def row (L : Ledger) (id : String) (seq : ℕ) : Option Target :=
  (L.runRow id).bind (·.target? seq)

/-- A new run. An id already taken inserts nothing : it is the primary key. -/
def insertRun (L : Ledger) (r : Run) : Ledger :=
  if h : r.id ∈ L.runs.map Run.id then L
  else
    { L with
      runs := L.runs ++ [r]
      id_nodup := by
        rw [List.map_append, List.map_singleton, List.nodup_append_comm]
        exact List.nodup_cons.mpr ⟨h, L.id_nodup⟩ }

/-- Delete the runs `p`, with their targets. A run whose source goes keeps no source. -/
def deleteRuns (L : Ledger) (p : Run → Bool) : Ledger :=
  let kept : Ledger :=
    { L with
      runs := L.runs.filter fun r => !p r
      id_nodup := L.id_nodup.sublist (List.filter_sublist.map _) }
  kept.mapRuns <| RunEdit.under
    (fun r => r.sourceRunId.any fun s => L.runs.any fun q => q.id = s && p q)
    { apply := fun r => { r with sourceRunId := none } }

variable {L : Ledger} {e : RunEdit} {id id' : String} {r : Run}

theorem id_of_runRow (h : L.runRow id = some r) : r.id = id :=
  Table.key_of_find h

theorem mem_of_runRow (h : L.runRow id = some r) : r ∈ L.runs :=
  Table.mem_of_find h

theorem runRow_of_mem (h : r ∈ L.runs) : L.runRow r.id = some r :=
  Table.find_of_mem L.id_nodup h

theorem runRow_mapRuns : (L.mapRuns e).runRow id = (L.runRow id).map e.apply :=
  Table.find_map e.keeps

theorem mem_mapRuns : r ∈ (L.mapRuns e).runs ↔ ∃ q ∈ L.runs, e.apply q = r :=
  List.mem_map

theorem mapRuns_eq_self (h : ∀ x ∈ L.runs, e.apply x = x) : L.mapRuns e = L := by
  have hruns : L.runs.map e.apply = L.runs := (List.map_congr_left h).trans L.runs.map_id
  rcases L with ⟨runs, probes, nodup⟩
  simp only [mapRuns, Ledger.mk.injEq] at hruns ⊢
  exact ⟨hruns, trivial⟩

theorem runRow_editRun_ne (h : id' ≠ id) : (L.editRun id e).runRow id' = L.runRow id' := by
  rw [editRun, runRow_mapRuns]
  rcases hr : L.runRow id' with _ | r
  · rfl
  · simp [RunEdit.under, id_of_runRow hr, h]

theorem runRow_editRun_self : (L.editRun id e).runRow id = (L.runRow id).map e.apply := by
  rw [editRun, runRow_mapRuns]
  rcases hr : L.runRow id with _ | r
  · rfl
  · simp [RunEdit.under, id_of_runRow hr]

theorem runRow_editRun : (L.editRun id e).runRow id' =
    if id' = id then (L.runRow id').map e.apply else L.runRow id' := by
  split
  · next h => rw [h, runRow_editRun_self]
  · next h => exact runRow_editRun_ne h

theorem mem_editRun_ne (hr : r ∈ L.runs) (h : r.id ≠ id) : r ∈ (L.editRun id e).runs :=
  mem_of_runRow ((runRow_editRun_ne h).trans (runRow_of_mem hr))

theorem mem_editRun_self (h : L.runRow id = some r) : e.apply r ∈ (L.editRun id e).runs :=
  mem_of_runRow (runRow_editRun_self.trans (congrArg _ h))

theorem ids_editRun : (L.editRun id e).runs.map Run.id = L.runs.map Run.id :=
  Table.map_key (RunEdit.keeps _)

/-- A ledger with the same ids is known from its rows. -/
theorem runs_eq_of_runRow {L' : Ledger} {f : String → Run → Run}
    (hids : L'.runs.map Run.id = L.runs.map Run.id)
    (h : ∀ id, L'.runRow id = (L.runRow id).map (f id)) :
    L'.runs = L.runs.map fun x => f x.id x := by
  have hlen : L'.runs.length = L.runs.length := by simpa using congrArg List.length hids
  refine List.ext_getElem (by simpa using hlen) fun i h₁ h₂ => ?_
  have h₂' : i < L.runs.length := hlen ▸ h₁
  have hid : L'.runs[i].id = L.runs[i].id := by
    have := congrArg (·[i]?) hids
    simpa [h₁, h₂'] using this
  have hrow := h L'.runs[i].id
  rw [runRow_of_mem (List.getElem_mem h₁), hid, runRow_of_mem (List.getElem_mem h₂')] at hrow
  simpa using Option.some.inj hrow

theorem runRow_insertRun (h : L.runRow r.id = none) :
    (L.insertRun r).runRow id = if r.id = id then some r else L.runRow id := by
  have hn : r.id ∉ L.runs.map Run.id := Table.find_eq_none.mp h
  have hruns : (L.insertRun r).runs = L.runs ++ [r] := by rw [insertRun, dif_neg hn]
  rw [runRow, hruns, Table.find_append]
  split
  · next he =>
    rw [runRow, he] at h
    rw [h, Option.none_or, ← he]
    simp [Table.find]
  · next he =>
    have : Table.find Run.id [r] id = none := by simp [Table.find, he]
    rw [this, Option.or_none, runRow]

end Ledger

end Lynox.Bulk
