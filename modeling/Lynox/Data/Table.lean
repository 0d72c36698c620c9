import Mathlib.Data.List.Nodup
import Mathlib.Data.List.Count

/-!
# Rows under a primary key

A table is a list of rows with a key function; the key is primary when no two rows share
one. An update statement maps the rows by a function that keeps keys, so `find_map` is the
one rule the reading of an updated table needs. Where the key is primary, a row is in the
table exactly when it is found under its key (`find_eq_some_iff`), and an update under one
key changes a count of rows by at most that row (`countP_edit`).
-/

set_option linter.unusedSectionVars false

namespace Lynox.Table

variable {ρ κ : Type*} [DecidableEq κ] {key : ρ → κ} {rows : List ρ} {k : κ} {r : ρ}

/-- The row under `k`. -/
def find (key : ρ → κ) (rows : List ρ) (k : κ) : Option ρ :=
  rows.find? fun r => key r = k

theorem mem_of_find (h : find key rows k = some r) : r ∈ rows :=
  List.mem_of_find?_eq_some h

theorem key_of_find (h : find key rows k = some r) : key r = k := by
  simpa using List.find?_some h

theorem find_eq_none : find key rows k = none ↔ k ∉ rows.map key := by
  simp only [find, List.find?_eq_none, decide_eq_true_eq, List.mem_map, not_exists, not_and]

theorem find_of_mem (hk : (rows.map key).Nodup) (h : r ∈ rows) :
    find key rows (key r) = some r := by
  induction rows with
  | nil => simp at h
  | cons r' rows ih =>
    rw [List.map_cons, List.nodup_cons] at hk
    rcases List.mem_cons.mp h with rfl | h
    · simp [find]
    · have hne : key r' ≠ key r := fun he => hk.1 (he ▸ List.mem_map_of_mem h)
      simpa [find, hne] using ih hk.2 h

theorem find_eq_some_iff (hk : (rows.map key).Nodup) :
    find key rows k = some r ↔ r ∈ rows ∧ key r = k := by
  refine ⟨fun h => ⟨mem_of_find h, key_of_find h⟩, ?_⟩
  rintro ⟨h, rfl⟩
  exact find_of_mem hk h

/-- Under a primary key one row at most is under `k`. -/
theorem countP_le_one {p : ρ → Bool} (hk : (rows.map key).Nodup)
    (hp : ∀ r ∈ rows, p r = true → key r = k) : rows.countP p ≤ 1 := by
  have hle : rows.countP p ≤ (rows.map key).count k := by
    rw [List.count, List.countP_map]
    exact List.countP_mono_left fun r hr hpr => by simp [hp r hr hpr]
  exact Nat.le_trans hle (List.nodup_iff_count_le_one.mp hk k)

/-- Reading an updated table. -/
theorem find_map {f : ρ → ρ} (hf : ∀ r, key (f r) = key r) :
    find key (rows.map f) k = (find key rows k).map f := by
  simp only [find, List.find?_map, Function.comp_def, hf]

theorem map_key {f : ρ → ρ} (hf : ∀ r, key (f r) = key r) :
    (rows.map f).map key = rows.map key := by
  simp only [List.map_map, Function.comp_def, hf]

theorem find_append (rows rows' : List ρ) :
    find key (rows ++ rows') k = (find key rows k).or (find key rows' k) := by
  simp only [find, List.find?_append]

theorem find_filter {p : ρ → Bool} (hk : (rows.map key).Nodup) :
    find key (rows.filter p) k = (find key rows k).filter p := by
  have hk' : ((rows.filter p).map key).Nodup := hk.sublist (List.filter_sublist.map _)
  rcases h : find key rows k with _ | r
  · rw [Option.filter_none, find_eq_none]
    rw [find_eq_none] at h
    exact fun hm => h ((List.filter_sublist.map _).mem hm)
  · obtain ⟨hr, rfl⟩ := (find_eq_some_iff hk).mp h
    by_cases hp : p r
    · rw [Option.filter_some_pos hp, find_eq_some_iff hk']
      exact ⟨List.mem_filter.mpr ⟨hr, hp⟩, rfl⟩
    · rw [Option.filter_some_neg (by simpa using hp), find_eq_none]
      intro hm
      obtain ⟨r', hr', hkey⟩ := List.mem_map.mp hm
      obtain ⟨hr', hp'⟩ := List.mem_filter.mp hr'
      have hsame := find_of_mem hk hr'
      rw [hkey, find_of_mem hk hr] at hsame
      exact hp (Option.some.inj hsame ▸ hp')

/-- Reading a table whose rows were changed or dropped. -/
theorem find_filterMap {f : ρ → Option ρ} (hk : (rows.map key).Nodup)
    (hf : ∀ r ∈ rows, ∀ r', f r = some r' → key r' = key r) :
    find key (rows.filterMap f) k = (find key rows k).bind f := by
  induction rows with
  | nil => rfl
  | cons r rows ih =>
    rw [List.map_cons, List.nodup_cons] at hk
    have hrows : ∀ r' ∈ rows, ∀ r'', f r' = some r'' → key r'' = key r' :=
      fun r' hr' => hf r' (List.mem_cons_of_mem r hr')
    by_cases he : key r = k
    · have hrest : find key rows k = none := find_eq_none.2 (he ▸ hk.1)
      have hfirst : find key (r :: rows) k = some r := by simp [find, he]
      rw [hfirst, Option.bind_some, List.filterMap_cons]
      cases hr : f r with
      | none =>
        dsimp only
        rw [ih hk.2 hrows, hrest]
        rfl
      | some r' => simp [find, (hf r List.mem_cons_self r' hr).trans he]
    · have hfirst : find key (r :: rows) k = find key rows k := by simp [find, he]
      rw [hfirst, ← ih hk.2 hrows, List.filterMap_cons]
      cases hr : f r with
      | none => rfl
      | some r' => simp [find, hf r List.mem_cons_self r' hr, he]

theorem nodup_filterMap {f : ρ → Option ρ} (hk : (rows.map key).Nodup)
    (hf : ∀ r ∈ rows, ∀ r', f r = some r' → key r' = key r) :
    ((rows.filterMap f).map key).Nodup := by
  refine List.Nodup.sublist ?_ hk
  clear hk
  induction rows with
  | nil => exact List.Sublist.refl _
  | cons r rows ih =>
    have hrest := ih fun r' hr' => hf r' (List.mem_cons_of_mem r hr')
    rw [List.filterMap_cons, List.map_cons]
    cases hr : f r with
    | none => exact hrest.cons _
    | some r' =>
      rw [List.map_cons, hf r List.mem_cons_self r' hr]
      exact hrest.cons_cons _

/-! ## Counting rows -/

/-- The edit of one row : `f` under the key `k`, every other row as it was. -/
def edit (key : ρ → κ) (k : κ) (f : ρ → ρ) (r : ρ) : ρ :=
  if key r = k then f r else r

theorem countP_edit_of_notMem {p : ρ → Bool} {f : ρ → ρ} (hk : k ∉ rows.map key) :
    (rows.map (edit key k f)).countP p = rows.countP p := by
  have hmap : rows.map (edit key k f) = rows := by
    refine (List.map_congr_left fun r hr => ?_).trans rows.map_id
    exact if_neg fun he : key r = k => hk (he ▸ List.mem_map_of_mem hr)
  rw [hmap]

/-- An edit of one row changes a count by that row alone. -/
theorem countP_edit {p : ρ → Bool} {f : ρ → ρ} (hk : (rows.map key).Nodup)
    (h : find key rows k = some r) :
    (rows.map (edit key k f)).countP p + (if p r then 1 else 0) =
      rows.countP p + (if p (f r) then 1 else 0) := by
  induction rows with
  | nil => simp [find] at h
  | cons r' rows ih =>
    rw [List.map_cons, List.nodup_cons] at hk
    by_cases he : key r' = k
    · obtain rfl : r' = r := by simpa [find, he] using h
      rw [List.map_cons, List.countP_cons, List.countP_cons,
        countP_edit_of_notMem (he ▸ hk.1), edit, if_pos he]
      omega
    · have := ih hk.2 (by simpa [find, he] using h)
      rw [List.map_cons, List.countP_cons, List.countP_cons, edit, if_neg he]
      omega

end Lynox.Table
