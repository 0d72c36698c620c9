import Lynox.Data.Assoc

/-!
# Tables and their statements

A table whose rows have a primary key : selecting, updating and deleting rows, and inserting a row where
its key is new (`insertOrIgnore`) or over the one that is there (`replace`). Every statement is known by
what is read under a key after it.
-/

namespace Lynox

/-- A table : rows under a primary key. -/
structure Keyed (κ ρ : Type*) where
  rows : List (κ × ρ)
  nodup : (rows.map Prod.fst).Nodup

namespace Keyed

variable {κ ρ : Type*} [DecidableEq κ] {t : Keyed κ ρ} {k k' : κ} {r : ρ}

/-- The table without rows. -/
def empty : Keyed κ ρ :=
  ⟨[], .nil⟩

/-- The row under a key. -/
def get (t : Keyed κ ρ) (k : κ) : Option ρ :=
  Assoc.get t.rows k

/-- The rows with `p`. -/
def select (t : Keyed κ ρ) (p : κ → ρ → Bool) : List (κ × ρ) :=
  t.rows.filter fun e => p e.1 e.2

/-- Every row changed by `f`. -/
def update (t : Keyed κ ρ) (f : κ → ρ → ρ) : Keyed κ ρ where
  rows := t.rows.map fun e => (e.1, f e.1 e.2)
  nodup := by
    rw [List.map_map]
    exact t.nodup

/-- The row under `k` changed by `f`. -/
def updateAt (t : Keyed κ ρ) (k : κ) (f : ρ → ρ) : Keyed κ ρ :=
  t.update fun k' r => if k' = k then f r else r

/-- The rows without those with `p`. -/
def delete (t : Keyed κ ρ) (p : κ → Bool) : Keyed κ ρ where
  rows := t.rows.filter fun e => !p e.1
  nodup := t.nodup.sublist (List.filter_sublist.map _)

/-- A row under its key, in place of the one there. -/
def replace (t : Keyed κ ρ) (k : κ) (r : ρ) : Keyed κ ρ where
  rows := Assoc.set t.rows k r
  nodup := by
    by_cases h : k ∈ t.rows.map Prod.fst
    · rw [Assoc.keys_set_of_mem h]
      exact t.nodup
    · rw [Assoc.keys_set_of_notMem h]
      exact List.nodup_append.2 ⟨t.nodup, List.nodup_singleton k, fun a ha b hb hab =>
        h (List.mem_singleton.1 hb ▸ hab ▸ ha)⟩

/-- A row under its key, where there is none. -/
def insertOrIgnore (t : Keyed κ ρ) (k : κ) (r : ρ) : Keyed κ ρ :=
  if (t.get k).isSome then t else t.replace k r

theorem get_eq_some_iff : t.get k = some r ↔ (k, r) ∈ t.rows :=
  ⟨Assoc.mem_of_get, Assoc.get_of_mem t.nodup⟩

theorem mem_select {p : κ → ρ → Bool} : (k, r) ∈ t.select p ↔ t.get k = some r ∧ p k r = true := by
  rw [select, List.mem_filter, get_eq_some_iff]

theorem get_update (f : κ → ρ → ρ) : (t.update f).get k = (t.get k).map (f k) := by
  rcases h : t.get k with _ | r
  · rw [Option.map_none, get, Assoc.get_eq_none]
    rw [get, Assoc.get_eq_none] at h
    intro hmem
    obtain ⟨e, he, rfl⟩ := List.mem_map.1 hmem
    obtain ⟨e', he', rfl⟩ := List.mem_map.1 he
    exact h (List.mem_map.2 ⟨e', he', rfl⟩)
  · rw [Option.map_some, get_eq_some_iff]
    exact List.mem_map.2 ⟨(k, r), get_eq_some_iff.1 h, rfl⟩

theorem get_updateAt (f : ρ → ρ) :
    (t.updateAt k f).get k' = (t.get k').map fun r => if k' = k then f r else r :=
  get_update _

theorem get_delete (p : κ → Bool) : (t.delete p).get k = if p k then none else t.get k := by
  rcases h : t.get k with _ | r
  · rw [ite_self, get, Assoc.get_eq_none]
    rw [get, Assoc.get_eq_none] at h
    intro hmem
    obtain ⟨e, he, rfl⟩ := List.mem_map.1 hmem
    exact h (List.mem_map_of_mem (List.mem_filter.1 he).1)
  · by_cases hp : p k
    · rw [if_pos hp, get, Assoc.get_eq_none]
      intro hmem
      obtain ⟨e, he, rfl⟩ := List.mem_map.1 hmem
      have hnot := (List.mem_filter.1 he).2
      rw [hp] at hnot
      exact nomatch hnot
    · rw [if_neg hp, get_eq_some_iff]
      exact List.mem_filter.2 ⟨get_eq_some_iff.1 h, by simp [hp]⟩

theorem get_replace : (t.replace k r).get k' = if k' = k then some r else t.get k' :=
  Assoc.get_set

theorem get_insertOrIgnore :
    (t.insertOrIgnore k r).get k' = if k' = k then (t.get k).or (some r) else t.get k' := by
  unfold insertOrIgnore
  rcases h : t.get k with _ | r'
  · exact get_replace
  · by_cases hk : k' = k
    · rw [if_pos hk, hk]
      exact h
    · rw [if_neg hk]
      rfl

end Keyed

end Lynox
