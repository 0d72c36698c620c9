import Lynox.Data.Table
import Mathlib.Algebra.GroupWithZero.Nat
import Mathlib.Algebra.Order.BigOperators.Group.List
import Mathlib.Algebra.Order.Group.Nat
import Mathlib.Data.List.Dedup

/-!
# Maps and sets in insertion order

A map is a list of entries in the order their keys were first set : setting a key that is
there replaces its value in place, setting a new one appends an entry. `get_set` is the one
rule for reading a map after a write. The set of the elements of a list keeps each at its
first occurrence (`List.eraseDups`), so a list is as long as its set exactly when it repeats
nothing (`length_eraseDups_eq_iff`).
-/

namespace Lynox.Assoc

variable {κ β : Type*} [DecidableEq κ] {m : List (κ × β)} {k k' : κ} {v : β}

/-- The value under `k`. -/
def get (m : List (κ × β)) (k : κ) : Option β :=
  (Table.find Prod.fst m k).map Prod.snd

/-- The map with `v` under `k`. -/
def set (m : List (κ × β)) (k : κ) (v : β) : List (κ × β) :=
  if k ∈ m.map Prod.fst then m.map fun e => if e.1 = k then (e.1, v) else e else m ++ [(k, v)]

theorem mem_of_get (h : get m k = some v) : (k, v) ∈ m := by
  obtain ⟨⟨a, b⟩, he, rfl⟩ := Option.map_eq_some_iff.mp h
  obtain rfl : a = k := Table.key_of_find he
  exact Table.mem_of_find he

theorem get_eq_none : get m k = none ↔ k ∉ m.map Prod.fst := by
  rw [get, Option.map_eq_none_iff, Table.find_eq_none]

theorem exists_get : (∃ v, get m k = some v) ↔ k ∈ m.map Prod.fst := by
  rw [← Option.isSome_iff_exists, ← not_iff_not, Bool.not_eq_true, Option.isSome_eq_false_iff,
    Option.isNone_iff_eq_none, get_eq_none]

theorem get_of_mem (hk : (m.map Prod.fst).Nodup) (h : (k, v) ∈ m) : get m k = some v := by
  rw [get, Table.find_of_mem hk h, Option.map_some]

/-- Reading a map after a write. -/
theorem get_set : get (set m k v) k' = if k' = k then some v else get m k' := by
  unfold set get
  by_cases hk : k ∈ m.map Prod.fst
  · rw [if_pos hk, Table.find_map (f := fun e => if e.1 = k then (e.1, v) else e)
      (fun e => by split <;> rfl)]
    rcases hf : Table.find Prod.fst m k' with _ | e
    · have hne : k' ≠ k := fun h => Table.find_eq_none.mp hf (h ▸ hk)
      simp [hne]
    · have he : e.1 = k' := Table.key_of_find hf
      by_cases h : k' = k
      · simp [he, h]
      · simp [he, h]
  · rw [if_neg hk, Table.find_append]
    by_cases h : k' = k
    · rw [h, Table.find_eq_none.mpr hk]
      simp [Table.find]
    · simp [Table.find, h, Ne.symm h]

@[simp] theorem get_set_self : get (set m k v) k = some v := by
  rw [get_set, if_pos rfl]

theorem get_set_of_ne (h : k' ≠ k) : get (set m k v) k' = get m k' := by
  rw [get_set, if_neg h]

/-- A map with the entries of some keys only. -/
theorem get_filter (p : κ → Bool) :
    get (m.filter fun e => p e.1) k = if p k then get m k else none := by
  induction m with
  | nil => simp [get, Table.find]
  | cons e m ih =>
    simp only [get, Table.find, List.filter_cons, List.find?_cons] at ih ⊢
    by_cases he : e.1 = k
    · by_cases hp : p k
      · simp [he, hp]
      · simpa [he, hp] using ih
    · by_cases hp : p e.1
      · simpa [he, hp] using ih
      · simpa [he, hp] using ih

/-- The map without `k`. -/
def erase (m : List (κ × β)) (k : κ) : List (κ × β) :=
  m.filter fun e => e.1 ≠ k

theorem get_erase : get (erase m k) k' = if k' = k then none else get m k' := by
  have h := @get_filter κ β _ m k' fun x => decide (x ≠ k)
  rw [erase, h]
  by_cases hk : k' = k <;> simp [hk]

theorem keys_set_of_mem (h : k ∈ m.map Prod.fst) :
    (set m k v).map Prod.fst = m.map Prod.fst := by
  rw [set, if_pos h, List.map_map]
  refine List.map_congr_left fun e _ => ?_
  simp only [Function.comp_apply]
  split <;> rfl

theorem keys_set_of_notMem (h : k ∉ m.map Prod.fst) :
    (set m k v).map Prod.fst = m.map Prod.fst ++ [k] := by
  rw [set, if_neg h, List.map_append, List.map_singleton]

theorem nodup_keys_set (h : (m.map Prod.fst).Nodup) : ((set m k v).map Prod.fst).Nodup := by
  by_cases hk : k ∈ m.map Prod.fst
  · rwa [keys_set_of_mem hk]
  · rw [keys_set_of_notMem hk, List.nodup_append]
    exact ⟨h, List.nodup_singleton k, fun x hx y hy => by
      rw [List.mem_singleton.mp hy]
      exact fun hxk => hk (hxk ▸ hx)⟩

theorem mem_keys_set : k' ∈ (set m k v).map Prod.fst ↔ k' = k ∨ k' ∈ m.map Prod.fst := by
  by_cases h : k ∈ m.map Prod.fst
  · rw [keys_set_of_mem h]
    exact ⟨Or.inr, fun h' => h'.elim (fun he => he ▸ h) id⟩
  · rw [keys_set_of_notMem h, List.mem_append, List.mem_singleton, or_comm]

/-- Setting a key that is there, to a value that weighs less, makes the map that much
lighter. -/
theorem weight_set_le (w : κ × β → ℕ) {u : β} (h : get m k = some u)
    (hle : ∀ b, w (k, v) ≤ w (k, b)) :
    ((set m k v).map w).sum + w (k, u) ≤ (m.map w).sum + w (k, v) := by
  rw [set, if_pos (exists_get.mp ⟨u, h⟩), List.map_map]
  have hmem := mem_of_get h
  clear h
  induction m with
  | nil => simp at hmem
  | cons e m ih =>
    have hother : ∀ e' ∈ m, (w ∘ fun e => if e.1 = k then (e.1, v) else e) e' ≤ w e' := by
      rintro ⟨a, b⟩ -
      by_cases ha : a = k
      · simpa [ha] using hle b
      · simp [ha]
    have hm := List.sum_le_sum hother
    simp only [List.map_cons, List.sum_cons]
    rcases List.mem_cons.mp hmem with rfl | hmem
    · simp only [Function.comp_apply, if_true]
      omega
    · have hhead : (w ∘ fun e => if e.1 = k then (e.1, v) else e) e ≤ w e := by
        obtain ⟨a, b⟩ := e
        by_cases ha : a = k
        · simpa [ha] using hle b
        · simp [ha]
      have := ih hmem
      omega

/-- Setting distinct new keys, one after the other, appends their entries. -/
theorem foldl_set {ι : Type*} (f : ι → κ) (g : ι → β) :
    ∀ (l : List ι) (m : List (κ × β)), (l.map f).Nodup → (∀ a ∈ l, f a ∉ m.map Prod.fst) →
      l.foldl (fun m a => set m (f a) (g a)) m = m ++ l.map fun a => (f a, g a)
  | [], m, _, _ => by simp
  | a :: l, m, hnodup, hnew => by
    rw [List.map_cons, List.nodup_cons] at hnodup
    have hset : set m (f a) (g a) = m ++ [(f a, g a)] := by
      rw [set, if_neg (hnew a List.mem_cons_self)]
    rw [List.foldl_cons, hset, foldl_set f g l _ hnodup.2 fun b hb hmem => ?_]
    · simp
    · rw [List.map_append, List.mem_append] at hmem
      rcases hmem with hmem | hmem
      · exact hnew b (List.mem_cons_of_mem _ hb) hmem
      · have hba : f b = f a := by simpa using hmem
        exact hnodup.1 (hba ▸ List.mem_map_of_mem hb)

theorem get_foldl_set {ι : Type*} (f : ι → κ) (g : ι → β) {l : List ι} {a : ι}
    (hnodup : (l.map f).Nodup) (ha : a ∈ l) :
    get (l.foldl (fun m a => set m (f a) (g a)) []) (f a) = some (g a) := by
  rw [foldl_set f g l [] hnodup (by simp), List.nil_append]
  refine get_of_mem ?_ (List.mem_map_of_mem (f := fun a => (f a, g a)) ha)
  simpa [List.map_map, Function.comp_def] using hnodup

/-! ## Sets -/

theorem nodup_eraseDups {α : Type*} [BEq α] [LawfulBEq α] (l : List α) : l.eraseDups.Nodup := by
  induction hn : l.length using Nat.strong_induction_on generalizing l with
  | _ n ih =>
    subst hn
    rcases l with _ | ⟨a, l⟩
    · exact List.nodup_nil
    · have hlt : (l.filter fun b => !b == a).length < (a :: l).length :=
        Nat.lt_succ_of_le (List.length_filter_le ..)
      rw [List.eraseDups_cons]
      refine List.nodup_cons.mpr ⟨?_, ih _ hlt _ rfl⟩
      simp [List.mem_eraseDups]

variable {α : Type*} [DecidableEq α]

theorem eraseDups_perm_dedup (l : List α) : List.Perm l.eraseDups l.dedup :=
  (List.perm_ext_iff_of_nodup (nodup_eraseDups l) (List.nodup_dedup l)).mpr
    fun a => by rw [List.mem_eraseDups, List.mem_dedup]

theorem length_eraseDups_le (l : List α) : l.eraseDups.length ≤ l.length := by
  rw [(eraseDups_perm_dedup l).length_eq]
  exact (List.dedup_sublist l).length_le

theorem length_eraseDups_eq_iff {l : List α} : l.eraseDups.length = l.length ↔ l.Nodup := by
  rw [(eraseDups_perm_dedup l).length_eq]
  refine ⟨fun h => ?_, fun h => by rw [h.dedup]⟩
  rw [← (List.dedup_sublist l).eq_of_length h]
  exact List.nodup_dedup l

theorem eraseDups_of_nodup {l : List α} (h : l.Nodup) : l.eraseDups = l := by
  induction l with
  | nil => rfl
  | cons a l ih =>
    rw [List.nodup_cons] at h
    have hfilter : (l.filter fun b => !b == a) = l := by
      refine List.filter_eq_self.mpr fun b hb => ?_
      simpa using fun hba : b = a => h.1 (hba ▸ hb)
    rw [List.eraseDups_cons, hfilter, ih h.2]

/-- Two sets count the same elements in common. -/
theorem countP_mem_comm {l l' : List α} (h : l.Nodup) (h' : l'.Nodup) :
    l.countP (· ∈ l') = l'.countP (· ∈ l) := by
  rw [List.countP_eq_length_filter, List.countP_eq_length_filter]
  refine List.Perm.length_eq ?_
  refine (List.perm_ext_iff_of_nodup (h.filter _) (h'.filter _)).mpr fun a => ?_
  simp [and_comm]

end Lynox.Assoc
