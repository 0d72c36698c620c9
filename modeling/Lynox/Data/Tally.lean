import Lynox.Data.Assoc
import Mathlib.Data.Finset.Sum
import Mathlib.Data.Multiset.Count
import Mathlib.Algebra.BigOperators.Group.Finset.Basic

/-!
# Counts of keys, and a walk that spends them

`counts` tells how often a list holds each key, in the order they are first seen (`left_counts`).
`spend` walks a list under such counts : an item that is still held passes, and takes one from what is
held where it pays; one that is not is refused, or excused. The walk ends without a refusal exactly
when every item is excused or covered, a paying one by as many as the list holds of it
(`spend_eq_none_iff`). Where every item pays and none is excused, the list is a part of what was
held, as a multiset (`spend_all_eq_none_iff`). What one list counts beyond another is summed over the
counts (`sum_counts`).
-/

namespace Lynox.Tally

variable {α ρ : Type*} [DecidableEq α]

/-- How often a key is still held. -/
def left (held : List (α × ℕ)) (k : α) : ℕ :=
  (Assoc.get held k).getD 0

/-- One more of a key. -/
def add (held : List (α × ℕ)) (k : α) : List (α × ℕ) :=
  Assoc.set held k (left held k + 1)

/-- How often each key is in a list. -/
def counts (keys : List α) : List (α × ℕ) :=
  keys.foldl add []

/-- The first refusal of a walk that spends what is held. -/
def spend (pays : α → Bool) (refuse : α → Option ρ) : List (α × ℕ) → List α → Option ρ
  | _, [] => none
  | held, a :: as =>
    if 0 < left held a then
      spend pays refuse (if pays a then Assoc.set held a (left held a - 1) else held) as
    else match refuse a with
      | some r => some r
      | none => spend pays refuse held as

variable {held : List (α × ℕ)} {keys as bs : List α} {a b k : α} {n : ℕ}

theorem left_set : left (Assoc.set held a n) b = if b = a then n else left held b := by
  unfold left
  rw [Assoc.get_set]
  split <;> rfl

/-! ## Counts -/

theorem left_foldl_add : ∀ (keys : List α) (held : List (α × ℕ)),
    left (keys.foldl add held) k = left held k + keys.count k
  | [], held => by simp
  | a :: keys, held => by
    rw [List.foldl_cons, left_foldl_add keys, add, left_set, List.count_cons]
    by_cases h : k = a
    · simp [h]
      omega
    · simp [h, Ne.symm h]

@[simp] theorem left_counts (keys : List α) : left (counts keys) k = keys.count k := by
  unfold counts
  rw [left_foldl_add]
  simp [left, Assoc.get, Table.find]

theorem nodup_keys_counts (keys : List α) : ((counts keys).map Prod.fst).Nodup := by
  suffices h : ∀ (keys : List α) (held : List (α × ℕ)), (held.map Prod.fst).Nodup →
      ((keys.foldl add held).map Prod.fst).Nodup from h keys [] List.nodup_nil
  intro keys
  induction keys with
  | nil => exact fun _ h => h
  | cons a keys ih => exact fun held h => ih _ (Assoc.nodup_keys_set h)

theorem mem_keys_foldl_add : ∀ (keys : List α) (held : List (α × ℕ)),
    k ∈ (keys.foldl add held).map Prod.fst ↔ k ∈ held.map Prod.fst ∨ k ∈ keys
  | [], held => by simp
  | a :: keys, held => by
    rw [List.foldl_cons, mem_keys_foldl_add keys, add, Assoc.mem_keys_set, List.mem_cons]
    tauto

theorem mem_keys_counts : k ∈ (counts keys).map Prod.fst ↔ k ∈ keys := by
  unfold counts
  rw [mem_keys_foldl_add]
  simp

/-- The entries of the counts : each key of the list, with how often the list holds it. -/
theorem mem_counts : (k, n) ∈ counts keys ↔ k ∈ keys ∧ n = keys.count k := by
  have hleft : ∀ {m}, (k, m) ∈ counts keys → m = keys.count k := fun h => by
    rw [← left_counts, left, Assoc.get_of_mem (nodup_keys_counts keys) h]
    rfl
  constructor
  · exact fun h => ⟨mem_keys_counts.mp (List.mem_map.mpr ⟨_, h, rfl⟩), hleft h⟩
  · rintro ⟨hk, rfl⟩
    obtain ⟨⟨_, m⟩, hm, rfl⟩ := List.mem_map.mp (mem_keys_counts.mpr hk)
    rwa [← hleft hm]

/-- What a list counts beyond another, summed over its counts. -/
theorem sum_counts (as bs : List α) :
    ((counts as).map fun e => e.2 - bs.count e.1).sum = ((as : Multiset α) - (bs : Multiset α)).card := by
  have hmap : ((counts as).map fun e => e.2 - bs.count e.1) =
      ((counts as).map Prod.fst).map fun k => as.count k - bs.count k := by
    rw [List.map_map]
    refine List.map_congr_left fun e he => ?_
    rw [(mem_counts.mp he).2]
    rfl
  rw [hmap, ← List.sum_toFinset _ (nodup_keys_counts as)]
  rw [← Multiset.toFinset_sum_count_eq]
  refine (Finset.sum_subset (fun k hk => ?_) fun k _ hk => ?_).symm.trans
    (Finset.sum_congr rfl fun k _ => by rw [Multiset.count_sub, Multiset.coe_count, Multiset.coe_count])
  · rw [List.mem_toFinset, mem_keys_counts]
    exact Multiset.mem_coe.mp (Multiset.mem_of_le (Multiset.sub_le_self _ _) (Multiset.mem_toFinset.mp hk))
  · rwa [Multiset.mem_toFinset, ← Multiset.count_eq_zero, Multiset.count_sub, Multiset.coe_count,
      Multiset.coe_count] at hk

/-! ## Spending -/

/-- What is held covers an item of a list. -/
def Covered (pays : α → Bool) (held : List (α × ℕ)) (as : List α) (b : α) : Prop :=
  if pays b then as.count b ≤ left held b else 0 < left held b

variable {pays : α → Bool} {refuse : α → Option ρ}

theorem covered_spent (ha : 0 < left held a) :
    Covered pays (if pays a then Assoc.set held a (left held a - 1) else held) as b ↔
      Covered pays held (a :: as) b := by
  unfold Covered
  rw [List.count_cons]
  by_cases hab : b = a
  · subst hab
    by_cases hp : pays b = true
    · simp only [hp, if_true, left_set, beq_self_eq_true]
      omega
    · simp [hp]
  · by_cases hp : pays a = true
    · simp [hp, left_set, hab, Ne.symm hab]
    · simp [hp, Ne.symm hab]

theorem covered_cons_of_ne (hab : b ≠ a) : Covered pays held (a :: as) b ↔ Covered pays held as b := by
  unfold Covered
  rw [List.count_cons]
  simp [Ne.symm hab]

/-- An item that is not in the rest of the list is covered by the one that is held. -/
theorem covered_cons_self (ha : 0 < left held a) (h : a ∉ as) : Covered pays held (a :: as) a := by
  unfold Covered
  rw [List.count_cons_self, List.count_eq_zero.mpr h]
  split
  · exact ha
  · exact ha

theorem not_covered_cons_self (ha : ¬ 0 < left held a) : ¬ Covered pays held (a :: as) a := by
  unfold Covered
  rw [List.count_cons_self]
  split <;> omega

/-- The walk refuses nothing : every item is excused, or covered. -/
theorem spend_eq_none_iff : ∀ (as : List α) (held : List (α × ℕ)), spend pays refuse held as = none ↔
    ∀ b ∈ as, refuse b = none ∨ Covered pays held as b
  | [], held => by simp [spend]
  | a :: as, held => by
    rw [spend]
    by_cases ha : 0 < left held a
    · rw [if_pos ha, spend_eq_none_iff as]
      simp only [covered_spent ha, List.mem_cons, forall_eq_or_imp]
      refine ⟨fun h => ⟨?_, h⟩, fun h => h.2⟩
      by_cases hmem : a ∈ as
      · exact h a hmem
      · exact .inr (covered_cons_self ha hmem)
    · rw [if_neg ha]
      cases hr : refuse a with
      | some r =>
        simp only [reduceCtorEq, false_iff, not_forall]
        exact ⟨a, List.mem_cons_self, by simp [hr, not_covered_cons_self ha]⟩
      | none =>
        simp only [spend_eq_none_iff as, List.mem_cons, forall_eq_or_imp, hr, true_or, true_and]
        refine forall₂_congr fun b _ => ?_
        by_cases hab : b = a
        · rw [hab, hr]
          simp
        · rw [covered_cons_of_ne hab]

/-- A refusal is that of an item. -/
theorem exists_of_spend_eq_some {r : ρ} : ∀ {as : List α} {held : List (α × ℕ)},
    spend pays refuse held as = some r → ∃ a ∈ as, refuse a = some r
  | a :: as, held, h => by
    rw [spend] at h
    split at h
    · obtain ⟨b, hb, hr⟩ := exists_of_spend_eq_some h
      exact ⟨b, List.mem_cons_of_mem _ hb, hr⟩
    · cases ha : refuse a with
      | some r' =>
        rw [ha] at h
        exact ⟨a, List.mem_cons_self, ha.trans h⟩
      | none =>
        rw [ha] at h
        obtain ⟨b, hb, hr⟩ := exists_of_spend_eq_some h
        exact ⟨b, List.mem_cons_of_mem _ hb, hr⟩

/-- Every item pays and none is excused : the list is a part of what was held. -/
theorem spend_all_eq_none_iff (hpays : ∀ a, pays a = true) (hrefuse : ∀ a, refuse a ≠ none) :
    spend pays refuse (counts bs) as = none ↔ (as : Multiset α) ≤ (bs : Multiset α) := by
  rw [spend_eq_none_iff, Multiset.le_iff_count]
  simp only [hrefuse, false_or, Covered, hpays, if_true, left_counts, Multiset.coe_count]
  refine ⟨fun h b => ?_, fun h b _ => h b⟩
  by_cases hb : b ∈ as
  · exact h b hb
  · rw [List.count_eq_zero.mpr hb]
    exact Nat.zero_le _

end Lynox.Tally
