import Mathlib.Data.List.Sort
import Mathlib.Data.List.Nodup
import Mathlib.Data.List.Count

/-!
# The last of a sorted list

A list is sorted by age, oldest first, and all but its `n` newest entries are dropped. Sorting
is stable : an entry that came last stands behind every entry of its own age. So it is dropped
exactly when at least `n` others are younger (`mem_take_insertionSort`).
-/

namespace Lynox.Oldest

variable {α : Type*} {r : α → α → Prop} [DecidableRel r]

section Stable

variable [Std.Total r] [IsTrans α r]

/-- Where the last entry of a list stands once it is sorted : before it what is not younger,
behind it what is. -/
theorem exists_split {l : List α} {a : α} (hnodup : (l ++ [a]).Nodup) :
    ∃ older younger, (l ++ [a]).insertionSort r = older ++ a :: younger ∧
      younger.length = l.countP (¬r · a) := by
  have hperm := List.perm_insertionSort r (l ++ [a])
  have hmem : a ∈ (l ++ [a]).insertionSort r := hperm.mem_iff.mpr (by simp)
  obtain ⟨older, younger, hsplit⟩ := List.append_of_mem hmem
  have hsorted := List.pairwise_insertionSort r (l ++ [a])
  have hnodup' := hperm.nodup_iff.mpr hnodup
  refine ⟨older, younger, hsplit, ?_⟩
  rw [hsplit] at hperm hsorted hnodup'
  have hl : (older ++ younger).Perm l := by
    have h₁ : (a :: (older ++ younger)).Perm (older ++ a :: younger) := List.perm_middle.symm
    have h₂ : (l ++ [a]).Perm (a :: l) := List.perm_append_comm
    exact ((h₁.trans hperm).trans h₂).cons_inv
  have holder : older.countP (¬r · a) = 0 := by
    refine List.countP_eq_zero.mpr fun x hx => ?_
    have := (List.pairwise_append.mp hsorted).2.2 x hx a (by simp)
    simpa using this
  have hyounger : younger.countP (¬r · a) = younger.length := by
    refine List.countP_eq_length.mpr fun x hx => ?_
    rw [decide_eq_true_eq]
    intro hr
    -- an entry of its age or older would have stayed before it
    have hxl : x ∈ l := hl.mem_iff.mp (List.mem_append_right _ hx)
    have hpair : [x, a].Sublist (older ++ a :: younger) := by
      rw [← hsplit]
      exact List.pair_sublist_insertionSort hr
        ((List.singleton_sublist.mpr hxl).append (List.Sublist.refl [a]))
    obtain ⟨hold, hcons, hdisjoint⟩ := List.nodup_append.mp hnodup'
    have hxold : x ∉ older := fun h => hdisjoint x h x (List.mem_cons_of_mem _ hx) rfl
    obtain ⟨ha, -⟩ := List.nodup_cons.mp hcons
    obtain ⟨l₁, l₂, heq, h₁, h₂⟩ := List.sublist_append_iff.mp hpair
    rcases l₁ with _ | ⟨y, l₁⟩
    · rw [List.nil_append] at heq
      rw [← heq] at h₂
      have hne : x ≠ a := fun h => ha (h ▸ hx)
      rcases List.sublist_cons_iff.mp h₂ with h₂ | ⟨l₃, h₃, -⟩
      · exact ha (h₂.subset (by simp))
      · exact hne (List.cons.inj h₃).1
    · obtain ⟨rfl, -⟩ := List.cons.inj heq
      exact hxold (h₁.subset (by simp))
  calc younger.length = older.countP (¬r · a) + younger.countP (¬r · a) := by
        rw [holder, hyounger, Nat.zero_add]
    _ = (older ++ younger).countP (¬r · a) := List.countP_append.symm
    _ = l.countP (¬r · a) := hl.countP_eq _

/-- The last entry is among the oldest exactly when `n` others are younger. -/
theorem mem_take_insertionSort {l : List α} {a : α} (hnodup : (l ++ [a]).Nodup) (n : ℕ) :
    a ∈ ((l ++ [a]).insertionSort r).take ((l ++ [a]).length - n) ↔ n ≤ l.countP (¬r · a) := by
  obtain ⟨older, younger, hsplit, hlength⟩ := exists_split (r := r) hnodup
  have hperm := List.perm_insertionSort r (l ++ [a])
  have hnodup' := hperm.nodup_iff.mpr hnodup
  have hlen : (l ++ [a]).length = older.length + (younger.length + 1) := by
    rw [← hperm.length_eq, hsplit]
    simp
  rw [hsplit] at hnodup'
  have hold : a ∉ older := fun h =>
    (List.nodup_append.mp hnodup').2.2 a h a (by simp) rfl
  rw [hsplit, ← hlength, hlen, List.take_append, List.mem_append]
  rcases Nat.lt_or_ge younger.length n with hlt | hge
  · have hzero : older.length + (younger.length + 1) - n - older.length = 0 := by omega
    rw [hzero]
    simp only [List.take_zero, List.not_mem_nil, or_false]
    refine ⟨fun h => absurd (List.mem_of_mem_take h) hold, fun h => absurd h (by omega)⟩
  · obtain ⟨k, hk⟩ : ∃ k, older.length + (younger.length + 1) - n - older.length = k + 1 :=
      ⟨younger.length - n, by omega⟩
    rw [hk]
    simp [hge]

end Stable

/-! ## Dropping entries -/

/-- Dropping entries that are all there leaves as many fewer. -/
theorem length_filter_notMem {β : Type*} [DecidableEq β] {key : α → β} {l drop : List α}
    (hl : (l.map key).Nodup) (hdrop : (drop.map key).Nodup) (hsub : ∀ x ∈ drop, x ∈ l) :
    (l.filter fun x => key x ∉ drop.map key).length + drop.length = l.length := by
  have hperm : (l.map key).filter (· ∈ drop.map key) |>.Perm (drop.map key) := by
    refine (List.perm_ext_iff_of_nodup (hl.filter _) hdrop).mpr fun k => ?_
    simp only [List.mem_filter, decide_eq_true_eq, and_iff_right_iff_imp]
    intro hk
    obtain ⟨x, hx, rfl⟩ := List.mem_map.mp hk
    exact List.mem_map_of_mem (hsub x hx)
  have hkept := hperm.length_eq
  rw [List.length_map, ← List.countP_eq_length_filter, List.countP_map] at hkept
  have hsum := List.length_eq_countP_add_countP (fun x => decide (key x ∈ drop.map key)) (l := l)
  rw [← List.countP_eq_length_filter]
  simp only [Function.comp_def] at hkept
  have hnot : l.countP (fun x => decide (key x ∉ drop.map key)) =
      l.countP (fun x => decide ¬decide (key x ∈ drop.map key) = true) :=
    List.countP_congr fun x _ => by simp
  omega

end Lynox.Oldest
