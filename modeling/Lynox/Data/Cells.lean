import Mathlib.Algebra.Order.BigOperators.Group.List
import Mathlib.Algebra.Order.Ring.Int
import Mathlib.Tactic.Ring
import Mathlib.Data.List.Range

/-!
# Cells by their place

A list whose cells are edited at their places. A weight of the whole list changes by what it changes
on the edited cell (`weight_modify`), and a list of places without repetition that are those of the
marked cells is as long as the cells marked are many (`length_eq_weight`).
-/

namespace Lynox.Cells

variable {α β : Type*} {l : List α} {i : ℕ} {a : α} {w w' : α → ℤ} {f : α → α}

/-- What all cells weigh. -/
def weight (w : α → ℤ) (l : List α) : ℤ :=
  (l.map w).sum

/-- One for each marked cell. -/
def mark (p : α → Bool) (a : α) : ℤ :=
  if p a then 1 else 0

theorem mark_nonneg (p : α → Bool) (a : α) : 0 ≤ mark p a := by
  unfold mark
  split <;> decide

@[simp] theorem weight_append (w : α → ℤ) (l l' : List α) :
    weight w (l ++ l') = weight w l + weight w l' := by
  simp [weight]

@[simp] theorem weight_singleton (w : α → ℤ) (a : α) : weight w [a] = w a := by
  simp [weight]

theorem weight_modify : ∀ {l : List α} {i : ℕ}, l[i]? = some a →
    weight w (l.modify i f) = weight w l + (w (f a) - w a)
  | b :: l, 0, h => by
    obtain rfl : b = a := Option.some.inj h
    simp only [weight, List.modify_zero_cons, List.map_cons, List.sum_cons]
    ring
  | b :: l, i + 1, h => by
    have ih := weight_modify (show l[i]? = some a from h)
    simp only [weight, List.modify_succ_cons, List.map_cons, List.sum_cons] at ih ⊢
    rw [ih]
    ring

theorem weight_congr (h : ∀ a ∈ l, w a = w' a) : weight w l = weight w' l :=
  congrArg List.sum (List.map_congr_left h)

theorem weight_add (w w' : α → ℤ) (l : List α) :
    weight (fun a => w a + w' a) l = weight w l + weight w' l := by
  induction l with
  | nil => rfl
  | cons a l ih =>
    simp only [weight, List.map_cons, List.sum_cons] at ih ⊢
    rw [ih]
    ring

theorem le_weight (hw : ∀ a ∈ l, 0 ≤ w a) (ha : a ∈ l) : w a ≤ weight w l :=
  List.single_le_sum (fun x hx => by
    obtain ⟨b, hb, rfl⟩ := List.mem_map.1 hx
    exact hw b hb) _ (List.mem_map_of_mem ha)

theorem weight_mark (p : α → Bool) (l : List α) : weight (mark p) l = l.countP p := by
  induction l with
  | nil => rfl
  | cons a l ih =>
    rw [weight, List.map_cons, List.sum_cons, ← weight, ih, List.countP_cons, mark]
    by_cases hp : p a = true
    · simp only [hp, if_true, Nat.cast_add, Nat.cast_one]
      ring
    · simp [hp]

/-- The places of the marked cells. -/
theorem length_places (p : α → Bool) (l : List α) :
    (((List.range l.length).filter fun i => l[i]?.any p).length : ℤ) = weight (mark p) l := by
  induction l using List.reverseRecOn with
  | nil => rfl
  | append_singleton l a ih =>
    have hsame : (List.range l.length).filter (fun i => (l ++ [a])[i]?.any p) =
        (List.range l.length).filter fun i => l[i]?.any p := by
      refine List.filter_congr fun i hi => ?_
      rw [List.getElem?_append_left (List.mem_range.1 hi)]
    rw [List.length_append, List.length_singleton, List.range_succ, List.filter_append, hsame,
      List.length_append, weight_append, ← ih, weight_singleton, mark]
    by_cases hp : p a = true
    · simp [hp]
    · simp [hp]

/-- Places without repetition that are those of the marked cells. -/
theorem length_eq_weight {p : α → Bool} {ts : List β} {place : β → ℕ} (hnodup : (ts.map place).Nodup)
    (hplaces : ∀ i, i ∈ ts.map place ↔ ∃ a, l[i]? = some a ∧ p a = true) :
    (ts.length : ℤ) = weight (mark p) l := by
  have hperm : (ts.map place).Perm ((List.range l.length).filter fun i => l[i]?.any p) := by
    refine (List.perm_ext_iff_of_nodup hnodup (List.nodup_range.filter _)).2 fun i => ?_
    rw [hplaces, List.mem_filter, List.mem_range]
    constructor
    · rintro ⟨a, ha, hp⟩
      exact ⟨(List.getElem?_eq_some_iff.1 ha).1, by rw [ha]; exact hp⟩
    · rintro ⟨_, hany⟩
      exact (Option.any_eq_true _ _).1 hany
  rw [← length_places, ← hperm.length_eq, List.length_map]

end Lynox.Cells
