import Mathlib.Data.List.Induction
import Mathlib.Data.List.Sort

/-!
# The best of a list

`rank` sorts a list by a key, the largest first and equal keys as they stood (`filter_rank`), and `best`
is the first `k` of it. A member behind the list goes behind the members of its own key
(`rank_concat`), so the best of a longer list is told by the best of the list (`best_concat`) : what is
not among the best may be dropped at any time.
-/

namespace Lynox.Ranked

variable {α S : Type*} [LinearOrder S] {f : α → S} {k : ℕ} {x a : α} {l m : List α}

/-- Sorted by a key, the largest first. -/
def rank (f : α → S) (l : List α) : List α :=
  l.insertionSort fun a b => f b ≤ f a

/-- Put before the first member of a smaller key. -/
def place (f : α → S) (x : α) : List α → List α
  | [] => [x]
  | b :: l => if f x ≤ f b then b :: place f x l else x :: b :: l

/-- The first `k` of the sorted list. -/
def best (f : α → S) (k : ℕ) (l : List α) : List α :=
  (rank f l).take k

theorem pairwise_rank (f : α → S) (l : List α) : (rank f l).Pairwise fun a b => f b ≤ f a :=
  have : Std.Total fun a b : α => f b ≤ f a := ⟨fun a b => le_total (f b) (f a)⟩
  have : IsTrans α fun a b => f b ≤ f a := ⟨fun _ _ _ hab hbc => hbc.trans hab⟩
  List.pairwise_insertionSort _ l

theorem perm_rank (f : α → S) (l : List α) : (rank f l).Perm l :=
  List.perm_insertionSort _ l

/-- Whoever stands behind all that are of its key is put in last, or is there before. -/
theorem orderedInsert_place (a x : α) : ∀ l : List α,
    (place f x l).orderedInsert (fun a b => f b ≤ f a) a =
      place f x (l.orderedInsert (fun a b => f b ≤ f a) a)
  | [] => by
    simp only [place, List.orderedInsert_cons, List.orderedInsert_nil]
  | b :: l => by
    by_cases hxb : f x ≤ f b
    · rw [place, if_pos hxb, List.orderedInsert_cons, List.orderedInsert_cons]
      by_cases hba : f b ≤ f a
      · rw [if_pos hba, if_pos hba, place, if_pos (hxb.trans hba), place, if_pos hxb]
      · rw [if_neg hba, if_neg hba, place, if_pos hxb, orderedInsert_place a x l]
    · rw [place, if_neg hxb, List.orderedInsert_cons, List.orderedInsert_cons]
      by_cases hba : f b ≤ f a
      · by_cases hxa : f x ≤ f a
        · rw [if_pos hxa, if_pos hba, place, if_pos hxa, place, if_neg hxb]
        · rw [if_neg hxa, if_pos hba, place, if_neg hxa]
      · have hxa : ¬ f x ≤ f a := fun h => hxb (h.trans (not_le.1 hba).le)
        rw [if_neg hxa, if_neg hba, place, if_neg hxb]

theorem rank_concat (x : α) : ∀ l : List α, rank f (l ++ [x]) = place f x (rank f l)
  | [] => rfl
  | a :: l => by
    rw [rank, List.cons_append, List.insertionSort_cons, ← rank, rank_concat x l, orderedInsert_place]
    rfl

/-- Members of one key stand as they stood. -/
theorem filter_place (s : S) : ∀ {l : List α}, (l.Pairwise fun a b => f b ≤ f a) →
    (place f x l).filter (fun b => f b = s) = (l ++ [x]).filter fun b => f b = s
  | [], _ => rfl
  | b :: l, h => by
    obtain ⟨hb, hl⟩ := List.pairwise_cons.1 h
    by_cases hxb : f x ≤ f b
    · rw [place, if_pos hxb, List.cons_append, List.filter_cons, List.filter_cons, filter_place s hl]
    · rw [place, if_neg hxb]
      by_cases hs : f x = s
      · have hnone : (b :: l).filter (fun b => f b = s) = [] := by
          refine List.filter_eq_nil_iff.2 fun c hc => ?_
          have hcb : f c ≤ f b := (List.mem_cons.1 hc).elim (fun heq => heq ▸ le_rfl) (hb c)
          simpa [hs] using (hcb.trans_lt (hs ▸ not_le.1 hxb)).ne
        rw [List.filter_cons, if_pos (by simpa using hs), List.filter_append, hnone]
        simp [hs]
      · rw [List.filter_cons, if_neg (by simpa using hs), List.filter_append]
        simp [hs]

theorem filter_rank (s : S) (l : List α) :
    (rank f l).filter (fun b => f b = s) = l.filter fun b => f b = s := by
  induction l using List.reverseRecOn with
  | nil => rfl
  | append_singleton l x ih =>
    rw [rank_concat, filter_place s (pairwise_rank f l), List.filter_append, ih, List.filter_append]

/-! ## The best -/

theorem take_place (x : α) : ∀ (k : ℕ) (l : List α),
    (place f x l).take k = (place f x (l.take k)).take k
  | 0, _ => rfl
  | _ + 1, [] => rfl
  | k + 1, b :: l => by
    rw [List.take_succ_cons, place, place]
    split_ifs
    · rw [List.take_succ_cons, List.take_succ_cons, take_place x k l]
    · cases k with
      | zero => rfl
      | succ k => simp [List.take_take]

theorem best_concat (x : α) (l : List α) : best f k (l ++ [x]) = (place f x (best f k l)).take k := by
  rw [best, rank_concat, take_place]
  rfl

/-- The best are the best of themselves. -/
theorem best_best (l : List α) : best f k (best f k l) = best f k l := by
  have : Std.Total fun a b : α => f b ≤ f a := ⟨fun a b => le_total (f b) (f a)⟩
  have hsorted : (best f k l).Pairwise fun a b => f b ≤ f a := (pairwise_rank f l).sublist (List.take_sublist k _)
  have hrank : rank f (best f k l) = best f k l := List.Pairwise.insertionSort_eq hsorted
  rw [best, hrank, best, List.take_take, min_self]

/-- Lists of the same best have the same best with another member. -/
theorem best_concat_congr (h : best f k l = best f k m) (x : α) :
    best f k (l ++ [x]) = best f k (m ++ [x]) := by
  rw [best_concat, best_concat, h]

theorem place_of_lt : ∀ {l : List α}, (∀ b ∈ l, f x < f b) → place f x l = l ++ [x]
  | [], _ => rfl
  | b :: l, h => by
    rw [place, if_pos (h b List.mem_cons_self).le,
      place_of_lt fun c hc => h c (List.mem_cons_of_mem b hc), List.cons_append]

/-- A member that is worse than all of `k` changes nothing. -/
theorem best_concat_of_lt (hlen : k ≤ l.length) (h : ∀ b ∈ best f k l, f x < f b) :
    best f k (l ++ [x]) = best f k l := by
  have hk : (best f k l).length = k := by
    rw [best, List.length_take, (perm_rank f l).length_eq, Nat.min_eq_left hlen]
  rw [best_concat, place_of_lt h, List.take_append_of_le_length hk.ge, List.take_of_length_le hk.le]

end Lynox.Ranked
