import Mathlib.Data.List.Dedup

/-!
# Keys in the order of their last use

Some keys are held. They stand in the order of their last use (`InOrder`) when they are what is held of
all uses, each at its last. A key that is used goes to the end, and any front part may be dropped.
-/

namespace Lynox.UseOrder

variable {κ : Type*} [DecidableEq κ] {uses keys : List κ} {k : κ}

/-- The keys stand in the order of their last use. -/
def InOrder (uses keys : List κ) : Prop :=
  keys = uses.dedup.filter (· ∈ keys)

theorem inOrder_nil (uses : List κ) : InOrder uses [] := by
  simp [InOrder]

theorem InOrder.nodup (h : InOrder uses keys) : keys.Nodup := by
  rw [h]
  exact (List.nodup_dedup uses).filter _

theorem dedup_concat (k : κ) : ∀ uses : List κ,
    (uses ++ [k]).dedup = uses.dedup.filter (· ≠ k) ++ [k]
  | [] => by simp
  | a :: uses => by
    by_cases ha : a ∈ uses
    · rw [List.cons_append, List.dedup_cons_of_mem (List.mem_append_left _ ha),
        List.dedup_cons_of_mem ha, dedup_concat k uses]
    · by_cases hak : a = k
      · rw [List.cons_append, List.dedup_cons_of_mem (by simp [hak]), List.dedup_cons_of_notMem ha,
          List.filter_cons, if_neg (by simp [hak]), dedup_concat k uses]
      · rw [List.cons_append, List.dedup_cons_of_notMem (by simp [ha, hak]),
          List.dedup_cons_of_notMem ha, List.filter_cons, if_pos (by simpa using hak),
          dedup_concat k uses, List.cons_append]

/-- The key that is used goes to the end. -/
theorem InOrder.touch (h : InOrder uses keys) (k : κ) :
    InOrder (uses ++ [k]) (keys.filter (· ≠ k) ++ [k]) := by
  unfold InOrder
  rw [dedup_concat, List.filter_append, List.filter_filter]
  congr 1
  · conv_lhs => rw [h, List.filter_filter]
    refine List.filter_congr fun a _ => ?_
    by_cases hak : a = k <;> simp [hak]
  · simp

theorem InOrder.drop (h : InOrder uses keys) (n : ℕ) : InOrder uses (keys.drop n) := by
  unfold InOrder
  have hsub : ∀ a ∈ keys.drop n, a ∈ keys := fun a ha => List.mem_of_mem_drop ha
  calc keys.drop n = keys.filter (· ∈ keys.drop n) := by
        conv_rhs => rw [← List.take_append_drop n keys, List.filter_append]
        have hnodup := h.nodup
        rw [← List.take_append_drop n keys, List.nodup_append] at hnodup
        rw [List.take_append_drop, List.filter_eq_nil_iff.2 fun a ha => by
          simpa using fun hmem => hnodup.2.2 a ha a hmem rfl, List.nil_append,
          List.filter_eq_self.2 fun a ha => by simpa using ha]
    _ = (uses.dedup.filter (· ∈ keys)).filter (· ∈ keys.drop n) := by rw [← h]
    _ = uses.dedup.filter (· ∈ keys.drop n) := by
        rw [List.filter_filter]
        refine List.filter_congr fun a _ => ?_
        by_cases ha : a ∈ keys.drop n <;> simp [ha, hsub]

end Lynox.UseOrder
