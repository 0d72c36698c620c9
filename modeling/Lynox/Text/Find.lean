import Lynox.Text.Utf16
import Mathlib.Data.List.Range
import Mathlib.Data.List.Infix

/-!
# Where a word stands in a text

`At s w i` : the word `w` stands in the text `s` from the place `i` on. `indexOf` finds the first such
place from a start (`indexOf_eq_some_iff`), and `slice` is the text between two places.
-/

namespace Lynox.Text

/-- The text from one place up to another. -/
def slice (s : JsString) (i j : ℕ) : JsString :=
  (s.take j).drop i

/-- A word stands in a text at a place. -/
def At (s w : JsString) (i : ℕ) : Prop :=
  w <+: s.drop i

instance (s w : JsString) (i : ℕ) : Decidable (At s w i) :=
  inferInstanceAs (Decidable (_ <+: _))

/-- The first place of a word from a start. -/
def indexOf (s w : JsString) (start : ℕ) : Option ℕ :=
  (List.range' start (s.length + 1 - start)).find? fun i => At s w i

section Find

variable {s w y : JsString} {u c : UInt16} {i j start : ℕ}

@[simp] theorem at_nil (s : JsString) (i : ℕ) : At s [] i :=
  List.nil_prefix

theorem at_cons : At s (u :: w) i ↔ s[i]? = some u ∧ At s w (i + 1) := by
  unfold At
  rw [List.drop_eq_getElem?_toList_append (i := i)]
  cases h : s[i]? with
  | none =>
    have hnil : s.drop (i + 1) = [] :=
      List.drop_eq_nil_iff.mpr (Nat.le_succ_of_le (List.getElem?_eq_none_iff.mp h))
    simp [hnil]
  | some a => simp [List.cons_prefix_cons, eq_comm]

theorem At.lt (h : At s w i) (hne : w ≠ []) : i < s.length := by
  obtain ⟨u, w, rfl⟩ := List.exists_cons_of_ne_nil hne
  exact (List.getElem?_eq_some_iff.mp (at_cons.mp h).1).1

theorem At.le (h : At s w i) (hi : i ≤ s.length) : i + w.length ≤ s.length := by
  have := h.length_le
  rw [List.length_drop] at this
  omega

theorem At.getElem? {k : ℕ} (h : At s w i) (hk : k < w.length) : s[i + k]? = some w[k] := by
  obtain ⟨rest, hrest⟩ := h
  rw [← List.getElem?_drop, ← hrest, List.getElem?_append_left hk, List.getElem?_eq_getElem hk]

/-- A word stands where it is the text up to its end. -/
theorem at_iff_slice : At s w i ↔ slice s i (i + w.length) = w := by
  unfold At slice
  rw [List.prefix_iff_eq_take, List.drop_take, Nat.add_sub_cancel_left, eq_comm]

/-- A word that stands in a text stands in it with more behind. -/
theorem At.append_right (h : At s w i) (t : JsString) : At (s ++ t) w i := by
  unfold At at h ⊢
  rw [List.drop_append]
  exact h.trans (List.prefix_append _ _)

theorem At.take (h : At s w i) (hj : i + w.length ≤ j) : At (s.take j) w i := by
  rw [at_iff_slice] at h ⊢
  rwa [slice, List.take_take, Nat.min_eq_left hj]

theorem at_of_suffix (h : w <:+ s) : At s w (s.length - w.length) := by
  obtain ⟨t, rfl⟩ := h
  rw [List.length_append, Nat.add_sub_cancel, At, List.drop_left]

/-! ## The first place -/

theorem indexOf_eq_some_iff (hne : w ≠ []) : indexOf s w start = some i ↔
    start ≤ i ∧ At s w i ∧ ∀ j, start ≤ j → j < i → ¬ At s w j := by
  unfold indexOf
  rw [List.find?_range'_eq_some, List.mem_range'_1]
  simp only [decide_eq_true_eq, Bool.not_eq_eq_eq_not, Bool.not_true, decide_eq_false_iff_not]
  constructor
  · rintro ⟨hat, ⟨hle, _⟩, hmin⟩
    exact ⟨hle, hat, hmin⟩
  · rintro ⟨hle, hat, hmin⟩
    have := hat.lt hne
    exact ⟨hat, ⟨hle, by omega⟩, hmin⟩

theorem indexOf_eq_none_iff (hne : w ≠ []) : indexOf s w start = none ↔ ∀ j, start ≤ j → ¬ At s w j := by
  unfold indexOf
  rw [List.find?_range'_eq_none]
  simp only [Bool.not_eq_eq_eq_not, Bool.not_true, decide_eq_false_iff_not]
  refine forall₂_congr fun j _ => ⟨fun h hat => ?_, fun h _ => h⟩
  have := hat.lt hne
  exact h (by omega) hat

theorem prefix_of_not_mem {x : JsString} (h : w <+: x ++ c :: y) (hc : c ∉ w) : w <+: x := by
  have heq := List.prefix_iff_eq_take.1 h
  by_cases hle : w.length ≤ x.length
  · rw [List.take_append_of_le_length hle] at heq
    rw [heq]
    exact List.take_prefix _ _
  · refine absurd ?_ hc
    rw [heq, List.take_append, List.mem_append]
    obtain ⟨n, hn⟩ : ∃ n, w.length - x.length = n + 1 := ⟨w.length - x.length - 1, by omega⟩
    rw [hn, List.take_succ_cons]
    exact .inr (.head _)

/-- A word without a unit stands on one side of it. -/
theorem infix_of_not_mem : ∀ {x : JsString}, w <:+: x ++ c :: y → c ∉ w → w <:+: x ∨ w <:+: y
  | [], h, hc => by
    rcases List.infix_cons_iff.1 h with h | h
    · exact .inl (prefix_of_not_mem (x := []) h hc).isInfix
    · exact .inr h
  | u :: x, h, hc => by
    rcases List.infix_cons_iff.1 h with h | h
    · exact .inl (prefix_of_not_mem (x := u :: x) h hc).isInfix
    · exact (infix_of_not_mem h hc).imp_left fun h => List.infix_cons h

end Find

end Lynox.Text
