import Lynox.Text.Find
import Lynox.Text.Matcher
import Mathlib.Data.List.TakeWhile
import Mathlib.Logic.Function.Basic

/-!
# Patterns over classes of units

A pattern whose repetitions are greedy and read one class of units, with `\b` and looks to both sides.
`ClassPattern.ends` lists the places that a backtracking matcher reaches from a place, in the order it tries
them, and `ClassPattern.first` is the first of them that a continuation accepts. A global match is the first
one from a start on (`ClassPattern.exec`).

Where a continuation accepts nothing inside a run of units, a repetition is decided at the end of the
run (`first_repeated_of_stop`).
-/

namespace Lynox.Text

/-! ## Units in a row -/

section Run

variable {s : JsString}

/-- How many units of a class stand in a row from a place on. -/
def runLength (p : UInt16 → Bool) (s : JsString) (i : ℕ) : ℕ :=
  ((s.drop i).takeWhile p).length

theorem runLength_eq (p : UInt16 → Bool) (s : JsString) (i : ℕ) :
    runLength p s i = if s[i]?.any p then runLength p s (i + 1) + 1 else 0 := by
  unfold runLength
  rw [List.drop_eq_getElem?_toList_append (i := i)]
  cases h : s[i]? with
  | none =>
    have hnil : s.drop (i + 1) = [] :=
      List.drop_eq_nil_iff.mpr (Nat.le_succ_of_le (List.getElem?_eq_none_iff.mp h))
    simp [hnil]
  | some a =>
    simp only [Option.toList_some, List.singleton_append, List.takeWhile_cons, Option.any_some]
    split <;> rfl

theorem any_of_lt_runLength {p : UInt16 → Bool} : ∀ {j i : ℕ}, j < runLength p s i →
    s[i + j]?.any p = true
  | 0, i, h => by
    rw [runLength_eq] at h
    split at h
    · next hp => exact hp
    · exact absurd h (Nat.not_lt_zero 0)
  | j + 1, i, h => by
    rw [runLength_eq] at h
    split at h
    · have := any_of_lt_runLength (Nat.lt_of_succ_lt_succ h)
      rwa [Nat.add_assoc, Nat.add_comm 1] at this
    · exact absurd h (Nat.not_lt_zero _)

theorem not_any_runLength (p : UInt16 → Bool) (s : JsString) (i : ℕ) :
    s[i + runLength p s i]?.any p = false := by
  induction h : runLength p s i generalizing i with
  | zero =>
    rw [runLength_eq] at h
    split at h
    · cases h
    · next hp => rwa [Nat.add_zero, ← Bool.not_eq_true]
  | succ n ih =>
    rw [runLength_eq] at h
    split at h
    · rw [← ih (i + 1) (Nat.succ.inj h), Nat.add_assoc, Nat.add_comm 1]
    · cases h

end Run

/-! ## Patterns -/

/-- A pattern. `behind` looks back for one of some words of classes, `notBehind` for the lack of a
unit. -/
inductive ClassPattern
  | empty
  | unit (p : UInt16 → Bool)
  | seq (a b : ClassPattern)
  | alt (a b : ClassPattern)
  | repeated (least : ℕ) (most : Option ℕ) (p : UInt16 → Bool)
  | boundary
  | ahead (a : ClassPattern)
  | behind (words : List (List (UInt16 → Bool)))
  | notBehind (p : UInt16 → Bool)

/-- Units of the classes stand at a place, one after the other. -/
def standsAt (s : JsString) : List (UInt16 → Bool) → ℕ → Bool
  | [], _ => true
  | p :: ps, i => s[i]?.any p && standsAt s ps (i + 1)

/-- Up to `n` more units of a class, and at least `least`; as many as there are first. -/
def repeats (p : UInt16 → Bool) (s : JsString) : ℕ → ℕ → ℕ → List ℕ
  | 0, least, i => if least = 0 then [i] else []
  | n + 1, least, i =>
    (if s[i]?.any p then repeats p s n (least - 1) (i + 1) else []) ++ if least = 0 then [i] else []

namespace ClassPattern

/-- What a pattern reaches from a place. -/
def ends (s : JsString) : ClassPattern → ℕ → List ℕ
  | .empty, i => [i]
  | .unit p, i => if s[i]?.any p then [i + 1] else []
  | .seq a b, i => (a.ends s i).flatMap (b.ends s)
  | .alt a b, i => a.ends s i ++ b.ends s i
  | .repeated least most p, i => repeats p s (most.getD (s.length - i)) least i
  | .boundary, i => if boundaryAt s i then [i] else []
  | .ahead a, i => if a.ends s i = [] then [] else [i]
  | .behind words, i => if words.any fun w => w.length ≤ i && standsAt s w (i - w.length) then [i] else []
  | .notBehind p, i => if 0 < i ∧ s[i - 1]?.any p then [] else [i]

/-- The first of the places from which a continuation goes on. -/
def first {β : Type*} (a : ClassPattern) (s : JsString) (i : ℕ) (k : ℕ → Option β) : Option β :=
  (a.ends s i).findSome? k

/-- The first match from a start on, with its end. -/
def exec (a : ClassPattern) (s : JsString) (start : ℕ) : Option (ℕ × ℕ) :=
  (List.range' start (s.length + 1 - start)).findSome? fun i => (a.first s i some).map fun e => (i, e)

/-- One unit that is this one. -/
def char (c : UInt16) : ClassPattern :=
  .unit fun u => u = c

/-- A word. -/
def text : JsString → ClassPattern
  | [] => .empty
  | u :: w => .seq (char u) (text w)

/-- Patterns one after the other. -/
def cat : List ClassPattern → ClassPattern
  | [] => .empty
  | a :: as => .seq a (cat as)

section First

variable {β : Type*} {s w : JsString} {i : ℕ} {k : ℕ → Option β} {a b : ClassPattern} {c : UInt16}
  {p : UInt16 → Bool} {least n : ℕ}

@[simp] theorem first_empty : ClassPattern.empty.first s i k = k i := by
  simp [first, ends]

theorem first_unit : (unit p).first s i k = if s[i]?.any p then k (i + 1) else none := by
  unfold first ends
  split
  · simp
  · rfl

theorem first_seq : (seq a b).first s i k = a.first s i fun j => b.first s j k := by
  unfold first
  rw [ends]
  induction a.ends s i with
  | nil => rfl
  | cons j js ih =>
    rw [List.flatMap_cons, List.findSome?_append, ih, List.findSome?_cons]
    cases (b.ends s j).findSome? k <;> rfl

@[simp] theorem first_cat_nil : (cat []).first s i k = k i :=
  first_empty

theorem first_cat_cons {as : List ClassPattern} :
    (cat (a :: as)).first s i k = a.first s i fun j => (cat as).first s j k :=
  first_seq

theorem first_boundary : boundary.first s i k = if boundaryAt s i then k i else none := by
  unfold first ends
  split
  · simp
  · rfl

theorem first_char : (char c).first s i k = if s[i]? = some c then k (i + 1) else none := by
  unfold char
  rw [first_unit]
  refine ite_congr (propext ?_) (fun _ => rfl) fun _ => rfl
  cases s[i]? <;> simp

theorem first_text : ∀ {w : JsString} {i : ℕ}, (text w).first s i k =
    if At s w i then k (i + w.length) else none
  | [], i => by simp [text]
  | u :: w, i => by
    rw [text, first_seq, first_char]
    simp only [first_text (w := w), at_cons, List.length_cons, Nat.add_assoc, Nat.add_comm 1]
    split
    · next hu => simp [hu]
    · next hu => simp [hu]

/-- A repetition reaches the places of its run behind the least number of units, the last one
first. -/
theorem repeats_eq : ∀ {n least i : ℕ}, repeats p s n least i =
    ((List.range (min n (runLength p s i) + 1)).drop least).reverse.map fun j => i + j
  | 0, least, i => by
    rw [repeats, Nat.zero_min]
    cases least with
    | zero => rfl
    | succ least => simp
  | n + 1, least, i => by
    rw [repeats, runLength_eq]
    by_cases hp : s[i]?.any p = true
    · have hmin : min (n + 1) (runLength p s (i + 1) + 1) = min n (runLength p s (i + 1)) + 1 :=
        Nat.succ_min_succ _ _
      rw [if_pos hp, if_pos hp, repeats_eq (n := n), hmin,
        List.range_succ_eq_map (n := min n (runLength p s (i + 1)) + 1)]
      cases least with
      | zero => simp [Function.comp_def, Nat.add_assoc, Nat.add_comm 1]
      | succ least =>
        rw [List.drop_succ_cons, ← List.map_drop, ← List.map_reverse, List.map_map]
        simp [Function.comp_def, Nat.add_assoc, Nat.add_comm 1]
    · rw [if_neg hp, if_neg hp, Nat.min_zero]
      cases least with
      | zero => rfl
      | succ least => simp

theorem runLength_le (p : UInt16 → Bool) (s : JsString) (i : ℕ) : runLength p s i ≤ s.length - i := by
  unfold runLength
  rw [← List.length_drop]
  exact (List.takeWhile_prefix p).length_le

theorem first_repeated : (repeated least none p).first s i k =
    ((List.range (runLength p s i + 1)).drop least).reverse.findSome? fun j => k (i + j) := by
  unfold first
  rw [ends, repeats_eq, Option.getD_none, Nat.min_eq_right (runLength_le p s i), List.findSome?_map]
  rfl

/-- Where nothing goes on inside a run, a repetition is the whole run. -/
theorem first_repeated_of_stop (h : ∀ j, j < runLength p s i → k (i + j) = none) :
    (repeated least none p).first s i k =
      if least ≤ runLength p s i then k (i + runLength p s i) else none := by
  rw [first_repeated]
  split
  · next hle =>
    have hlast : ((List.range (runLength p s i + 1)).drop least).reverse =
        runLength p s i :: ((List.range (runLength p s i)).drop least).reverse := by
      rw [List.range_succ, List.drop_append_of_le_length (by simpa using hle), List.reverse_append]
      rfl
    have hnone : ((List.range (runLength p s i)).drop least).reverse.findSome? (fun j => k (i + j)) =
        none := by
      refine List.findSome?_eq_none_iff.2 fun j hj => h j ?_
      exact List.mem_range.1 (List.mem_of_mem_drop (List.mem_reverse.1 hj))
    rw [hlast, List.findSome?_cons, hnone]
    cases k (i + runLength p s i) <;> rfl
  · next hlt =>
    rw [List.drop_eq_nil_of_le (by simp; omega)]
    rfl

/-- A repetition at the end of a pattern is the whole run. -/
theorem first_repeated_some : (repeated least none p).first s i some =
    if least ≤ runLength p s i then some (i + runLength p s i) else none := by
  rw [first_repeated]
  split
  · next hle =>
    rw [List.range_succ, List.drop_append_of_le_length (by simpa using hle), List.reverse_append]
    rfl
  · next hlt =>
    rw [List.drop_eq_nil_of_le (by simp; omega)]
    rfl

/-! ## Global matches -/

/-- Places without a match are passed over. -/
theorem exec_skip {j : ℕ} (hij : i ≤ j) (h : ∀ l, i ≤ l → l < j → a.first s l some = none) :
    a.exec s i = a.exec s j := by
  unfold exec
  by_cases hj : j ≤ s.length + 1
  · have hsplit : List.range' i (s.length + 1 - i) =
        List.range' i (j - i) ++ List.range' j (s.length + 1 - j) := by
      have happend := List.range'_append_1 (s := i) (m := j - i) (n := s.length + 1 - j)
      rw [Nat.add_sub_cancel' hij] at happend
      rw [happend, show j - i + (s.length + 1 - j) = s.length + 1 - i by omega]
    have hnone : (List.range' i (j - i)).findSome?
        (fun l => (a.first s l some).map fun e => (l, e)) = none := by
      refine List.findSome?_eq_none_iff.2 fun l hl => ?_
      rw [List.mem_range'_1] at hl
      rw [h l hl.1 (by omega)]
      rfl
    rw [hsplit, List.findSome?_append, hnone]
    rfl
  · rw [show s.length + 1 - j = 0 by omega]
    refine List.findSome?_eq_none_iff.2 fun l hl => ?_
    rw [List.mem_range'_1] at hl
    rw [h l hl.1 (by omega)]
    rfl

/-- A match at the start is the match. -/
theorem exec_of_first {e : ℕ} (hi : i ≤ s.length) (h : a.first s i some = some e) :
    a.exec s i = some (i, e) := by
  unfold exec
  rw [show s.length + 1 - i = s.length - i + 1 by omega, List.range'_succ, List.findSome?_cons, h]
  rfl

theorem exec_eq_none (h : ∀ l, i ≤ l → a.first s l some = none) : a.exec s i = none := by
  refine List.findSome?_eq_none_iff.2 fun l hl => ?_
  rw [List.mem_range'_1] at hl
  rw [h l hl.1]
  rfl

end First

end ClassPattern

end Lynox.Text
