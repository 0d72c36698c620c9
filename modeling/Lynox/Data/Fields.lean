import Mathlib.Data.List.TakeDrop
import Mathlib.Data.Nat.Digits.Lemmas

/-!
# Fields of a block, and numerals

`put` writes over a block from an offset on, and `slice` reads a part of it : a part that was
written is what was written (`slice_put`), and any other part is what it was (`slice_put_of_disjoint`).
A numeral in a base is read back as its number, whatever zeros stand before it (`value_pad`).
-/

namespace Lynox.Fields

section Blocks

variable {α : Type*} {buf xs ys : List α} {off off' len : ℕ}

/-- The block with `xs` from `off` on. -/
def put (buf : List α) (off : ℕ) (xs : List α) : List α :=
  buf.take off ++ xs ++ buf.drop (off + xs.length)

/-- The `len` cells from `off` on. -/
def slice (buf : List α) (off len : ℕ) : List α :=
  (buf.drop off).take len

theorem length_put (h : off + xs.length ≤ buf.length) : (put buf off xs).length = buf.length := by
  simp only [put, List.length_append, List.length_take, List.length_drop]
  omega

theorem getElem?_put (h : off + xs.length ≤ buf.length) (i : ℕ) :
    (put buf off xs)[i]? =
      if i < off then buf[i]? else if i < off + xs.length then xs[i - off]? else buf[i]? := by
  have htake : (buf.take off).length = off := by
    rw [List.length_take]
    omega
  unfold put
  split
  · next hi =>
    rw [List.append_assoc, List.getElem?_append_left (by omega), List.getElem?_take_of_lt hi]
  · split
    · next hlow hhigh =>
      rw [List.append_assoc, List.getElem?_append_right (by omega), htake,
        List.getElem?_append_left (by omega)]
    · next hlow hhigh =>
      rw [List.getElem?_append_right (by rw [List.length_append, htake]; omega),
        List.length_append, htake, List.getElem?_drop]
      congr 1
      omega

theorem getElem?_slice (buf : List α) (off len i : ℕ) :
    (slice buf off len)[i]? = if i < len then buf[off + i]? else none := by
  unfold slice
  split
  · next hi => rw [List.getElem?_take_of_lt hi, List.getElem?_drop]
  · next hi => exact List.getElem?_eq_none (by rw [List.length_take]; omega)

theorem length_slice (h : off + len ≤ buf.length) : (slice buf off len).length = len := by
  rw [slice, List.length_take, List.length_drop]
  omega

/-- What was written is read, and what stands behind it. -/
theorem slice_put (h : off + xs.length ≤ buf.length) (hlen : xs.length ≤ len) :
    slice (put buf off xs) off len = xs ++ slice buf (off + xs.length) (len - xs.length) := by
  refine List.ext_getElem? fun i => ?_
  rw [getElem?_slice, getElem?_put h]
  by_cases hi : i < xs.length
  · rw [List.getElem?_append_left hi, if_pos (by omega), if_neg (by omega), if_pos (by omega),
      Nat.add_sub_cancel_left]
  · rw [List.getElem?_append_right (by omega), getElem?_slice]
    by_cases hin : i < len
    · rw [if_pos hin, if_neg (by omega), if_neg (by omega), if_pos (by omega)]
      congr 1
      omega
    · rw [if_neg hin, if_neg (by omega)]

/-- A part that was not written over. -/
theorem slice_put_of_disjoint (h : off + xs.length ≤ buf.length)
    (hdisjoint : off' + len ≤ off ∨ off + xs.length ≤ off') :
    slice (put buf off xs) off' len = slice buf off' len := by
  refine List.ext_getElem? fun i => ?_
  rw [getElem?_slice, getElem?_slice, getElem?_put h]
  by_cases hi : i < len
  · rw [if_pos hi, if_pos hi]
    rcases hdisjoint with hbefore | hbehind
    · rw [if_pos (by omega)]
    · rw [if_neg (by omega), if_neg (by omega)]
  · rw [if_neg hi, if_neg hi]

/-- Cells that are written over twice. -/
theorem put_put (h : off + xs.length ≤ buf.length) (hlen : xs.length = ys.length) :
    put (put buf off xs) off ys = put buf off ys := by
  refine List.ext_getElem? fun i => ?_
  rw [getElem?_put (by rw [length_put h]; omega), getElem?_put h,
    getElem?_put (show off + ys.length ≤ buf.length by omega)]
  split
  · rfl
  · split
    · rfl
    · next hlow hhigh => rw [if_neg (by omega)]

/-- What stands there is written. -/
theorem put_slice (h : off + len ≤ buf.length) (hslice : slice buf off len = xs) :
    put buf off xs = buf := by
  have hlen : xs.length = len := by rw [← hslice, length_slice h]
  refine List.ext_getElem? fun i => ?_
  rw [getElem?_put (by omega)]
  split
  · rfl
  · split
    · next hlow hhigh =>
      rw [← hslice, getElem?_slice, if_pos (by omega)]
      congr 1
      omega
    · rfl

/-- A part between others. -/
theorem slice_append (hoff : xs.length = off) (hlen : ys.length = len) (zs : List α) :
    slice (xs ++ ys ++ zs) off len = ys := by
  rw [slice, List.append_assoc, ← hoff, List.drop_left, ← hlen, List.take_left]

theorem slice_append_left (hlen : xs.length = len) (ys : List α) : slice (xs ++ ys) 0 len = xs := by
  rw [slice, List.drop_zero, ← hlen, List.take_left]

theorem slice_replicate (n : ℕ) (a : α) (h : off + len ≤ n) :
    slice (List.replicate n a) off len = List.replicate len a := by
  rw [slice, List.drop_replicate, List.take_replicate]
  congr 1
  omega

end Blocks

section Numerals

variable {b n : ℕ}

/-- The digits of a number, the first one first, at least one. -/
def numeral (b n : ℕ) : List ℕ :=
  if n = 0 then [0] else (Nat.digits b n).reverse

/-- The number digits stand for. -/
def value (b : ℕ) (ds : List ℕ) : ℕ :=
  ds.foldl (fun n d => b * n + d) 0

theorem value_eq_ofDigits (b : ℕ) (ds : List ℕ) : value b ds = Nat.ofDigits b ds.reverse := by
  rw [value, ← List.foldr_reverse]
  induction ds.reverse with
  | nil => rfl
  | cons d ds ih =>
    rw [List.foldr_cons, ih, Nat.ofDigits_cons]
    ring

theorem value_numeral (b n : ℕ) : value b (numeral b n) = n := by
  unfold numeral
  split
  · next h =>
    subst h
    rfl
  · rw [value_eq_ofDigits, List.reverse_reverse, Nat.ofDigits_digits]

theorem value_pad (b n k : ℕ) :
    value b (List.replicate k 0 ++ numeral b n) = n := by
  have hzeros : (List.replicate k 0).foldl (fun n d => b * n + d) 0 = 0 := by
    induction k with
    | zero => rfl
    | succ k ih => rw [List.replicate_succ, List.foldl_cons, Nat.mul_zero, Nat.add_zero, ih]
  rw [value, List.foldl_append, hzeros]
  exact value_numeral b n

theorem numeral_lt (hb : 1 < b) : ∀ d ∈ numeral b n, d < b := by
  intro d hd
  unfold numeral at hd
  split at hd
  · rw [List.mem_singleton.1 hd]
    omega
  · exact Nat.digits_lt_base hb (List.mem_reverse.1 hd)

theorem numeral_ne_nil (b n : ℕ) : numeral b n ≠ [] := by
  unfold numeral
  split
  · exact List.cons_ne_nil _ _
  · next h =>
    exact fun hnil => Nat.digits_ne_nil_iff_ne_zero.2 h (List.reverse_eq_nil_iff.1 hnil)

theorem length_numeral_le (hb : 1 < b) {k : ℕ} (hk : 0 < k) (h : n < b ^ k) :
    (numeral b n).length ≤ k := by
  unfold numeral
  split
  · exact hk
  · rw [List.length_reverse]
    exact (Nat.digits_length_le_iff hb n).2 h

theorem length_numeral_pos (b n : ℕ) : 0 < (numeral b n).length :=
  List.length_pos_of_ne_nil (numeral_ne_nil b n)

/-- A larger number has as many digits, or more. -/
theorem length_numeral_mono (b : ℕ) {m : ℕ} (h : m ≤ n) :
    (numeral b m).length ≤ (numeral b n).length := by
  by_cases hm : m = 0
  · subst hm
    exact length_numeral_pos b n
  · rw [numeral, if_neg hm, numeral, if_neg (by omega), List.length_reverse, List.length_reverse]
    exact Nat.le_length_digits_le b m n h

end Numerals

end Lynox.Fields
