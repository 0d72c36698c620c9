import Mathlib.Data.Nat.Basic
import Mathlib.Data.UInt

/-!
# Texts of UTF-16 code units

A text is a list of code units, and a surrogate may stand in it without its other half. `pieces`
reads a text as scalar values and lone surrogates, and the units of the pieces are the text again
(`flatMap_pieces`). A text of scalar values is read as those (`pieces_flatMap`) : it is
well formed.
-/

namespace Lynox.Text

/-- A text as the language has it. -/
abbrev JsString := List UInt16

/-- Texts are compared by equality. -/
instance : LawfulBEq JsString := inferInstance

/-- Scalar values : code points that are not surrogates. -/
def Scalar (n : Nat) : Prop :=
  n < 0xD800 ∨ 0xE000 ≤ n ∧ n < 0x110000

instance (n : Nat) : Decidable (Scalar n) :=
  inferInstanceAs (Decidable (_ ∨ _))

/-- The code units of a code point. -/
def units (n : Nat) : JsString :=
  if n < 0x10000 then [.ofNat n]
  else [.ofNat (0xD800 + (n - 0x10000) / 0x400), .ofNat (0xDC00 + (n - 0x10000) % 0x400)]

/-- The units of a text of characters. -/
def utf16 (s : String) : JsString :=
  s.toList.flatMap fun c => units c.toNat

/-- The first half of a surrogate pair. -/
def high (u : UInt16) : Bool :=
  0xD800 ≤ u.toNat && u.toNat < 0xDC00

/-- The second half of a surrogate pair. -/
def low (u : UInt16) : Bool :=
  0xDC00 ≤ u.toNat && u.toNat < 0xE000

inductive Piece
  | scalar (n : Nat)
  | lone (u : UInt16)

namespace Piece

/-- A unit that is no half of a pair. -/
def single (u : UInt16) : Piece :=
  if high u || low u then .lone u else .scalar u.toNat

def units : Piece → JsString
  | .scalar n => Text.units n
  | .lone u => [u]

end Piece

/-- A text as scalar values and lone surrogates. -/
def pieces : JsString → List Piece
  | [] => []
  | [u] => [.single u]
  | u :: v :: rest =>
    if high u && low v then
      .scalar (0x10000 + (u.toNat - 0xD800) * 0x400 + (v.toNat - 0xDC00)) :: pieces rest
    else .single u :: pieces (v :: rest)

section Pieces

variable {n : Nat} {u v : UInt16} {s : JsString}

theorem toNat_ofNat (h : n < 0x10000) : (UInt16.ofNat n).toNat = n :=
  UInt16.toNat_ofNat_of_lt' h

theorem high_iff : high u = true ↔ 0xD800 ≤ u.toNat ∧ u.toNat < 0xDC00 := by
  simp [high]

theorem low_iff : low u = true ↔ 0xDC00 ≤ u.toNat ∧ u.toNat < 0xE000 := by
  simp [low]

theorem units_single (u : UInt16) : (Piece.single u).units = [u] := by
  unfold Piece.single
  split
  · rfl
  · simp [Piece.units, units, u.toNat_lt]

theorem units_pair (hu : high u = true) (hv : low v = true) :
    units (0x10000 + (u.toNat - 0xD800) * 0x400 + (v.toNat - 0xDC00)) = [u, v] := by
  rw [high_iff] at hu
  rw [low_iff] at hv
  unfold units
  rw [if_neg (by omega)]
  have h₁ : 0xD800 + (0x10000 + (u.toNat - 0xD800) * 0x400 + (v.toNat - 0xDC00) - 0x10000) / 0x400 =
      u.toNat := by omega
  have h₂ : 0xDC00 + (0x10000 + (u.toNat - 0xD800) * 0x400 + (v.toNat - 0xDC00) - 0x10000) % 0x400 =
      v.toNat := by omega
  rw [h₁, h₂, UInt16.ofNat_toNat, UInt16.ofNat_toNat]

/-- The units of the pieces are the text. -/
theorem flatMap_pieces (s : JsString) : (pieces s).flatMap Piece.units = s := by
  fun_induction pieces s with
  | case1 => rfl
  | case2 u => simp [units_single]
  | case3 u v rest h ih =>
    rw [Bool.and_eq_true] at h
    rw [List.flatMap_cons, ih]
    simp [Piece.units, units_pair h.1 h.2]
  | case4 u v rest h ih => rw [List.flatMap_cons, ih, units_single, List.singleton_append]

theorem scalar_of_single (h : Piece.single u = .scalar n) : Scalar n := by
  unfold Piece.single at h
  split at h
  · cases h
  · next hs =>
    cases h
    rw [Bool.or_eq_true, high_iff, low_iff] at hs
    have := u.toNat_lt
    unfold Scalar
    omega

theorem scalar_of_mem_pieces (h : .scalar n ∈ pieces s) : Scalar n := by
  fun_induction pieces s with
  | case1 => cases h
  | case2 u => exact scalar_of_single (List.mem_singleton.1 h).symm
  | case3 u v rest hp ih =>
    rcases List.mem_cons.1 h with h | h
    · rw [Bool.and_eq_true, high_iff, low_iff] at hp
      have hn := Piece.scalar.inj h
      unfold Scalar
      omega
    · exact ih h
  | case4 u v rest hp ih =>
    rcases List.mem_cons.1 h with h | h
    · exact scalar_of_single h.symm
    · exact ih h

theorem lone_of_single (h : Piece.single u = .lone v) : u = v ∧ (high v = true ∨ low v = true) := by
  unfold Piece.single at h
  split at h
  · next hs =>
    cases h
    exact ⟨rfl, by simpa using hs⟩
  · cases h

theorem lone_of_mem_pieces (h : .lone u ∈ pieces s) : high u = true ∨ low u = true := by
  fun_induction pieces s with
  | case1 => cases h
  | case2 u => exact (lone_of_single (List.mem_singleton.1 h).symm).2
  | case3 u v rest hp ih =>
    rcases List.mem_cons.1 h with h | h
    · cases h
    · exact ih h
  | case4 u v rest hp ih =>
    rcases List.mem_cons.1 h with h | h
    · exact (lone_of_single h.symm).2
    · exact ih h

/-- A scalar value is read as one piece. -/
theorem pieces_units (hn : Scalar n) (s : JsString) :
    pieces (units n ++ s) = .scalar n :: pieces s := by
  unfold Scalar at hn
  unfold units
  split
  · next hlt =>
    have hsingle : Piece.single (.ofNat n) = .scalar n := by
      unfold Piece.single
      rw [if_neg, toNat_ofNat hlt]
      rw [Bool.or_eq_true, high_iff, low_iff, toNat_ofNat hlt]
      omega
    have hhigh : high (.ofNat n) = false := by
      rw [Bool.eq_false_iff, ne_eq, high_iff, toNat_ofNat hlt]
      omega
    cases s with
    | nil => simp [pieces, hsingle]
    | cons v s => simp [pieces, hsingle, hhigh]
  · next hge =>
    have h₁ : (UInt16.ofNat (0xD800 + (n - 0x10000) / 0x400)).toNat =
        0xD800 + (n - 0x10000) / 0x400 := toNat_ofNat (by omega)
    have h₂ : (UInt16.ofNat (0xDC00 + (n - 0x10000) % 0x400)).toNat =
        0xDC00 + (n - 0x10000) % 0x400 := toNat_ofNat (by omega)
    have h₃ : 0x10000 + (0xD800 + (n - 0x10000) / 0x400 - 0xD800) * 0x400 +
        (0xDC00 + (n - 0x10000) % 0x400 - 0xDC00) = n := by omega
    rw [List.cons_append, List.cons_append, List.nil_append, pieces, if_pos, h₁, h₂, h₃]
    · rw [Bool.and_eq_true, high_iff, low_iff, h₁, h₂]
      omega

/-- A text of scalar values is read as those. -/
theorem pieces_flatMap : ∀ {ns : List Nat}, (∀ n ∈ ns, Scalar n) →
    pieces (ns.flatMap units) = ns.map .scalar
  | [], _ => rfl
  | n :: ns, h => by
    rw [List.flatMap_cons, pieces_units (h n List.mem_cons_self),
      pieces_flatMap fun m hm => h m (List.mem_cons_of_mem n hm)]
    rfl

/-- Two texts are read apart if no pair stands across the cut. -/
theorem pieces_append {t : JsString} (h : ∀ v ∈ t.head?, low v = false) (s : JsString) :
    pieces (s ++ t) = pieces s ++ pieces t := by
  fun_induction pieces s with
  | case1 => rfl
  | case2 u =>
    cases t with
    | nil => rfl
    | cons v t =>
      rw [List.singleton_append, pieces, if_neg (by simp [h v rfl])]
      rfl
  | case3 u v rest hp ih =>
    rw [List.cons_append, List.cons_append, pieces, if_pos hp, ih]
    rfl
  | case4 u v rest hp ih =>
    rw [List.cons_append, List.cons_append, pieces, if_neg hp, ← List.cons_append, ih]
    rfl

/-- A unit that begins no pair is a piece. -/
theorem pieces_cons (h : ∀ v ∈ s.head?, (high u && low v) = false) :
    pieces (u :: s) = .single u :: pieces s := by
  cases s with
  | nil => rfl
  | cons v s => rw [pieces, if_neg (by simp [h v rfl])]

/-- An ASCII unit is no half of a pair. -/
theorem halves_of_ascii (hu : u.toNat < 0x80) : high u = false ∧ low u = false := by
  rw [Bool.eq_false_iff, Bool.eq_false_iff, ne_eq, ne_eq, high_iff, low_iff]
  omega

theorem single_of_ascii (hu : u.toNat < 0x80) : Piece.single u = .scalar u.toNat := by
  obtain ⟨hhigh, hlow⟩ := halves_of_ascii hu
  rw [Piece.single, if_neg (by simp [hhigh, hlow])]

/-- A text is cut at an ASCII unit. -/
theorem pieces_append_cons (hu : u.toNat < 0x80) (s t : JsString) :
    pieces (s ++ u :: t) = pieces s ++ .scalar u.toNat :: pieces t := by
  obtain ⟨hhigh, hlow⟩ := halves_of_ascii hu
  rw [pieces_append (fun v hv => by cases hv; exact hlow),
    pieces_cons (fun v _ => by rw [hhigh, Bool.false_and]), single_of_ascii hu]

end Pieces

/-- A text without lone surrogates. -/
def WellFormed (s : JsString) : Prop :=
  ∃ ns : List Nat, (∀ n ∈ ns, Scalar n) ∧ s = ns.flatMap units

namespace WellFormed

variable {s t : JsString}

theorem nil : WellFormed [] :=
  ⟨[], by simp, rfl⟩

theorem append (hs : WellFormed s) (ht : WellFormed t) : WellFormed (s ++ t) := by
  obtain ⟨ms, hms, rfl⟩ := hs
  obtain ⟨ns, hns, rfl⟩ := ht
  refine ⟨ms ++ ns, fun n hn => ?_, List.flatMap_append.symm⟩
  exact (List.mem_append.1 hn).elim (hms n) (hns n)

/-- The two sides of an ASCII unit. -/
theorem of_append_cons {u : UInt16} (hu : u.toNat < 0x80) (h : WellFormed (s ++ u :: t)) :
    WellFormed s ∧ WellFormed t := by
  obtain ⟨ns, hns, heq⟩ := h
  have hpieces := pieces_flatMap hns
  rw [← heq, pieces_append_cons hu, eq_comm, List.map_eq_append_iff] at hpieces
  obtain ⟨before, others, rfl, hbefore, hothers⟩ := hpieces
  obtain ⟨n, after, rfl, -, hafter⟩ := List.map_eq_cons_iff.1 hothers
  refine ⟨⟨before, fun m hm => hns m (List.mem_append_left _ hm), ?_⟩,
    ⟨after, fun m hm => hns m (List.mem_append_right _ (List.mem_cons_of_mem n hm)), ?_⟩⟩
  · rw [← flatMap_pieces s, ← hbefore, List.flatMap_map]
    rfl
  · rw [← flatMap_pieces t, ← hafter, List.flatMap_map]
    rfl

theorem units {n : Nat} (h : Scalar n) : WellFormed (units n) :=
  ⟨[n], by simpa using h, by simp⟩

theorem flatMap {α : Type*} {l : List α} {f : α → JsString} (h : ∀ a ∈ l, WellFormed (f a)) :
    WellFormed (l.flatMap f) := by
  induction l with
  | nil => exact nil
  | cons a l ih =>
    rw [List.flatMap_cons]
    exact (h a List.mem_cons_self).append (ih fun b hb => h b (List.mem_cons_of_mem a hb))

theorem utf16 (s : String) : WellFormed (utf16 s) :=
  flatMap fun c _ => units (by
    rcases c.valid with h | h
    · exact .inl h
    · exact .inr ⟨by have := h.1; show 0xE000 ≤ c.val.toNat; omega, h.2⟩)

end WellFormed

end Lynox.Text
