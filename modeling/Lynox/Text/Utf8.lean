import Lynox.Text.Utf16

/-!
# UTF-8

`utf8` encodes a text, a lone surrogate as the replacement character. `decode` reads bytes byte by
byte : a sequence that breaks off, at a byte that cannot go on with it or at the end, is one
replacement character, and the byte that broke it is read anew.

A well-formed text comes back from its encoding (`decode_utf8`).
-/

namespace Lynox.Text

abbrev Bytes := List UInt8

/-! ## Encoding -/

/-- The bytes of a code point. -/
def bytes (n : Nat) : Bytes :=
  if n < 0x80 then [.ofNat n]
  else if n < 0x800 then [.ofNat (0xC0 + n / 0x40), .ofNat (0x80 + n % 0x40)]
  else if n < 0x10000 then
    [.ofNat (0xE0 + n / 0x1000), .ofNat (0x80 + n / 0x40 % 0x40), .ofNat (0x80 + n % 0x40)]
  else
    [.ofNat (0xF0 + n / 0x40000), .ofNat (0x80 + n / 0x1000 % 0x40),
      .ofNat (0x80 + n / 0x40 % 0x40), .ofNat (0x80 + n % 0x40)]

def replacement : Nat := 0xFFFD

def Piece.bytes : Piece → Bytes
  | .scalar n => Text.bytes n
  | .lone _ => Text.bytes replacement

/-- The bytes of a text. -/
def utf8 (s : JsString) : Bytes :=
  (pieces s).flatMap Piece.bytes

def byteLength (s : JsString) : Nat :=
  (utf8 s).length

/-! ## Decoding -/

/-- The sequence that is open : the bytes it needs, what it has of its code point, and the bounds
of its next byte. -/
structure Decoder where
  needed : Nat
  code : Nat
  lower : Nat
  upper : Nat

namespace Decoder

def initial : Decoder :=
  ⟨0, 0, 0x80, 0xBF⟩

/-- A byte where no sequence is open. -/
def first (b : Nat) : JsString × Decoder :=
  if b < 0x80 then (units b, initial)
  else if 0xC2 ≤ b ∧ b < 0xE0 then ([], ⟨1, b - 0xC0, 0x80, 0xBF⟩)
  else if 0xE0 ≤ b ∧ b < 0xF0 then
    ([], ⟨2, b - 0xE0, if b = 0xE0 then 0xA0 else 0x80, if b = 0xED then 0x9F else 0xBF⟩)
  else if 0xF0 ≤ b ∧ b < 0xF5 then
    ([], ⟨3, b - 0xF0, if b = 0xF0 then 0x90 else 0x80, if b = 0xF4 then 0x8F else 0xBF⟩)
  else (units replacement, initial)

def step (d : Decoder) (b : UInt8) : JsString × Decoder :=
  if d.needed = 0 then first b.toNat
  else if d.lower ≤ b.toNat ∧ b.toNat ≤ d.upper then
    let code := d.code * 0x40 + (b.toNat - 0x80)
    if d.needed = 1 then (units code, initial) else ([], ⟨d.needed - 1, code, 0x80, 0xBF⟩)
  else (units replacement ++ (first b.toNat).1, (first b.toNat).2)

def run : Decoder → Bytes → JsString × Decoder
  | d, [] => ([], d)
  | d, b :: bs => ((d.step b).1 ++ ((d.step b).2.run bs).1, ((d.step b).2.run bs).2)

/-- A sequence that is open at the end. -/
def flush (d : Decoder) : JsString :=
  if d.needed = 0 then [] else units replacement

end Decoder

/-- The text of bytes. -/
def decode (bs : Bytes) : JsString :=
  (Decoder.initial.run bs).1 ++ (Decoder.initial.run bs).2.flush

/-! ## Where bytes come apart -/

section Split

variable {d : Decoder} {b : UInt8} {xs ys : Bytes}

namespace Decoder

theorem run_append (d : Decoder) (xs ys : Bytes) :
    d.run (xs ++ ys) = ((d.run xs).1 ++ ((d.run xs).2.run ys).1, ((d.run xs).2.run ys).2) := by
  induction xs generalizing d with
  | nil => rfl
  | cons b xs ih => simp [run, ih]

end Decoder

open Decoder

end Split

/-! ## The round trip -/

section RoundTrip

open Decoder

variable {n : Nat}

theorem toNat_ofNat8 (h : n < 0x100) : (UInt8.ofNat n).toNat = n :=
  UInt8.toNat_ofNat_of_lt' h

theorem step_initial (b : UInt8) : initial.step b = first b.toNat :=
  if_pos rfl

theorem first_two {b : Nat} (h : 0xC2 ≤ b ∧ b < 0xE0) :
    first b = ([], ⟨1, b - 0xC0, 0x80, 0xBF⟩) := by
  unfold first
  rw [if_neg (by omega), if_pos h]

theorem first_three {b : Nat} (h : 0xE0 ≤ b ∧ b < 0xF0) :
    first b = ([], ⟨2, b - 0xE0, if b = 0xE0 then 0xA0 else 0x80,
      if b = 0xED then 0x9F else 0xBF⟩) := by
  unfold first
  rw [if_neg (by omega), if_neg (by omega), if_pos h]

theorem first_four {b : Nat} (h : 0xF0 ≤ b ∧ b < 0xF5) :
    first b = ([], ⟨3, b - 0xF0, if b = 0xF0 then 0x90 else 0x80,
      if b = 0xF4 then 0x8F else 0xBF⟩) := by
  unfold first
  rw [if_neg (by omega), if_neg (by omega), if_neg (by omega), if_pos h]

/-- The last byte of a sequence. -/
theorem step_last {code lower upper x : Nat} (hx : x < 0x40) (hl : lower ≤ 0x80 + x)
    (hu : 0x80 + x ≤ upper) :
    step ⟨1, code, lower, upper⟩ (.ofNat (0x80 + x)) = (units (code * 0x40 + x), initial) := by
  unfold step
  rw [toNat_ofNat8 (by omega), if_neg (by simp), if_pos ⟨hl, hu⟩, Nat.add_sub_cancel_left]
  rfl

/-- A byte with others after it. -/
theorem step_more {m code lower upper x : Nat} (hx : x < 0x40) (hl : lower ≤ 0x80 + x)
    (hu : 0x80 + x ≤ upper) : step ⟨m + 2, code, lower, upper⟩ (.ofNat (0x80 + x)) =
      ([], ⟨m + 1, code * 0x40 + x, 0x80, 0xBF⟩) := by
  unfold step
  rw [toNat_ofNat8 (by omega), if_neg (by simp), if_pos ⟨hl, hu⟩, Nat.add_sub_cancel_left]
  simp

/-- The bytes of a scalar value are read as it. -/
theorem run_bytes (hn : Scalar n) : initial.run (bytes n) = (units n, initial) := by
  unfold Scalar at hn
  unfold bytes
  split
  · next h =>
    have h₁ := toNat_ofNat8 (n := n) (by omega)
    simp [run, step_initial, first, h₁, h]
  · split
    · have h₁ := toNat_ofNat8 (n := 0xC0 + n / 0x40) (by omega)
      have hcode : (0xC0 + n / 0x40 - 0xC0) * 0x40 + n % 0x40 = n := by omega
      simp only [run, step_initial, h₁]
      rw [first_two (by omega), step_last (by omega) (by omega) (by omega), hcode]
      simp
    · split
      · have h₁ := toNat_ofNat8 (n := 0xE0 + n / 0x1000) (by omega)
        have hcode : ((0xE0 + n / 0x1000 - 0xE0) * 0x40 + n / 0x40 % 0x40) * 0x40 + n % 0x40 = n := by
          omega
        have hlower : (if 0xE0 + n / 0x1000 = 0xE0 then 0xA0 else 0x80) ≤ 0x80 + n / 0x40 % 0x40 := by
          split <;> omega
        have hupper : 0x80 + n / 0x40 % 0x40 ≤ if 0xE0 + n / 0x1000 = 0xED then 0x9F else 0xBF := by
          split <;> omega
        simp only [run, step_initial, h₁]
        rw [first_three (by omega), step_more (by omega) hlower hupper,
          step_last (by omega) (by omega) (by omega), hcode]
        simp
      · have h₁ := toNat_ofNat8 (n := 0xF0 + n / 0x40000) (by omega)
        have hcode : (((0xF0 + n / 0x40000 - 0xF0) * 0x40 + n / 0x1000 % 0x40) * 0x40 +
            n / 0x40 % 0x40) * 0x40 + n % 0x40 = n := by omega
        have hlower : (if 0xF0 + n / 0x40000 = 0xF0 then 0x90 else 0x80) ≤
            0x80 + n / 0x1000 % 0x40 := by
          split <;> omega
        have hupper : 0x80 + n / 0x1000 % 0x40 ≤
            if 0xF0 + n / 0x40000 = 0xF4 then 0x8F else 0xBF := by
          split <;> omega
        simp only [run, step_initial, h₁]
        rw [first_four (by omega), step_more (by omega) hlower hupper,
          step_more (by omega) (by omega) (by omega),
          step_last (by omega) (by omega) (by omega), hcode]
        simp

theorem decode_bytes (hn : Scalar n) (bs : Bytes) : decode (bytes n ++ bs) = units n ++ decode bs := by
  unfold decode
  rw [run_append, run_bytes hn]
  simp

/-- The bytes of a text of scalar values. -/
theorem utf8_flatMap {ns : List Nat} (h : ∀ n ∈ ns, Scalar n) :
    utf8 (ns.flatMap units) = ns.flatMap bytes := by
  unfold utf8
  rw [pieces_flatMap h, List.flatMap_map]
  rfl

/-- A well-formed text comes back from its bytes. -/
theorem decode_utf8 {s : JsString} (h : WellFormed s) : decode (utf8 s) = s := by
  obtain ⟨ns, hns, rfl⟩ := h
  rw [utf8_flatMap hns]
  induction ns with
  | nil => rfl
  | cons n ns ih =>
    rw [List.flatMap_cons, List.flatMap_cons, decode_bytes (hns n List.mem_cons_self),
      ih fun m hm => hns m (List.mem_cons_of_mem n hm)]

theorem utf8_append {s t : JsString} (hs : WellFormed s) (ht : WellFormed t) :
    utf8 (s ++ t) = utf8 s ++ utf8 t := by
  obtain ⟨ms, hms, rfl⟩ := hs
  obtain ⟨ns, hns, rfl⟩ := ht
  rw [← List.flatMap_append, utf8_flatMap hms, utf8_flatMap hns, utf8_flatMap, List.flatMap_append]
  exact fun n hn => (List.mem_append.1 hn).elim (hms n) (hns n)

/-- A byte below 0x80 is in the bytes of a code point that is it. -/
theorem ascii_of_mem_bytes {b : UInt8} (hb : b ∈ bytes n) (hlt : b.toNat < 0x80)
    (hn : n < 0x110000) : n = b.toNat := by
  unfold bytes at hb
  split at hb
  · next h =>
    rw [List.mem_singleton.1 hb, toNat_ofNat8 (by omega)]
  · exfalso
    split at hb
    · simp only [List.mem_cons, List.not_mem_nil, or_false] at hb
      rcases hb with rfl | rfl <;> rw [toNat_ofNat8 (by omega)] at hlt <;> omega
    · split at hb
      · simp only [List.mem_cons, List.not_mem_nil, or_false] at hb
        rcases hb with rfl | rfl | rfl <;> rw [toNat_ofNat8 (by omega)] at hlt <;> omega
      · simp only [List.mem_cons, List.not_mem_nil, or_false] at hb
        rcases hb with rfl | rfl | rfl | rfl <;> rw [toNat_ofNat8 (by omega)] at hlt <;> omega

theorem length_bytes_le (n : Nat) : (bytes n).length ≤ 4 := by
  unfold bytes
  repeat' split
  all_goals simp

/-- A byte below 0x80 in the bytes of a well-formed text is a unit of it. -/
theorem unit_of_mem_utf8 {s : JsString} (hs : WellFormed s) {b : UInt8} (hb : b ∈ utf8 s)
    (hlt : b.toNat < 0x80) : UInt16.ofNat b.toNat ∈ s := by
  obtain ⟨ns, hns, rfl⟩ := hs
  rw [utf8_flatMap hns] at hb
  obtain ⟨n, hn, hbn⟩ := List.mem_flatMap.1 hb
  have hscalar : n < 0x110000 := by
    have := hns n hn
    unfold Scalar at this
    omega
  obtain rfl := ascii_of_mem_bytes hbn hlt hscalar
  refine List.mem_flatMap.2 ⟨_, hn, ?_⟩
  rw [units, if_pos (by omega)]
  exact List.mem_singleton_self _

end RoundTrip

end Lynox.Text
