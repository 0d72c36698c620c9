import Lynox.Egress.Policy
import Lynox.Text.Json
import Mathlib.Data.Nat.Digits.Lemmas

/-!
# Addresses and their texts

An address is a number of 32 or 128 bits. Its ranges are given by a first address and the number of
bits that count. The texts of an address of 128 bits write eight groups of 16 bits in up to four
hexadecimal digits; the last two may be a dotted IPv4, a run of zero groups may be left out, and a zone
may stand behind.
-/

namespace Lynox.Network

open Text
open Egress (numberOf)

/-! ## Numbers -/

/-- The number of big-endian digits in base `b`. -/
def ofBig (b : ℕ) (digits : List ℕ) : ℕ :=
  Nat.ofDigits b digits.reverse

def v4 (a b c d : ℕ) : ℕ :=
  ofBig 256 [a, b, c, d]

/-- The first `len` of `bits` bits are those of `net`. -/
def InRange (bits addr net len : ℕ) : Prop :=
  addr / 2 ^ (bits - len) = net / 2 ^ (bits - len)

/-- The private and reserved ranges of IPv4. -/
def privateV4Ranges : List (ℕ × ℕ) :=
  [(v4 127 0 0 0, 8), (v4 10 0 0 0, 8), (v4 172 16 0 0, 12), (v4 192 168 0 0, 16),
    (v4 169 254 0 0, 16), (v4 100 64 0 0, 10), (v4 198 18 0 0, 15), (v4 192 0 0 0, 24),
    (v4 0 0 0 0, 8), (v4 224 0 0 0, 3)]

def PrivateV4 (addr : ℕ) : Prop :=
  ∃ range ∈ privateV4Ranges, InRange 32 addr range.1 range.2

def v6 (groups : List ℕ) : ℕ :=
  ofBig 65536 groups

/-- Unspecified, loopback, link-local, unique-local, multicast and `64:ff9b:1::/48`. -/
def privateV6Ranges : List (ℕ × ℕ) :=
  [(v6 [0, 0, 0, 0, 0, 0, 0, 0], 128), (v6 [0, 0, 0, 0, 0, 0, 0, 1], 128),
    (v6 [0xfe80, 0, 0, 0, 0, 0, 0, 0], 10), (v6 [0xfc00, 0, 0, 0, 0, 0, 0, 0], 7),
    (v6 [0xff00, 0, 0, 0, 0, 0, 0, 0], 8), (v6 [0x64, 0xff9b, 1, 0, 0, 0, 0, 0], 48)]

/-- The ranges of the forms that carry an IPv4 in their last bits : compatible, mapped, SIIT and
NAT64. -/
def carryingRanges : List (ℕ × ℕ) :=
  [(v6 [0, 0, 0, 0, 0, 0, 0, 0], 96), (v6 [0, 0, 0, 0, 0, 0xffff, 0, 0], 96),
    (v6 [0, 0, 0, 0, 0xffff, 0, 0, 0], 96), (v6 [0x64, 0xff9b, 0, 0, 0, 0, 0, 0], 96)]

/-- The address carries the IPv4, in its last bits or behind `2002`. -/
def CarriesV4 (addr v : ℕ) : Prop :=
  (∃ range ∈ carryingRanges, InRange 128 addr range.1 range.2) ∧ v = addr % 2 ^ 32 ∨
    InRange 128 addr (v6 [0x2002, 0, 0, 0, 0, 0, 0, 0]) 16 ∧ v = addr / 2 ^ 80 % 2 ^ 32

/-- An address that no request may go to. -/
def PrivateV6 (addr : ℕ) : Prop :=
  (∃ range ∈ privateV6Ranges, InRange 128 addr range.1 range.2) ∨
    ∃ v, CarriesV4 addr v ∧ PrivateV4 v

/-! ## Texts -/

/-- A group of an address : up to four hexadecimal digits of either case. -/
def IsGroup (text : JsString) (value : ℕ) : Prop :=
  text ≠ [] ∧ text.length ≤ 4 ∧ ∃ digits, text.mapM hexVal = some digits ∧ value = ofBig 16 digits

/-- An octet of a dotted address : up to three digits. -/
def IsOctetText (text : JsString) (value : ℕ) : Prop :=
  text ≠ [] ∧ text.length ≤ 3 ∧ text.all Egress.isDigit ∧ numberOf text = value ∧ value ≤ 255

def IsDotted (text : JsString) (octets : List ℕ) : Prop :=
  octets.length = 4 ∧ ∃ parts, text = [0x2E].intercalate parts ∧ List.Forall₂ IsOctetText parts octets

/-- Groups between colons. -/
def joinColon (parts : List JsString) : JsString :=
  [0x3A].intercalate parts

/-- The parts at the end of an address, the last of which may be dotted. -/
inductive IsTail : List JsString → List ℕ → Prop
  | groups {parts : List JsString} {values : List ℕ} (h : List.Forall₂ IsGroup parts values) :
    IsTail parts values
  | dotted {parts : List JsString} {values : List ℕ} {quad : JsString} {a b c d : ℕ}
    (h : List.Forall₂ IsGroup parts values) (hquad : IsDotted quad [a, b, c, d]) :
    IsTail (parts ++ [quad]) (values ++ [a * 256 + b, c * 256 + d])

/-- The texts of eight groups without a zone : all of them, or those around a run of zeros. -/
inductive IsText : JsString → List ℕ → Prop
  | full {parts : List JsString} {values : List ℕ} (h : IsTail parts values)
    (hlength : values.length = 8) : IsText (joinColon parts) values
  | compressed {front behind : List JsString} {before after : List ℕ}
    (hfront : List.Forall₂ IsGroup front before) (hbehind : IsTail behind after)
    (hlength : before.length + after.length < 8) :
    IsText (joinColon front ++ 0x3A :: 0x3A :: joinColon behind)
      (before ++ List.replicate (8 - before.length - after.length) 0 ++ after)

/-- The texts of an address, a zone behind some of them. -/
def IsAddressText (text : JsString) (addr : BitVec 128) : Prop :=
  ∃ body groups, IsText body groups ∧ v6 groups = addr.toNat ∧
    (text = body ∨ ∃ zone, text = body ++ 0x25 :: zone)

/-! ## Digits -/

section Digits

variable {xs ys : List ℕ} {b : ℕ}

theorem ofBig_append : ofBig b (xs ++ ys) = ofBig b xs * b ^ ys.length + ofBig b ys := by
  rw [ofBig, List.reverse_append, Nat.ofDigits_append, List.length_reverse, ← ofBig, ← ofBig]
  ring

theorem ofBig_lt (hb : 1 < b) (h : ∀ x ∈ xs, x < b) : ofBig b xs < b ^ xs.length := by
  have hlt := Nat.ofDigits_lt_base_pow_length (l := xs.reverse) hb
    fun x hx => h x (List.mem_reverse.1 hx)
  rwa [List.length_reverse] at hlt

theorem ofBig_inj (hb : 1 < b) (hxs : ∀ x ∈ xs, x < b) (hys : ∀ y ∈ ys, y < b)
    (hlength : xs.length = ys.length) : ofBig b xs = ofBig b ys ↔ xs = ys := by
  refine ⟨fun h => ?_, fun h => congrArg (ofBig b) h⟩
  refine List.reverse_injective (Nat.ofDigits_inj_of_len_eq hb ?_ ?_ ?_ h)
  · rw [List.length_reverse, List.length_reverse, hlength]
  · exact fun x hx => hxs x (List.mem_reverse.1 hx)
  · exact fun y hy => hys y (List.mem_reverse.1 hy)

/-- The first digits of a number. -/
theorem ofBig_div (hb : 1 < b) (hys : ∀ y ∈ ys, y < b) :
    ofBig b (xs ++ ys) / b ^ ys.length = ofBig b xs := by
  rw [ofBig_append, Nat.mul_comm, Nat.mul_add_div (Nat.pow_pos (Nat.zero_lt_of_lt hb)),
    Nat.div_eq_of_lt (ofBig_lt hb hys), Nat.add_zero]

theorem ofBig_mod (hb : 1 < b) (hys : ∀ y ∈ ys, y < b) :
    ofBig b (xs ++ ys) % b ^ ys.length = ofBig b ys := by
  rw [ofBig_append, Nat.mul_add_mod_self_right, Nat.mod_eq_of_lt (ofBig_lt hb hys)]

/-- The bytes of a number of groups. -/
theorem ofBig_bytes : ∀ {groups : List ℕ}, (∀ g ∈ groups, g < 65536) →
    ofBig 256 (groups.flatMap fun g => [g / 256, g % 256]) = v6 groups
  | [], _ => rfl
  | g :: groups, h => by
    have ih := ofBig_bytes fun g' hg' => h g' (List.mem_cons_of_mem g hg')
    have hg : ofBig 256 [g / 256, g % 256] = g := by
      simp only [ofBig, List.reverse_cons, List.reverse_nil, List.nil_append, List.cons_append,
        Nat.ofDigits_cons, Nat.ofDigits_nil]
      simp
      omega
    have hcons : v6 (g :: groups) = g * 65536 ^ groups.length + v6 groups := by
      have hone : ofBig 65536 [g] = g := by simp [ofBig]
      rw [v6, ← List.singleton_append, ofBig_append, hone, v6]
    have hlength : (groups.flatMap fun g => [g / 256, g % 256]).length = 2 * groups.length := by
      simp [List.length_flatMap, Nat.mul_comm]
    rw [List.flatMap_cons, ofBig_append, ih, hlength, hg, hcons, Nat.pow_mul]

end Digits

end Lynox.Network
