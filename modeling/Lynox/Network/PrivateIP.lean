import Lynox.Network.Address
import Lynox.Text.Matcher

/-!
# Private addresses

`isPrivateIP` reads an address from its text and tells whether it belongs to a private, reserved or
local range. The answer depends on the address alone, however it is written.
-/

namespace Lynox.Network

open Text
open Egress (splitLastColon v4Octets isPrivateV4)

/-! ## Reading an address -/

/-- The parts of a text between its double colons. -/
def splitDouble : JsString → List JsString
  | [] => [[]]
  | [u] => [[u]]
  | u :: v :: s =>
    if u = 0x3A ∧ v = 0x3A then [] :: splitDouble s
    else
      match splitDouble (v :: s) with
      | part :: parts => (u :: part) :: parts
      | [] => [[u]]

/-- The digits `0-9a-f`. -/
def isLowerHex (u : UInt16) : Bool :=
  Egress.isDigit u || (0x61 ≤ u && u ≤ 0x66)

/-- The number of hexadecimal digits. -/
def parseHex (g : JsString) : ℕ :=
  g.foldl (fun n u => 16 * n + (hexVal u).getD 0) 0

/-- The two bytes of a group. -/
def parseGroup (g : JsString) : Option (List ℕ) :=
  if 1 ≤ g.length ∧ g.length ≤ 4 ∧ g.all isLowerHex then
    let n := parseHex g
    some [n >>> 8 &&& 0xff, n &&& 0xff]
  else none

def parseGroups (part : JsString) : Option (List ℕ) :=
  if part = [] then some [] else ((part.splitOn 0x3A).mapM parseGroup).map List.flatten

/-- A number in base 16. -/
def toString16 (n : ℕ) : JsString :=
  if n = 0 then [0x30] else (Nat.digits 16 n).reverse.map hexDigit

/-- A dotted IPv4 behind the last colon is written as two groups. -/
def unquad (s : JsString) : Option JsString := do
  let (before, quad) ← splitLastColon s
  if 0x2E ∈ quad then
    match ← v4Octets quad with
    | [a, b, c, d] =>
      some (before ++ 0x3A :: toString16 (a <<< 8 ||| b) ++ 0x3A :: toString16 (c <<< 8 ||| d))
    | _ => none
  else some s

/-- The sixteen bytes of an address; none where its text cannot be read. -/
def ipv6ToBytes (addr : JsString) : Option (List ℕ) := do
  let s ← unquad (addr.takeWhile (· ≠ 0x25))
  match splitDouble s with
  | [whole] =>
    let head ← parseGroups whole
    if head.length = 16 then some head else none
  | [front, behind] =>
    let head ← parseGroups front
    let tail ← parseGroups behind
    if 16 < head.length + tail.length then none
    else some (head ++ List.replicate (16 - head.length - tail.length) 0 ++ tail)
  | _ => none

/-! ## The ranges -/

/-- The IPv4 that an address carries. -/
def embeddedV4 (bytes : List ℕ) : Option (List ℕ) :=
  let zero := fun start stop => ((bytes.take stop).drop start).all (· = 0)
  let byteAt := fun i => bytes.getD i 0
  if zero 0 12 then some ((bytes.take 16).drop 12)
  else if zero 0 10 ∧ byteAt 10 = 0xff ∧ byteAt 11 = 0xff then some ((bytes.take 16).drop 12)
  else if zero 0 8 ∧ byteAt 8 = 0xff ∧ byteAt 9 = 0xff ∧ zero 10 12 then
    some ((bytes.take 16).drop 12)
  else if byteAt 1 = 0x64 ∧ byteAt 2 = 0xff ∧ byteAt 3 = 0x9b ∧ zero 0 1 ∧ zero 4 12 then
    some ((bytes.take 16).drop 12)
  else if byteAt 0 = 0x20 ∧ byteAt 1 = 0x02 then some ((bytes.take 6).drop 2)
  else none

/-- The checks on the bytes of an address. -/
def isPrivateBytes (bytes : List ℕ) : Bool :=
  let byteAt := fun i => bytes.getD i 0
  if bytes.all (· = 0) then true
  else if (bytes.take 15).all (· = 0) ∧ byteAt 15 = 1 then true
  else if byteAt 0 = 0xfe ∧ byteAt 1 &&& 0xc0 = 0x80 then true
  else if byteAt 0 &&& 0xfe = 0xfc then true
  else if byteAt 0 = 0xff then true
  else if byteAt 0 = 0 ∧ byteAt 1 = 0x64 ∧ byteAt 2 = 0xff ∧ byteAt 3 = 0x9b ∧ byteAt 4 = 0 ∧
      byteAt 5 = 1 then true
  else (embeddedV4 bytes).any isPrivateV4

/-- The checks on a text that cannot be read : `::1`, `::`, and the first group of link-local,
unique-local and multicast addresses. -/
def isPrivateText (normalized : JsString) : Bool :=
  if normalized = utf16 "::1" ∨ normalized = utf16 "::" then true
  else
    match normalized with
    | a :: b :: c :: d :: colon :: _ =>
      colon = 0x3A ∧ isLowerHex d ∧
        (a = 0x66 ∧ b = 0x65 ∧ (c = 0x38 ∨ c = 0x39 ∨ c = 0x61 ∨ c = 0x62) ∨
          a = 0x66 ∧ (b = 0x63 ∨ b = 0x64) ∧ isLowerHex c ∨ a = 0x66 ∧ b = 0x66 ∧ isLowerHex c)
    | _ => false

/-- Whether requests to the address are refused. -/
def isPrivateIP (other : JsString → UInt16 → JsString → JsString) (ip : JsString) : Bool :=
  let normalized := lowerCase other ip
  if 0x3A ∉ normalized then (v4Octets normalized).any isPrivateV4
  else
    match ipv6ToBytes normalized with
    | some bytes => isPrivateBytes bytes
    | none => isPrivateText normalized

/-! ## What the checks say -/

section Ranges

variable {a b c d : ℕ} {bytes : List ℕ}

theorem v4_eq (a b c d : ℕ) : v4 a b c d = 16777216 * a + 65536 * b + 256 * c + d := by
  simp [v4, ofBig, Nat.ofDigits]
  ring

theorem isPrivateV4_iff (ha : a < 256) (hb : b < 256) (hc : c < 256) (hd : d < 256) :
    isPrivateV4 [a, b, c, d] = true ↔ PrivateV4 (v4 a b c d) := by
  simp only [PrivateV4, privateV4Ranges, InRange, v4_eq, List.exists_mem_cons_iff, List.not_mem_nil,
    false_and, exists_false, or_false, isPrivateV4, Bool.or_eq_true, Bool.and_eq_true, beq_iff_eq,
    decide_eq_true_eq, or_assoc]
  refine or_congr ?_ (or_congr ?_ (or_congr ?_ (or_congr ?_ (or_congr ?_ (or_congr ?_ (or_congr ?_
    (or_congr ?_ (or_congr ?_ ?_))))))))
  all_goals
    norm_num
    omega

/-- The first bytes of an address. -/
theorem ofBig_div_take (k : ℕ) (hlength : bytes.length = 16) (h : ∀ x ∈ bytes, x < 256) :
    ofBig 256 bytes / 256 ^ (16 - k) = ofBig 256 (bytes.take k) := by
  have hdrop : (bytes.drop k).length = 16 - k := by rw [List.length_drop, hlength]
  conv_lhs => rw [← List.take_append_drop k bytes]
  rw [← hdrop, ofBig_div (by decide) fun x hx => h x (List.mem_of_mem_drop hx)]

/-- The last four of some bytes. -/
theorem ofBig_mod_drop (k : ℕ) (hlength : bytes.length = k + 4) (h : ∀ x ∈ bytes, x < 256) :
    ofBig 256 bytes % 2 ^ 32 = ofBig 256 (bytes.drop k) := by
  have hdrop : (bytes.drop k).length = 4 := by
    rw [List.length_drop, hlength]
    omega
  have hpow : (2 : ℕ) ^ 32 = 256 ^ (bytes.drop k).length := by
    rw [hdrop]
    rfl
  conv_lhs => rw [← List.take_append_drop k bytes]
  rw [hpow, ofBig_mod (by decide) fun x hx => h x (List.mem_of_mem_drop hx)]

/-- A range of whole bytes : the address begins with them. -/
theorem inRange_take (net : ℕ) (pre : List ℕ) (hlength : bytes.length = 16)
    (h : ∀ x ∈ bytes, x < 256) (hpre : pre.all (· < 256)) (hle : pre.length ≤ 16)
    (hnet : net / 256 ^ (16 - pre.length) = ofBig 256 pre) :
    InRange 128 (ofBig 256 bytes) net (8 * pre.length) ↔ bytes.take pre.length = pre := by
  have hpow : 2 ^ (128 - 8 * pre.length) = 256 ^ (16 - pre.length) := by
    rw [show 128 - 8 * pre.length = 8 * (16 - pre.length) by omega, Nat.pow_mul]
  rw [InRange, hpow, ofBig_div_take _ hlength h, hnet,
    ofBig_inj (by decide) (fun x hx => h x (List.mem_of_mem_take hx))
      fun x hx => of_decide_eq_true (List.all_eq_true.1 hpre x hx)]
  rw [List.length_take]
  omega

theorem exists_bytes (hlength : bytes.length = 16) :
    ∃ b0 b1 b2 b3 b4 b5 b6 b7 b8 b9 b10 b11 b12 b13 b14 b15,
      bytes = [b0, b1, b2, b3, b4, b5, b6, b7, b8, b9, b10, b11, b12, b13, b14, b15] := by
  match bytes, hlength with
  | [b0, b1, b2, b3, b4, b5, b6, b7, b8, b9, b10, b11, b12, b13, b14, b15], _ =>
    exact ⟨b0, b1, b2, b3, b4, b5, b6, b7, b8, b9, b10, b11, b12, b13, b14, b15, rfl⟩

/-- The bytes are those of a range of its own. -/
def privateRange (bytes : List ℕ) : Prop :=
  bytes.all (· = 0) ∨ (bytes.take 15).all (· = 0) ∧ bytes.getD 15 0 = 1 ∨
    bytes.getD 0 0 = 0xfe ∧ bytes.getD 1 0 &&& 0xc0 = 0x80 ∨ bytes.getD 0 0 &&& 0xfe = 0xfc ∨
    bytes.getD 0 0 = 0xff ∨ bytes.getD 0 0 = 0 ∧ bytes.getD 1 0 = 0x64 ∧ bytes.getD 2 0 = 0xff ∧
      bytes.getD 3 0 = 0x9b ∧ bytes.getD 4 0 = 0 ∧ bytes.getD 5 0 = 1

theorem isPrivateBytes_eq : isPrivateBytes bytes = true ↔
    privateRange bytes ∨ (embeddedV4 bytes).any isPrivateV4 := by
  simp only [isPrivateBytes, privateRange, Bool.if_true_left, Bool.or_eq_true, decide_eq_true_eq,
    or_assoc]

theorem land_linkLocal : ∀ b < 256, (b &&& 0xc0 = 0x80 ↔ b / 64 = 2) := by
  decide +kernel

theorem land_uniqueLocal : ∀ b < 256, (b &&& 0xfe = 0xfc ↔ b / 2 = 0x7e) := by
  decide +kernel

theorem privateRange_iff (hlength : bytes.length = 16) (h : ∀ x ∈ bytes, x < 256) :
    privateRange bytes ↔ ∃ range ∈ privateV6Ranges,
      InRange 128 (ofBig 256 bytes) range.1 range.2 := by
  have hunspecified := inRange_take (v6 [0, 0, 0, 0, 0, 0, 0, 0])
    [0, 0, 0, 0, 0, 0, 0, 0, 0, 0, 0, 0, 0, 0, 0, 0] hlength h (by decide) (by decide) (by decide)
  have hloopback := inRange_take (v6 [0, 0, 0, 0, 0, 0, 0, 1])
    [0, 0, 0, 0, 0, 0, 0, 0, 0, 0, 0, 0, 0, 0, 0, 1] hlength h (by decide) (by decide) (by decide)
  have hmulticast := inRange_take (v6 [0xff00, 0, 0, 0, 0, 0, 0, 0]) [0xff] hlength h (by decide)
    (by decide) (by decide)
  have hlocalNat := inRange_take (v6 [0x64, 0xff9b, 1, 0, 0, 0, 0, 0]) [0, 0x64, 0xff, 0x9b, 0, 1]
    hlength h (by decide) (by decide) (by decide)
  have hlinkLocal : InRange 128 (ofBig 256 bytes) (v6 [0xfe80, 0, 0, 0, 0, 0, 0, 0]) 10 ↔
      ofBig 256 (bytes.take 2) / 64 = 0x3fa := by
    rw [InRange, show (2 : ℕ) ^ (128 - 10) = 256 ^ (16 - 2) * 64 by rfl, ← Nat.div_div_eq_div_mul,
      ofBig_div_take 2 hlength h]
    rfl
  have huniqueLocal : InRange 128 (ofBig 256 bytes) (v6 [0xfc00, 0, 0, 0, 0, 0, 0, 0]) 7 ↔
      ofBig 256 (bytes.take 1) / 2 = 0x7e := by
    rw [InRange, show (2 : ℕ) ^ (128 - 7) = 256 ^ (16 - 1) * 2 by rfl, ← Nat.div_div_eq_div_mul,
      ofBig_div_take 1 hlength h]
    rfl
  simp only [privateV6Ranges, List.exists_mem_cons_iff, List.not_mem_nil, false_and, exists_false,
    or_false]
  refine Iff.trans ?_ (or_congr hunspecified (or_congr hloopback (or_congr hlinkLocal
    (or_congr huniqueLocal (or_congr hmulticast hlocalNat))))).symm
  clear hunspecified hloopback hlinkLocal huniqueLocal hmulticast hlocalNat
  obtain ⟨b0, b1, b2, b3, b4, b5, b6, b7, b8, b9, b10, b11, b12, b13, b14, b15, rfl⟩ :=
    exists_bytes hlength
  refine or_congr (by simp) (or_congr (by simp [and_assoc]) (or_congr ?_ (or_congr ?_
    (or_congr (by simp) (by simp)))))
  · have h1 := h b1 (by simp)
    show b0 = 0xfe ∧ b1 &&& 0xc0 = 0x80 ↔ ofBig 256 [b0, b1] / 64 = 0x3fa
    rw [land_linkLocal b1 h1]
    simp [ofBig, Nat.ofDigits]
    omega
  · show b0 &&& 0xfe = 0xfc ↔ ofBig 256 [b0] / 2 = 0x7e
    rw [land_uniqueLocal b0 (h b0 (by simp))]
    simp [ofBig]

/-- The IPv4 that the bytes carry is the one that the address carries. -/
theorem carriesV4_iff (hlength : bytes.length = 16) (h : ∀ x ∈ bytes, x < 256) (v : ℕ) :
    CarriesV4 (ofBig 256 bytes) v ↔ ∃ quad, embeddedV4 bytes = some quad ∧ v = ofBig 256 quad := by
  have hcompatible := inRange_take (v6 [0, 0, 0, 0, 0, 0, 0, 0])
    [0, 0, 0, 0, 0, 0, 0, 0, 0, 0, 0, 0] hlength h (by decide) (by decide) (by decide)
  have hmapped := inRange_take (v6 [0, 0, 0, 0, 0, 0xffff, 0, 0])
    [0, 0, 0, 0, 0, 0, 0, 0, 0, 0, 0xff, 0xff] hlength h (by decide) (by decide) (by decide)
  have hsiit := inRange_take (v6 [0, 0, 0, 0, 0xffff, 0, 0, 0])
    [0, 0, 0, 0, 0, 0, 0, 0, 0xff, 0xff, 0, 0] hlength h (by decide) (by decide) (by decide)
  have hnat := inRange_take (v6 [0x64, 0xff9b, 0, 0, 0, 0, 0, 0])
    [0, 0x64, 0xff, 0x9b, 0, 0, 0, 0, 0, 0, 0, 0] hlength h (by decide) (by decide) (by decide)
  have hsixToFour := inRange_take (v6 [0x2002, 0, 0, 0, 0, 0, 0, 0]) [0x20, 0x02] hlength h
    (by decide) (by decide) (by decide)
  have hlast : ofBig 256 bytes % 2 ^ 32 = ofBig 256 ((bytes.take 16).drop 12) := by
    rw [List.take_of_length_le (by omega)]
    exact ofBig_mod_drop 12 hlength h
  have hmiddle : ofBig 256 bytes / 2 ^ 80 % 2 ^ 32 = ofBig 256 ((bytes.take 6).drop 2) := by
    have hdiv := ofBig_div_take 6 hlength h
    rw [show (2 : ℕ) ^ 80 = 256 ^ (16 - 6) by rfl, hdiv]
    exact ofBig_mod_drop 2 (by rw [List.length_take]; omega) fun x hx => h x (List.mem_of_mem_take hx)
  simp only [List.length_cons, List.length_nil, Nat.reduceAdd, Nat.reduceMul]
    at hcompatible hmapped hsiit hnat hsixToFour
  rw [CarriesV4, hlast, hmiddle]
  simp only [carryingRanges, List.exists_mem_cons_iff, List.not_mem_nil, false_and, exists_false,
    or_false, hcompatible, hmapped, hsiit, hnat, hsixToFour]
  clear hcompatible hmapped hsiit hnat hsixToFour hlast hmiddle h
  obtain ⟨b0, b1, b2, b3, b4, b5, b6, b7, b8, b9, b10, b11, b12, b13, b14, b15, rfl⟩ :=
    exists_bytes hlength
  simp only [embeddedV4, List.take_succ_cons, List.take_zero, List.drop_succ_cons, List.drop_zero,
    List.all_cons, List.all_nil, List.getD_cons_succ, List.getD_cons_zero, List.cons.injEq, and_true,
    Bool.and_true, Bool.and_eq_true, decide_eq_true_eq]
  split
  · next hzero =>
    simp [hzero]
  · split
    · next hff =>
      simp [hff]
    · split
      · next hshifted =>
        simp [hshifted]
      · split
        · next hwell =>
          simp [hwell]
        · split
          · next htwo =>
            simp [htwo]
          · simp only [reduceCtorEq, false_and, exists_false, iff_false]
            grind

theorem embeddedV4_quad {quad : List ℕ} (hlength : bytes.length = 16) (h : ∀ x ∈ bytes, x < 256)
    (hquad : embeddedV4 bytes = some quad) : quad.length = 4 ∧ ∀ x ∈ quad, x < 256 := by
  have hlast : ((bytes.take 16).drop 12).length = 4 ∧ ∀ x ∈ (bytes.take 16).drop 12, x < 256 := by
    refine ⟨?_, fun x hx => h x (List.mem_of_mem_take (List.mem_of_mem_drop hx))⟩
    rw [List.length_drop, List.length_take, hlength]
    rfl
  have hmiddle : ((bytes.take 6).drop 2).length = 4 ∧ ∀ x ∈ (bytes.take 6).drop 2, x < 256 := by
    refine ⟨?_, fun x hx => h x (List.mem_of_mem_take (List.mem_of_mem_drop hx))⟩
    rw [List.length_drop, List.length_take, hlength]
    rfl
  rw [embeddedV4] at hquad
  grind

/-- The checks on the bytes are the ones on the address. -/
theorem isPrivateBytes_iff (hlength : bytes.length = 16) (h : ∀ x ∈ bytes, x < 256) :
    isPrivateBytes bytes = true ↔ PrivateV6 (ofBig 256 bytes) := by
  rw [isPrivateBytes_eq, privateRange_iff hlength h, PrivateV6]
  refine or_congr_right ?_
  have hv4 : ∀ quad, embeddedV4 bytes = some quad →
      (isPrivateV4 quad = true ↔ PrivateV4 (ofBig 256 quad)) := by
    intro quad hquad
    obtain ⟨hfour, hbound⟩ := embeddedV4_quad hlength h hquad
    match quad, hfour with
    | [a, b, c, d], _ =>
      exact isPrivateV4_iff (hbound a (by simp)) (hbound b (by simp)) (hbound c (by simp))
        (hbound d (by simp))
  rw [Option.any_eq_true]
  constructor
  · rintro ⟨quad, hquad, hprivate⟩
    exact ⟨ofBig 256 quad, (carriesV4_iff hlength h _).2 ⟨quad, hquad, rfl⟩,
      (hv4 quad hquad).1 hprivate⟩
  · rintro ⟨v, hv, hprivate⟩
    obtain ⟨quad, hquad, rfl⟩ := (carriesV4_iff hlength h _).1 hv
    exact ⟨quad, hquad, (hv4 quad hquad).2 hprivate⟩

end Ranges

end Lynox.Network
