import Lynox.Egress.Policy
import Lynox.Text.Json

/-!
# The host of a URL

How `new URL` reads the host of `https://host/`, for a host of lower-case letters, digits, hyphens
and dots. A domain with a label that begins with `xn--` goes through `idna`, which stands for the
tables of IDNA, once each such label is read as Punycode; a host whose last label is a number is an
IPv4 address.
-/

namespace Lynox.Egress

open Text

/-! ## Punycode -/

namespace Punycode

def digitOf (u : UInt16) : Option Nat :=
  if isLower u then some (u.toNat - 0x61)
  else if isDigit u then some (u.toNat - 0x30 + 26)
  else none

/-- A digit below it is the last of its integer. -/
def threshold (bias k : Nat) : Nat :=
  min 26 (max 1 (k - bias))

/-- A generalized integer of variable length, added to `i`. -/
def readDelta (bias : Nat) : JsString → (k weight i : Nat) → Option (Nat × JsString)
  | [], _, _, _ => none
  | u :: input, k, weight, i =>
    match digitOf u with
    | none => none
    | some digit =>
      let t := threshold bias k
      if digit < t then some (i + digit * weight, input)
      else readDelta bias input (k + 36) (weight * (36 - t)) (i + digit * weight)

def adaptTail (delta k : Nat) : Nat :=
  if delta ≤ 455 then k + 36 * delta / (delta + 38) else adaptTail (delta / 35) (k + 36)
termination_by delta
decreasing_by omega

def adapt (delta size : Nat) (first : Bool) : Nat :=
  let delta := if first then delta / 700 else delta / 2
  adaptTail (delta + delta / size) 0

/-- Every integer inserts one code point. The fuel is the length of the input. -/
def insertAll : Nat → JsString → (n i bias : Nat) → (output : List Nat) → Option (List Nat)
  | _, [], _, _, _, output => some output
  | 0, _ :: _, _, _, _, _ => none
  | fuel + 1, input, n, i, bias, output =>
    match readDelta bias input 36 1 i with
    | none => none
    | some (j, rest) =>
      let size := output.length + 1
      let n := n + j / size
      if 0x10FFFF < n then none
      else
        insertAll fuel rest n (j % size + 1) (adapt (j - i) size (i == 0))
          (output.insertIdx (j % size) n)

/-- The code points of a label behind `xn--` : those before the last hyphen, and those inserted. -/
def decode (label : JsString) : Option (List Nat) :=
  match label.reverse.span (· ≠ 0x2D) with
  | (after, _ :: u :: before) =>
    insertAll label.length after.reverse 128 0 72 ((u :: before).reverse.map UInt16.toNat)
  | _ => insertAll label.length label 128 0 72 []

end Punycode

/-! ## Domains -/

def beginsXn (label : JsString) : Bool :=
  label.take 4 == utf16 "xn--"

/-- The ASCII form of a domain. -/
def domainToASCII (idna : JsString → Option JsString) (domain : JsString) : Option JsString :=
  let encoded := (labels domain).filter beginsXn
  if encoded = [] then some domain
  else if encoded.all fun label => (Punycode.decode (label.drop 4)).isSome then idna domain
  else none

/-! ## IPv4 addresses -/

/-- A number in some base. -/
def numberIn (base : Nat) (digit : UInt16 → Option Nat) (part : JsString) : Option Nat :=
  part.foldl (fun n u => n.bind fun n => (digit u).map (base * n + ·)) (some 0)

def digitBelow (base : Nat) (u : UInt16) : Option Nat :=
  let n := if isDigit u then u.toNat - 0x30 else if isLower u then u.toNat - 0x61 + 10 else base
  if n < base then some n else none

/-- A part of an IPv4 address : decimal, octal behind a zero, or hexadecimal behind `0x`. -/
def ipv4Number (part : JsString) : Option Nat :=
  if part = [] then none
  else if part.take 2 = utf16 "0x" then numberIn 16 (digitBelow 16) (part.drop 2)
  else if 2 ≤ part.length ∧ part.head? = some 0x30 then numberIn 8 (digitBelow 8) (part.drop 1)
  else numberIn 10 (digitBelow 10) part

/-- The labels of a host, without an empty last one. -/
def hostParts (host : JsString) : List JsString :=
  if (labels host).getLast? = some [] ∧ 1 < (labels host).length then (labels host).dropLast
  else labels host

def endsInNumber (host : JsString) : Bool :=
  (hostParts host).getLast?.any fun last =>
    (last ≠ [] && last.all isDigit) || (ipv4Number last).isSome

/-- The last of at most four numbers fills what the others leave. -/
def ipv4Of : List Nat → Option Nat
  | [d] => if d < 256 ^ 4 then some d else none
  | [a, d] => if a ≤ 255 ∧ d < 256 ^ 3 then some (a * 256 ^ 3 + d) else none
  | [a, b, d] => if a ≤ 255 ∧ b ≤ 255 ∧ d < 256 ^ 2 then some (a * 256 ^ 3 + b * 256 ^ 2 + d) else none
  | [a, b, c, d] =>
    if a ≤ 255 ∧ b ≤ 255 ∧ c ≤ 255 ∧ d < 256 then some (a * 256 ^ 3 + b * 256 ^ 2 + c * 256 + d)
    else none
  | _ => none

def ipv4Text (n : Nat) : JsString :=
  [0x2E].intercalate [shownDigits (n / 256 ^ 3 % 256), shownDigits (n / 256 ^ 2 % 256),
    shownDigits (n / 256 % 256), shownDigits (n % 256)]

/-- The host of `https://host/`, or none when it is not a URL. -/
def urlHostname (idna : JsString → Option JsString) (host : JsString) : Option JsString :=
  match domainToASCII idna host with
  | none => none
  | some domain =>
    if domain = [] then none
    else if endsInNumber domain then
      ((hostParts domain).mapM ipv4Number).bind fun numbers => (ipv4Of numbers).map ipv4Text
    else some domain

section Facts

variable {host part : JsString} {idna : JsString → Option JsString}

theorem domainToASCII_of_plain (h : ∀ label ∈ labels host, beginsXn label = false) :
    domainToASCII idna host = some host := by
  have hnone : (labels host).filter beginsXn = [] :=
    List.filter_eq_nil_iff.2 fun label hl => by simp [h label hl]
  unfold domainToASCII
  rw [hnone]
  rfl

theorem hostParts_of_ne_nil (h : ∀ label ∈ labels host, label ≠ []) :
    hostParts host = labels host := by
  unfold hostParts
  rw [if_neg]
  rintro ⟨hlast, _⟩
  exact h [] (List.mem_of_getLast? hlast) rfl

/-! ## Decimal numbers -/

theorem digit_bounds {u : UInt16} (h : isDigit u = true) : 48 ≤ u.toNat ∧ u.toNat ≤ 57 := by
  unfold isDigit at h
  have hu := of_decide_eq_true h
  rwa [UInt16.le_iff_toNat_le, UInt16.le_iff_toNat_le] at hu

theorem numberIn_ten (h : part.all isDigit = true) :
    numberIn 10 (digitBelow 10) part = some (numberOf part) := by
  have hfold : ∀ (part : JsString) (n : Nat), part.all isDigit = true →
      part.foldl (fun n u => n.bind fun n => (digitBelow 10 u).map (10 * n + ·)) (some n) =
        some (part.foldl (fun n u => 10 * n + (u.toNat - 0x30)) n) := by
    intro part
    induction part with
    | nil => exact fun _ _ => rfl
    | cons u part ih =>
      intro n hall
      obtain ⟨hu, hall⟩ := Bool.and_eq_true_iff.1 hall
      have hbounds := digit_bounds hu
      have hdigit : digitBelow 10 u = some (u.toNat - 0x30) := by
        unfold digitBelow
        dsimp only
        rw [if_pos hu, if_pos (by omega)]
      rw [List.foldl_cons, List.foldl_cons, hdigit]
      exact ih _ hall
  exact hfold part 0 h

/-- A number that is written without a leading zero is shown as it is written. -/
theorem shownDigits_numberOf (hne : part ≠ []) (hdigits : part.all isDigit = true)
    (hlead : part.length = 1 ∨ part.head? ≠ some 0x30) : shownDigits (numberOf part) = part := by
  have hvalue : numberOf part = Nat.ofDigits 10 (part.reverse.map fun u => u.toNat - 0x30) := by
    rw [numberOf, ← List.foldr_reverse]
    induction part.reverse with
    | nil => rfl
    | cons u l ih =>
      rw [List.foldr_cons, ih, List.map_cons, Nat.ofDigits_cons]
      ring
  have hback : ∀ l : JsString, (∀ u ∈ l, isDigit u = true) →
      (l.map fun u => u.toNat - 0x30).map digit = l := by
    intro l hl
    rw [List.map_map]
    refine (List.map_congr_left fun u hu => ?_).trans (List.map_id l)
    have hbounds := digit_bounds (hl u hu)
    show UInt16.ofNat (0x30 + (u.toNat - 0x30)) = u
    rw [Nat.add_sub_cancel' hbounds.1, UInt16.ofNat_toNat]
  have hall : ∀ u ∈ part, isDigit u = true := List.all_eq_true.1 hdigits
  by_cases hpart : part = [0x30]
  · rw [hpart]
    rfl
  · have hhead : part.head? ≠ some 0x30 := by
      rcases hlead with hone | hhead
      · intro hhead
        obtain ⟨u, rfl⟩ := List.length_eq_one_iff.1 hone
        exact hpart (congrArg (fun u => [u]) (Option.some.inj hhead))
      · exact hhead
    have hdigits' : Nat.digits 10 (numberOf part) = part.reverse.map fun u => u.toNat - 0x30 := by
      rw [hvalue, Nat.digits_ofDigits 10 (by omega)]
      · intro d hd
        obtain ⟨u, hu, rfl⟩ := List.mem_map.1 hd
        have hbounds := digit_bounds (hall u (List.mem_reverse.1 hu))
        omega
      · intro hne'
        rw [List.getLast_map, List.getLast_reverse]
        intro hzero
        have hbounds := digit_bounds (hall _ (List.head_mem hne))
        refine hhead ?_
        rw [List.head?_eq_some_head hne]
        exact congrArg some (UInt16.toNat.inj (show (part.head hne).toNat = 48 by omega))
    have hnonzero : numberOf part ≠ 0 := by
      intro hzero
      rw [hzero, Nat.digits_zero] at hdigits'
      exact hne (List.reverse_eq_nil_iff.1 (List.map_eq_nil_iff.1 hdigits'.symm))
    rw [shownDigits, if_neg hnonzero, digits, hdigits', ← List.map_reverse, List.reverse_reverse]
    exact hback part hall

/-! ## Hosts that are read as they are written -/

theorem isOctet_spec (h : isOctet part = true) : part ≠ [] ∧ part.all isDigit = true ∧
    numberOf part ≤ 255 ∧ (part.length = 1 ∨ part.head? ≠ some 0x30) := by
  unfold isOctet at h
  simp only [Bool.and_eq_true, Bool.or_eq_true, decide_eq_true_eq, beq_iff_eq, bne_iff_ne] at h
  obtain ⟨⟨⟨⟨hne, _⟩, hdigits⟩, hle⟩, hlead⟩ := h
  exact ⟨hne, hdigits, hle, hlead⟩

theorem ipv4Number_of_octet (h : isOctet part = true) : ipv4Number part = some (numberOf part) := by
  obtain ⟨hne, hdigits, _, hlead⟩ := isOctet_spec h
  have hhex : part.take 2 ≠ utf16 "0x" := by
    intro htake
    have hmem : (0x78 : UInt16) ∈ part :=
      List.mem_of_mem_take (htake ▸ (by decide : (0x78 : UInt16) ∈ utf16 "0x"))
    exact absurd (List.all_eq_true.1 hdigits _ hmem) (by decide)
  unfold ipv4Number
  rw [if_neg hne, if_neg hhex, if_neg, numberIn_ten hdigits]
  rintro ⟨hlength, hzero⟩
  rcases hlead with hone | hhead
  · omega
  · exact hhead hzero

/-- The octets of an address are shown as they were read. -/
theorem ipv4Text_of {a b c d : Nat} (ha : a ≤ 255) (hb : b ≤ 255) (hc : c ≤ 255) (hd : d ≤ 255) :
    ipv4Text (a * 256 ^ 3 + b * 256 ^ 2 + c * 256 + d) =
      [0x2E].intercalate [shownDigits a, shownDigits b, shownDigits c, shownDigits d] := by
  unfold ipv4Text
  rw [show (a * 256 ^ 3 + b * 256 ^ 2 + c * 256 + d) / 256 ^ 3 % 256 = a by omega,
    show (a * 256 ^ 3 + b * 256 ^ 2 + c * 256 + d) / 256 ^ 2 % 256 = b by omega,
    show (a * 256 ^ 3 + b * 256 ^ 2 + c * 256 + d) / 256 % 256 = c by omega,
    show (a * 256 ^ 3 + b * 256 ^ 2 + c * 256 + d) % 256 = d by omega]

theorem beginsXn_of_digits (h : part.all isDigit = true) : beginsXn part = false := by
  unfold beginsXn
  rw [beq_eq_false_iff_ne]
  intro htake
  have hmem : (0x78 : UInt16) ∈ part :=
    List.mem_of_mem_take (htake ▸ (by decide : (0x78 : UInt16) ∈ utf16 "xn--"))
  exact absurd (List.all_eq_true.1 h _ hmem) (by decide)

theorem urlHostname_of_ipv4 (h : isIPv4 host = true) : urlHostname idna host = some host := by
  unfold isIPv4 at h
  obtain ⟨hlength, hoctets⟩ := Bool.and_eq_true_iff.1 h
  have hoctet : ∀ label ∈ labels host, isOctet label = true := List.all_eq_true.1 hoctets
  have hne : ∀ label ∈ labels host, label ≠ [] := fun label hl => (isOctet_spec (hoctet label hl)).1
  obtain ⟨a, b, c, d, hlabels⟩ := List.length_eq_four.1 (beq_iff_eq.1 hlength)
  have hparts := hostParts_of_ne_nil hne
  rw [hlabels] at hoctet hparts
  have ha := isOctet_spec (hoctet a (by simp))
  have hb := isOctet_spec (hoctet b (by simp))
  have hc := isOctet_spec (hoctet c (by simp))
  have hd := isOctet_spec (hoctet d (by simp))
  have hhost : host ≠ [] := by
    rintro rfl
    cases hlabels
  have hback : [0x2E].intercalate [a, b, c, d] = host := by
    rw [← hlabels]
    exact List.intercalate_splitOn 0x2E
  unfold urlHostname
  rw [domainToASCII_of_plain]
  · have hends : endsInNumber host = true := by
      unfold endsInNumber
      rw [hparts]
      show (decide (d ≠ []) && d.all isDigit || (ipv4Number d).isSome) = true
      rw [ipv4Number_of_octet (hoctet d (by simp))]
      simp
    have hnumbers : [a, b, c, d].mapM ipv4Number =
        some [numberOf a, numberOf b, numberOf c, numberOf d] := by
      simp [List.mapM_cons, ipv4Number_of_octet (hoctet a (by simp)),
        ipv4Number_of_octet (hoctet b (by simp)), ipv4Number_of_octet (hoctet c (by simp)),
        ipv4Number_of_octet (hoctet d (by simp))]
    dsimp only
    rw [if_neg hhost, if_pos hends, hparts, hnumbers]
    show (ipv4Of _).map ipv4Text = some host
    have hlast : numberOf d < 256 := Nat.lt_succ_of_le hd.2.2.1
    rw [ipv4Of, if_pos ⟨ha.2.2.1, hb.2.2.1, hc.2.2.1, hlast⟩, Option.map_some,
      ipv4Text_of ha.2.2.1 hb.2.2.1 hc.2.2.1 hd.2.2.1,
      shownDigits_numberOf ha.1 ha.2.1 ha.2.2.2, shownDigits_numberOf hb.1 hb.2.1 hb.2.2.2,
      shownDigits_numberOf hc.1 hc.2.1 hc.2.2.2, shownDigits_numberOf hd.1 hd.2.1 hd.2.2.2, hback]
  · intro label hl
    rw [hlabels] at hl
    exact beginsXn_of_digits (isOctet_spec (hoctet label hl)).2.1

/-- A number is written in digits. -/
theorem numberIn_digits {base : Nat} {digit : UInt16 → Option Nat}
    (h : (numberIn base digit part).isSome = true) : ∀ u ∈ part, (digit u).isSome = true := by
  have hnone : ∀ part : JsString, part.foldl
      (fun n u => n.bind fun n => (digit u).map (base * n + ·)) (none : Option Nat) = none := by
    intro part
    induction part with
    | nil => rfl
    | cons u part ih => exact ih
  have hfold : ∀ (part : JsString) (n : Option Nat), (part.foldl
      (fun n u => n.bind fun n => (digit u).map (base * n + ·)) n).isSome = true →
        ∀ u ∈ part, (digit u).isSome = true := by
    intro part
    induction part with
    | nil => exact fun _ _ => nofun
    | cons v part ih =>
      intro n hsome u hu
      rcases List.mem_cons.1 hu with rfl | hu
      · by_contra hv
        rw [List.foldl_cons, Option.not_isSome_iff_eq_none.1 hv] at hsome
        cases n with
        | none =>
          rw [Option.bind_none, hnone] at hsome
          cases hsome
        | some n =>
          rw [Option.bind_some, Option.map_none, hnone] at hsome
          cases hsome
      · exact ih _ hsome u hu
  exact hfold part _ h

theorem digitBelow_isSome {base : Nat} (hbase : base ≤ 16) {u : UInt16}
    (h : (digitBelow base u).isSome = true) :
    isDigit u = true ∨ 10 < base ∧ 0x61 ≤ u ∧ u ≤ 0x66 := by
  unfold digitBelow at h
  dsimp only at h
  by_cases hdigit : isDigit u = true
  · exact .inl hdigit
  · rw [if_neg hdigit] at h
    by_cases hlower : isLower u = true
    · rw [if_pos hlower] at h
      unfold isLower at hlower
      obtain ⟨hlow, _⟩ := of_decide_eq_true hlower
      have hlow' : 97 ≤ u.toNat := UInt16.le_iff_toNat_le.1 hlow
      split at h
      · refine .inr ⟨by omega, hlow, UInt16.le_iff_toNat_le.2 ?_⟩
        show u.toNat ≤ 102
        omega
      · cases h
    · rw [if_neg hlower, if_neg (lt_irrefl base)] at h
      cases h

/-- A label that the resolver does not read as a number is none for a URL. -/
theorem notNumber_of (h : isNumberLabel part = false) :
    (part ≠ [] && part.all isDigit || (ipv4Number part).isSome) = false := by
  unfold isNumberLabel at h
  obtain ⟨hdigits, hhex⟩ := Bool.or_eq_false_iff.1 h
  rw [hdigits, Bool.false_or, Bool.eq_false_iff]
  intro hsome
  unfold ipv4Number at hsome
  split at hsome
  · cases hsome
  · next hne =>
    have hnot : part.all isDigit ≠ true := by simpa [hne] using hdigits
    split at hsome
    · next htake =>
      rw [htake, beq_self_eq_true, Bool.true_and] at hhex
      refine Bool.eq_false_iff.1 hhex (List.all_eq_true.2 fun u hu => ?_)
      rcases digitBelow_isSome le_rfl (numberIn_digits hsome u hu) with hu | ⟨_, hlow, hhigh⟩
      · rw [hu, Bool.true_or]
      · simp [hlow, hhigh]
    · split at hsome
      · next hzero =>
        refine hnot (List.all_eq_true.2 fun u hu => ?_)
        obtain ⟨_, hhead⟩ := hzero
        cases part with
        | nil => cases hhead
        | cons v rest =>
          obtain rfl := Option.some.inj hhead
          rcases List.mem_cons.1 hu with rfl | hu
          · decide
          · rcases digitBelow_isSome (by omega) (numberIn_digits hsome u hu) with hu | ⟨hbase, _⟩
            · exact hu
            · omega
      · refine hnot (List.all_eq_true.2 fun u hu => ?_)
        rcases digitBelow_isSome (by omega) (numberIn_digits hsome u hu) with hu | ⟨hbase, _⟩
        · exact hu
        · omega

/-- A name that is no number is read as it is written, unless a label begins with `xn--`. -/
theorem urlHostname_of_name (h : isExactHostname host = true)
    (hplain : ∀ label ∈ labels host, beginsXn label = false) : urlHostname idna host = some host := by
  unfold isExactHostname at h
  simp only [Bool.and_eq_true, decide_eq_true_eq, Bool.not_eq_true'] at h
  obtain ⟨⟨⟨hlength, _⟩, hlabels⟩, hlast⟩ := h
  have hne : ∀ label ∈ labels host, label ≠ [] := by
    rintro label hl rfl
    exact absurd (List.all_eq_true.1 hlabels _ hl) (by decide)
  have hends : endsInNumber host = false := by
    unfold endsInNumber
    rw [hostParts_of_ne_nil hne]
    cases hlast' : (labels host).getLast? with
    | none => rfl
    | some last =>
      rw [hlast'] at hlast
      exact notNumber_of hlast
  unfold urlHostname
  rw [domainToASCII_of_plain hplain]
  dsimp only
  rw [if_neg, if_neg (by simp [hends])]
  rintro rfl
  exact absurd hlength (by decide)

end Facts

end Lynox.Egress
