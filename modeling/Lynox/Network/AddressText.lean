import Lynox.Network.PrivateIP

/-!
# The texts of an address

Every text of an address is read to the bytes of the address. Lower case and the zone come off first,
then a dotted end becomes two groups, and the groups around a double colon give their bytes.
-/

namespace Lynox.Network

open Text
open Egress (splitLastColon v4Octets isPrivateV4 numberOf)

/-! ## Groups -/

section Groups

variable {u : UInt16} {g : JsString} {n value : ℕ} {gs : List JsString} {values : List ℕ}

/-- The two bytes of a group's value. -/
def groupBytes (value : ℕ) : List ℕ :=
  [value / 256, value % 256]

/-- A group as the reader takes it. -/
structure Reads (g : JsString) (value : ℕ) : Prop where
  ne_nil : g ≠ []
  noColon : 0x3A ∉ g
  noDot : 0x2E ∉ g
  parse : parseGroup g = some (groupBytes value)
  small : value < 65536

theorem hexVal_lowerAscii (h : hexVal u = some n) :
    hexVal (lowerAscii u) = some n ∧ isLowerHex (lowerAscii u) = true ∧ n < 16 := by
  have hu := u.toNat_lt
  have hlower : (lowerAscii u).toNat =
      if 0x41 ≤ u.toNat ∧ u.toNat ≤ 0x5A then u.toNat + 0x20 else u.toNat := by
    unfold lowerAscii
    split
    · rw [UInt16.toNat_add]
      simp
      omega
    · rfl
  unfold hexVal at h ⊢
  simp only [isLowerHex, Egress.isDigit, UInt16.le_iff_toNat_le, Bool.or_eq_true, Bool.and_eq_true,
    decide_eq_true_eq, hlower]
  simp
  grind

theorem parseHex_eq (digits : List ℕ) (h : g.mapM hexVal = some digits) :
    parseHex g = ofBig 16 digits := by
  have hfold : ∀ {g : JsString} {digits : List ℕ} (n : ℕ), g.mapM hexVal = some digits →
      g.foldl (fun n u => 16 * n + (hexVal u).getD 0) n = ofBig 16 (n :: digits) := by
    intro g
    induction g with
    | nil =>
      intro digits n h
      cases h
      simp [ofBig]
    | cons u g ih =>
      intro digits n h
      simp only [List.mapM_cons, Option.pure_def, Option.bind_eq_bind, Option.bind_eq_some_iff,
        Option.some.injEq] at h
      obtain ⟨d, hd, ds, hds, rfl⟩ := h
      rw [List.foldl_cons, ih _ hds, hd]
      rw [show n :: d :: ds = [n, d] ++ ds from rfl, ofBig_append,
        show (16 * n + (some d).getD 0) :: ds = [16 * n + d] ++ ds from rfl, ofBig_append]
      simp [ofBig, Nat.ofDigits]
      ring
  have hzero : ofBig 16 (0 :: digits) = ofBig 16 digits := by
    simp [ofBig, Nat.ofDigits_append]
  rw [parseHex, hfold 0 h, hzero]

theorem mapM_lowerAscii : ∀ {g : JsString} {digits : List ℕ}, g.mapM hexVal = some digits →
    (g.map lowerAscii).mapM hexVal = some digits ∧ (g.map lowerAscii).all isLowerHex = true ∧
      (∀ d ∈ digits, d < 16) ∧ digits.length = g.length
  | [], digits, h => by
    cases h
    simp
  | u :: g, digits, h => by
    simp only [List.mapM_cons, Option.pure_def, Option.bind_eq_bind, Option.bind_eq_some_iff,
      Option.some.injEq] at h
    obtain ⟨d, hd, ds, hds, rfl⟩ := h
    obtain ⟨hval, hhex, hlt⟩ := hexVal_lowerAscii hd
    obtain ⟨hvals, hhexs, hlts, hlength⟩ := mapM_lowerAscii hds
    refine ⟨?_, ?_, List.forall_mem_cons.2 ⟨hlt, hlts⟩, by simp [hlength]⟩
    · simp [hval, hvals]
    · rw [List.map_cons, List.all_cons, hhex, hhexs]
      rfl

/-- A group of either case is read. -/
theorem reads_of_isGroup (h : IsGroup g value) : Reads (g.map lowerAscii) value := by
  obtain ⟨hne, hlength, digits, hdigits, rfl⟩ := h
  obtain ⟨hvals, hhex, hlt, hcount⟩ := mapM_lowerAscii hdigits
  have hnot : ∀ u, isLowerHex u = false → u ∉ g.map lowerAscii := fun u hu hmem => by
    rw [List.all_eq_true.1 hhex u hmem] at hu
    cases hu
  have hsmall : ofBig 16 digits < 65536 := by
    refine (ofBig_lt (by decide) hlt).trans_le ?_
    calc 16 ^ digits.length ≤ 16 ^ 4 := Nat.pow_le_pow_right (by decide) (by omega)
      _ = 65536 := rfl
  refine ⟨by simpa using hne, hnot _ (by decide), hnot _ (by decide), ?_, hsmall⟩
  have hpos : 1 ≤ g.length := List.length_pos_of_ne_nil hne
  have hand : ∀ m : ℕ, m &&& 255 = m % 256 := fun m => Nat.and_two_pow_sub_one_eq_mod m 8
  rw [parseGroup, if_pos (by rw [List.length_map]; exact ⟨hpos, hlength, hhex⟩),
    parseHex_eq digits hvals]
  simp only [hand, Nat.shiftRight_eq_div_pow, groupBytes]
  rw [Nat.mod_eq_of_lt (a := ofBig 16 digits / 2 ^ 8) (by omega)]

/-- The digits of a number are read back. -/
theorem reads_toString16 (h : n < 65536) : Reads (toString16 n) n := by
  have hgroup : IsGroup (toString16 n) n ∧ (toString16 n).map lowerAscii = toString16 n := by
    unfold toString16
    split
    · next hzero =>
      subst hzero
      exact ⟨⟨by decide, by decide, [0], rfl, rfl⟩, rfl⟩
    · next hzero =>
      have hlt : ∀ d ∈ (Nat.digits 16 n).reverse, d < 16 := fun d hd =>
        Nat.digits_lt_base (by decide) (List.mem_reverse.1 hd)
      have hback : ∀ ds : List ℕ, (∀ d ∈ ds, d < 16) →
          (ds.map hexDigit).mapM hexVal = some ds ∧
            (ds.map hexDigit).map lowerAscii = ds.map hexDigit := by
        intro ds
        induction ds with
        | nil => exact fun _ => ⟨rfl, rfl⟩
        | cons d ds ih =>
          intro hds
          rw [List.forall_mem_cons] at hds
          have hdigit : lowerAscii (hexDigit d) = hexDigit d := by
            have hnat := toNat_hexDigit hds.1
            unfold lowerAscii
            rw [if_neg (by split at hnat <;> omega)]
          refine ⟨?_, by simp [hdigit, (ih hds.2).2]⟩
          simp [hexVal_hexDigit hds.1, (ih hds.2).1]
      refine ⟨⟨?_, ?_, _, (hback _ hlt).1, ?_⟩, (hback _ hlt).2⟩
      · simpa [Nat.digits_eq_nil_iff_eq_zero] using hzero
      · rw [List.length_map, List.length_reverse, Nat.digits_length_le_iff (by decide)]
        exact h
      · rw [ofBig, List.reverse_reverse, Nat.ofDigits_digits]
  have hreads := reads_of_isGroup hgroup.1
  rwa [hgroup.2] at hreads

theorem mapM_reads (h : List.Forall₂ Reads gs values) :
    gs.mapM parseGroup = some (values.map groupBytes) := by
  induction h with
  | nil => rfl
  | cons hg _ ih => simp [hg.parse, ih]

/-- Groups between colons give their bytes. -/
theorem parseGroups_joinColon (h : List.Forall₂ Reads gs values) :
    parseGroups (joinColon gs) = some (values.flatMap groupBytes) := by
  cases h with
  | nil => rfl
  | @cons g value gs values hg hgs =>
    have hne : joinColon (g :: gs) ≠ [] := by
      cases hg' : g with
      | nil => exact absurd hg' hg.ne_nil
      | cons u g => cases gs <;> simp [joinColon]
    have hall : List.Forall₂ Reads (g :: gs) (value :: values) := .cons hg hgs
    have hcolon : ∀ part ∈ g :: gs, 0x3A ∉ part := by
      intro part hpart
      obtain ⟨i, hi, rfl⟩ := List.getElem_of_mem hpart
      exact (hall.get hi (hall.length_eq ▸ hi)).noColon
    rw [parseGroups, if_neg hne, joinColon, List.splitOn_intercalate _ hcolon (by simp),
      mapM_reads hall, List.flatMap_def]
    rfl

end Groups

/-! ## Double colons -/

section Double

variable {u v : UInt16} {g s : JsString} {gs : List JsString} {values : List ℕ}

/-- The units before the first part. -/
def before (g : JsString) : List JsString → List JsString
  | [] => [g]
  | part :: parts => (g ++ part) :: parts

theorem splitDouble_ne_nil : ∀ s, splitDouble s ≠ []
  | [] => by simp [splitDouble]
  | [u] => by simp [splitDouble]
  | u :: v :: s => by
    rw [splitDouble]
    split
    · exact List.cons_ne_nil _ _
    · split <;> exact List.cons_ne_nil _ _

/-- A unit that opens no double colon. -/
theorem splitDouble_cons (h : u = 0x3A → s.head? ≠ some 0x3A) :
    splitDouble (u :: s) = before [u] (splitDouble s) := by
  cases s with
  | nil => rfl
  | cons v s =>
    have hnot : ¬(u = 0x3A ∧ v = 0x3A) := fun ⟨hu, hv⟩ => h hu (by rw [hv]; rfl)
    rw [splitDouble, if_neg hnot]
    cases hsplit : splitDouble (v :: s) with
    | nil => exact absurd hsplit (splitDouble_ne_nil _)
    | cons part parts => rfl

theorem before_append {parts : List JsString} (h : parts ≠ []) :
    before (g ++ s) parts = before g (before s parts) := by
  cases parts with
  | nil => exact absurd rfl h
  | cons part parts => simp [before]

theorem before_nil {parts : List JsString} (h : parts ≠ []) : before [] parts = parts := by
  cases parts with
  | nil => exact absurd rfl h
  | cons part parts => rfl

theorem splitDouble_append : ∀ {g : JsString}, 0x3A ∉ g →
    splitDouble (g ++ s) = before g (splitDouble s)
  | [], _ => (before_nil (splitDouble_ne_nil s)).symm
  | u :: g, h => by
    rw [List.mem_cons, not_or] at h
    rw [List.cons_append, splitDouble_cons fun hu => absurd hu.symm h.1, splitDouble_append h.2,
      ← List.singleton_append (l := g), before_append (splitDouble_ne_nil s)]

/-- Groups between colons hold no double colon. -/
theorem splitDouble_joinColon (h : List.Forall₂ Reads gs values) :
    splitDouble (joinColon gs ++ s) = before (joinColon gs) (splitDouble s) := by
  induction h with
  | nil => exact (before_nil (splitDouble_ne_nil s)).symm
  | @cons g value gs values hg hgs ih =>
    cases hgs with
    | nil =>
      rw [joinColon, List.intercalate_singleton]
      exact splitDouble_append hg.noColon
    | @cons g' value' gs values hg' hgs =>
      have hjoin : joinColon (g :: g' :: gs) = g ++ 0x3A :: joinColon (g' :: gs) := by
        simp [joinColon]
      have hhead : (joinColon (g' :: gs) ++ s).head? ≠ some 0x3A := by
        have hcolon := hg'.noColon
        cases hfirst : g' with
        | nil => exact absurd hfirst hg'.ne_nil
        | cons u g'' =>
          rw [hfirst, List.mem_cons, not_or] at hcolon
          cases gs <;> simpa [joinColon] using fun hu : u = 0x3A => hcolon.1 hu.symm
      rw [hjoin, List.append_assoc, List.cons_append, splitDouble_append hg.noColon,
        splitDouble_cons fun _ => hhead, ih, ← before_append (splitDouble_ne_nil s),
        ← before_append (splitDouble_ne_nil s)]
      simp

end Double

/-! ## Plain texts -/

section Plain

variable {u : UInt16} {s x y body addr : JsString} {parts gs : List JsString} {values : List ℕ}
  {quad : JsString} {octets : List ℕ} {a b c d : ℕ}

/-- A text in lower case without a zone and without a dotted end. -/
inductive Plain : JsString → List ℕ → Prop
  | full {gs : List JsString} {values : List ℕ} (h : List.Forall₂ Reads gs values)
    (hlength : values.length = 8) : Plain (joinColon gs) values
  | compressed {front behind : List JsString} {before after : List ℕ}
    (hfront : List.Forall₂ Reads front before) (hbehind : List.Forall₂ Reads behind after)
    (hlength : before.length + after.length < 8) :
    Plain (joinColon front ++ 0x3A :: 0x3A :: joinColon behind)
      (before ++ List.replicate (8 - before.length - after.length) 0 ++ after)

theorem flatMap_groupBytes_length (values : List ℕ) :
    (values.flatMap groupBytes).length = 2 * values.length := by
  simp [groupBytes, List.length_flatMap, Nat.mul_comm]

/-- The bytes of a plain text. -/
theorem ipv6ToBytes_of_plain (hs : unquad (addr.takeWhile (· ≠ 0x25)) = some s)
    (h : Plain s values) : ipv6ToBytes addr = some (values.flatMap groupBytes) := by
  cases h with
  | @full gs values h hlength =>
    have hsplit := splitDouble_joinColon (s := []) h
    rw [List.append_nil] at hsplit
    have hbytes : (values.flatMap groupBytes).length = 16 := by
      rw [flatMap_groupBytes_length, hlength]
    rw [ipv6ToBytes, hs]
    simp [hsplit, splitDouble, before, parseGroups_joinColon h, hbytes]
  | @compressed front behind before' after hfront hbehind hlength =>
    have hlast := splitDouble_joinColon (s := []) hbehind
    rw [List.append_nil] at hlast
    have hsplit : splitDouble (joinColon front ++ 0x3A :: 0x3A :: joinColon behind) =
        [joinColon front, joinColon behind] := by
      rw [splitDouble_joinColon hfront, splitDouble, if_pos ⟨rfl, rfl⟩, hlast]
      simp [splitDouble, before]
    have hzeros : ∀ n : ℕ, (List.replicate n 0).flatMap groupBytes = List.replicate (2 * n) 0 := by
      intro n
      induction n with
      | zero => rfl
      | succ n ih =>
        rw [List.replicate_succ, List.flatMap_cons, ih]
        rfl
    have hfill : 16 - 2 * before'.length - 2 * after.length =
        2 * (8 - before'.length - after.length) := by omega
    have hfits : ¬16 < 2 * before'.length + 2 * after.length := by omega
    rw [ipv6ToBytes, hs]
    simp only [Option.bind_eq_bind, Option.bind_some, hsplit, parseGroups_joinColon hfront,
      parseGroups_joinColon hbehind, flatMap_groupBytes_length]
    rw [if_neg hfits, hfill, List.flatMap_append, List.flatMap_append, hzeros]

theorem values_small (h : List.Forall₂ Reads gs values) : ∀ value ∈ values, value < 65536 := by
  intro value hvalue
  obtain ⟨i, hi, rfl⟩ := List.getElem_of_mem hvalue
  exact (h.get (h.length_eq ▸ hi) hi).small

/-- Eight groups of 16 bits. -/
theorem Plain.groups (h : Plain s values) :
    values.length = 8 ∧ ∀ value ∈ values, value < 65536 := by
  cases h with
  | full h hlength => exact ⟨hlength, values_small h⟩
  | compressed hfront hbehind hlength =>
    refine ⟨by simp; omega, ?_⟩
    intro value hvalue
    rw [List.mem_append, List.mem_append, List.mem_replicate] at hvalue
    rcases hvalue with (hvalue | hvalue) | hvalue
    · exact values_small hfront value hvalue
    · rw [hvalue.2]
      decide
    · exact values_small hbehind value hvalue

/-! ## The dotted end -/

theorem mem_intercalate {sep : UInt16} : ∀ {parts : List JsString}, u ∈ [sep].intercalate parts →
    u = sep ∨ ∃ part ∈ parts, u ∈ part
  | [], h => by simp at h
  | [part], h => by
    rw [List.intercalate_singleton] at h
    exact .inr ⟨part, by simp, h⟩
  | part :: part' :: parts, h => by
    rw [List.intercalate_cons_cons, List.append_assoc, List.mem_append, List.mem_append] at h
    rcases h with h | h | h
    · exact .inr ⟨part, by simp, h⟩
    · exact .inl (List.mem_singleton.1 h)
    · rcases mem_intercalate h with h | ⟨p, hp, hu⟩
      · exact .inl h
      · exact .inr ⟨p, List.mem_cons_of_mem _ hp, hu⟩

theorem joinColon_cons {part : JsString} (h : gs ≠ []) :
    joinColon (part :: gs) = part ++ 0x3A :: joinColon gs := by
  rw [joinColon, List.intercalate_cons_of_ne_nil h, List.append_assoc]
  rfl

theorem joinColon_append : ∀ {parts : List JsString}, parts ≠ [] → gs ≠ [] →
    joinColon (parts ++ gs) = joinColon parts ++ 0x3A :: joinColon gs
  | [], h, _ => absurd rfl h
  | [part], _, h => by
    rw [List.singleton_append, joinColon_cons h]
    simp [joinColon]
  | part :: part' :: parts, _, h => by
    have ih := joinColon_append (List.cons_ne_nil part' parts) h
    rw [List.cons_append, joinColon_cons (by simp), ih, joinColon_cons (List.cons_ne_nil _ _)]
    simp

theorem map_joinColon : ∀ parts : List JsString,
    (joinColon parts).map lowerAscii = joinColon (parts.map (List.map lowerAscii))
  | [] => rfl
  | [part] => by simp [joinColon]
  | part :: part' :: parts => by
    rw [joinColon_cons (List.cons_ne_nil _ _), List.map_append, List.map_cons,
      map_joinColon (part' :: parts)]
    exact (joinColon_cons (List.cons_ne_nil _ _)).symm

theorem splitLastColon_append (h : 0x3A ∉ y) : splitLastColon (x ++ 0x3A :: y) = some (x, y) := by
  have hall : ∀ u ∈ y.reverse, decide (u ≠ 0x3A) = true := fun u hu =>
    decide_eq_true fun hcolon => h (hcolon ▸ List.mem_reverse.1 hu)
  rw [splitLastColon, List.reverse_append, List.reverse_cons, List.append_assoc,
    List.span_eq_takeWhile_dropWhile, List.takeWhile_append_of_pos hall,
    List.dropWhile_append_of_pos hall]
  simp

/-- A text that ends in groups stays. -/
theorem unquad_of_groups (hcolon : 0x3A ∈ s) (hdot : 0x2E ∉ s) : unquad s = some s := by
  obtain ⟨y, x, hs, hy⟩ := List.eq_append_cons_of_mem (List.mem_reverse.2 hcolon)
  have hs' : s = x.reverse ++ 0x3A :: y.reverse := by
    have hreverse := congrArg List.reverse hs
    simpa using hreverse
  have hquad : 0x2E ∉ y.reverse := fun h => hdot (by rw [hs']; simp [h])
  rw [unquad, hs', splitLastColon_append (by simpa using hy)]
  simp [hquad]

theorem isOctetText_units {part : JsString} {value : ℕ} (h : IsOctetText part value) :
    ∀ u ∈ part, 0x30 ≤ u.toNat ∧ u.toNat ≤ 0x39 := by
  intro u hu
  have hdigit := List.all_eq_true.1 h.2.2.1 u hu
  simpa [Egress.isDigit, UInt16.le_iff_toNat_le] using hdigit

theorem mem_of_isOctetText {part : JsString} (h : List.Forall₂ IsOctetText parts octets)
    (hpart : part ∈ parts) : ∃ value ∈ octets, IsOctetText part value := by
  obtain ⟨i, hi, rfl⟩ := List.getElem_of_mem hpart
  exact ⟨octets.get ⟨i, h.length_eq ▸ hi⟩, List.getElem_mem _, h.get hi (h.length_eq ▸ hi)⟩

theorem isDotted_units (h : IsDotted quad octets) :
    ∀ u ∈ quad, u.toNat = 0x2E ∨ 0x30 ≤ u.toNat ∧ u.toNat ≤ 0x39 := by
  obtain ⟨-, parts, rfl, hparts⟩ := h
  intro u hu
  rcases mem_intercalate hu with rfl | ⟨part, hpart, hu⟩
  · exact .inl rfl
  · obtain ⟨value, -, hvalue⟩ := mem_of_isOctetText hparts hpart
    exact .inr (isOctetText_units hvalue u hu)

theorem map_numberOf (h : List.Forall₂ IsOctetText parts octets) : parts.map numberOf = octets := by
  induction h with
  | nil => rfl
  | cons h _ ih => rw [List.map_cons, ih, h.2.2.2.1]

/-- A dotted address is read to its octets. -/
theorem v4Octets_of_isDotted (h : IsDotted quad octets) :
    v4Octets quad = some octets ∧ 0x2E ∈ quad ∧ ∀ value ∈ octets, value < 256 := by
  obtain ⟨hlength, parts, rfl, hparts⟩ := h
  have hfour : parts.length = 4 := hparts.length_eq.trans hlength
  have hsplit : Egress.labels ([0x2E].intercalate parts) = parts := by
    refine List.splitOn_intercalate _ (fun part hpart hdot => ?_) fun hnil => by simp [hnil] at hfour
    obtain ⟨value, -, hvalue⟩ := mem_of_isOctetText hparts hpart
    exact absurd (isOctetText_units hvalue _ hdot).1 (by decide)
  have hall : parts.all (fun p => p ≠ [] && p.length ≤ 3 && p.all Egress.isDigit) = true := by
    refine List.all_eq_true.2 fun part hpart => ?_
    obtain ⟨value, -, hne, hthree, hdigits, -⟩ := mem_of_isOctetText hparts hpart
    simp only [hdigits, hthree, hne, ne_eq, not_false_eq_true, decide_true, Bool.and_self]
  have hle : ∀ value ∈ octets, value ≤ 255 := by
    rw [← map_numberOf hparts]
    intro value hvalue
    obtain ⟨part, hpart, rfl⟩ := List.mem_map.1 hvalue
    obtain ⟨value, -, -, -, -, heq, hle⟩ := mem_of_isOctetText hparts hpart
    exact heq ▸ hle
  refine ⟨?_, ?_, fun value hvalue => Nat.lt_succ_of_le (hle value hvalue)⟩
  · have hbound : octets.all (· ≤ 255) = true :=
      List.all_eq_true.2 fun value hvalue => decide_eq_true (hle value hvalue)
    simp only [v4Octets, hsplit]
    rw [if_pos ⟨hfour, hall⟩, map_numberOf hparts, if_pos hbound]
  · match parts, hfour with
    | [p, q, r, t], _ => simp

theorem shiftLeft_or (h : b < 256) : a <<< 8 ||| b = a * 256 + b := by
  rw [← Nat.shiftLeft_add_eq_or_of_lt (i := 8) h, Nat.shiftLeft_eq]

/-- A dotted end becomes two groups. -/
theorem unquad_of_dotted (hquad : IsDotted quad [a, b, c, d]) :
    unquad (x ++ 0x3A :: quad) =
      some (x ++ 0x3A :: joinColon [toString16 (a * 256 + b), toString16 (c * 256 + d)]) := by
  obtain ⟨hoctets, hdot, hbound⟩ := v4Octets_of_isDotted hquad
  have hcolon : 0x3A ∉ quad := fun h => by
    have hunits := isDotted_units hquad _ h
    revert hunits
    decide
  rw [unquad, splitLastColon_append hcolon]
  simp [hdot, hoctets, joinColon, shiftLeft_or (hbound b (by simp)), shiftLeft_or (hbound d (by simp))]

/-! ## Every text is plain behind its zone -/

theorem map_lowerAscii_of_isDotted (h : IsDotted quad octets) : quad.map lowerAscii = quad := by
  rw [← List.map_id quad, List.map_map]
  refine List.map_congr_left fun u hu => ?_
  have hu := isDotted_units h u hu
  rw [Function.comp_apply, id_eq, lowerAscii, if_neg (by omega)]

theorem reads_groups (h : List.Forall₂ IsGroup parts values) :
    List.Forall₂ Reads (parts.map (List.map lowerAscii)) values :=
  List.forall₂_map_left_iff.2 (h.imp fun _ _ => reads_of_isGroup)

theorem noDot_joinColon (h : List.Forall₂ Reads gs values) : 0x2E ∉ joinColon gs := by
  intro hdot
  rcases mem_intercalate hdot with hdot | ⟨part, hpart, hdot⟩
  · cases hdot
  · obtain ⟨i, hi, rfl⟩ := List.getElem_of_mem hpart
    exact (h.get hi (h.length_eq ▸ hi)).noDot hdot

/-- The groups that a dotted end becomes. -/
theorem reads_quad (hquad : IsDotted quad [a, b, c, d]) :
    List.Forall₂ Reads [toString16 (a * 256 + b), toString16 (c * 256 + d)]
      [a * 256 + b, c * 256 + d] := by
  obtain ⟨-, -, hbound⟩ := v4Octets_of_isDotted hquad
  have ha := hbound a (by simp)
  have hb := hbound b (by simp)
  have hc := hbound c (by simp)
  have hd := hbound d (by simp)
  exact .cons (reads_toString16 (by omega)) (.cons (reads_toString16 (by omega)) .nil)

/-- The text of an address without its zone becomes a plain one. -/
theorem unquad_of_isText (h : IsText body values) :
    ∃ s, unquad (body.map lowerAscii) = some s ∧ Plain s values := by
  cases h with
  | @full parts values htail hlength =>
    rw [map_joinColon]
    cases htail with
    | groups hparts =>
      have hreads := reads_groups hparts
      refine ⟨_, unquad_of_groups ?_ (noDot_joinColon hreads), .full hreads hlength⟩
      match parts, hparts.length_eq.trans hlength with
      | p :: q :: parts, _ =>
        rw [List.map_cons, List.map_cons, joinColon_cons (List.cons_ne_nil _ _)]
        simp
    | @dotted parts values quad a b c d hparts hquad =>
      have hreads := reads_groups hparts
      have hne : parts.map (List.map lowerAscii) ≠ [] := by
        have hcount := hparts.length_eq
        rw [List.length_append, List.length_cons, List.length_singleton] at hlength
        rw [Ne, List.map_eq_nil_iff, ← List.length_eq_zero_iff]
        omega
      rw [List.map_append, List.map_singleton, map_lowerAscii_of_isDotted hquad,
        joinColon_append hne (List.cons_ne_nil _ _), show joinColon [quad] = quad by simp [joinColon]]
      refine ⟨_, unquad_of_dotted hquad, ?_⟩
      rw [← joinColon_append hne (List.cons_ne_nil _ _)]
      exact .full (List.rel_append hreads (reads_quad hquad)) hlength
  | @compressed front behind before' after hfront htail hlength =>
    have hfirst := reads_groups hfront
    have hmap : (joinColon front ++ 0x3A :: 0x3A :: joinColon behind).map lowerAscii =
        joinColon (front.map (List.map lowerAscii)) ++
          0x3A :: 0x3A :: joinColon (behind.map (List.map lowerAscii)) := by
      rw [List.map_append, List.map_cons, List.map_cons, map_joinColon, map_joinColon]
      rfl
    rw [hmap]
    cases htail with
    | groups hparts =>
      have hreads := reads_groups hparts
      refine ⟨_, unquad_of_groups (by simp) ?_, .compressed hfirst hreads hlength⟩
      simp [noDot_joinColon hfirst, noDot_joinColon hreads]
    | @dotted parts values quad a b c d hparts hquad =>
      have hreads := List.rel_append (reads_groups hparts) (reads_quad hquad)
      rw [List.map_append, List.map_singleton, map_lowerAscii_of_isDotted hquad]
      have hplain := Plain.compressed hfirst hreads hlength
      by_cases hnil : parts.map (List.map lowerAscii) = []
      · rw [hnil] at hplain ⊢
        have hquad' := unquad_of_dotted (x := joinColon (front.map (List.map lowerAscii)) ++ [0x3A])
          hquad
        rw [List.append_assoc, List.append_assoc] at hquad'
        have hone : joinColon ([] ++ [quad]) = quad := by simp [joinColon]
        exact ⟨_, by rw [hone]; exact hquad', hplain⟩
      · rw [joinColon_append hnil (List.cons_ne_nil _ _)] at hplain ⊢
        have hquad' := unquad_of_dotted (x := joinColon (front.map (List.map lowerAscii)) ++
          0x3A :: 0x3A :: joinColon (parts.map (List.map lowerAscii))) hquad
        rw [List.append_assoc, List.append_assoc] at hquad'
        have hone : joinColon [quad] = quad := by simp [joinColon]
        exact ⟨_, by rw [hone]; exact hquad', hplain⟩

/-- A unit of an address. -/
def IsAddressUnit (u : UInt16) : Prop :=
  isAscii u = true ∧ u ≠ 0x25

theorem isAddressUnit_of_toNat (h : 0x2E ≤ u.toNat) (h' : u.toNat < 0x80) : IsAddressUnit u := by
  refine ⟨decide_eq_true h', ?_⟩
  rintro rfl
  revert h
  decide

theorem isGroup_units {g : JsString} {value : ℕ} (h : IsGroup g value) :
    ∀ u ∈ g, IsAddressUnit u := by
  obtain ⟨-, -, digits, hdigits, -⟩ := h
  have hval : ∀ {g : JsString} {digits : List ℕ}, g.mapM hexVal = some digits →
      ∀ u ∈ g, ∃ n, hexVal u = some n := by
    intro g
    induction g with
    | nil => simp
    | cons v g ih =>
      intro digits h
      simp only [List.mapM_cons, Option.pure_def, Option.bind_eq_bind, Option.bind_eq_some_iff] at h
      obtain ⟨d, hd, ds, hds, -⟩ := h
      exact List.forall_mem_cons.2 ⟨⟨d, hd⟩, ih hds⟩
  intro u hu
  obtain ⟨n, hn⟩ := hval hdigits u hu
  unfold hexVal at hn
  refine isAddressUnit_of_toNat ?_ ?_ <;> grind

theorem isTail_units (h : IsTail parts values) : ∀ part ∈ parts, ∀ u ∈ part, IsAddressUnit u := by
  have hgroups : ∀ {parts : List JsString} {values : List ℕ}, List.Forall₂ IsGroup parts values →
      ∀ part ∈ parts, ∀ u ∈ part, IsAddressUnit u := by
    intro parts values h part hpart
    obtain ⟨i, hi, rfl⟩ := List.getElem_of_mem hpart
    exact isGroup_units (h.get hi (h.length_eq ▸ hi))
  cases h with
  | groups h => exact hgroups h
  | dotted h hquad =>
    intro part hpart u hu
    rcases List.mem_append.1 hpart with hpart | hpart
    · exact hgroups h part hpart u hu
    · rw [List.mem_singleton.1 hpart] at hu
      have hunits := isDotted_units hquad u hu
      exact isAddressUnit_of_toNat (by omega) (by omega)

theorem isText_units (h : IsText body values) : ∀ u ∈ body, IsAddressUnit u := by
  have hcolon : IsAddressUnit 0x3A := isAddressUnit_of_toNat (by decide) (by decide)
  have hjoin : ∀ {parts : List JsString} {values : List ℕ}, IsTail parts values →
      ∀ u ∈ joinColon parts, IsAddressUnit u := by
    intro parts values h u hu
    rcases mem_intercalate hu with rfl | ⟨part, hpart, hu⟩
    · exact hcolon
    · exact isTail_units h part hpart u hu
  cases h with
  | full h _ => exact hjoin h
  | compressed hfront hbehind _ =>
    intro u hu
    rw [List.mem_append, List.mem_cons, List.mem_cons] at hu
    rcases hu with hu | rfl | rfl | hu
    · exact hjoin (.groups hfront) u hu
    · exact hcolon
    · exact hcolon
    · exact hjoin hbehind u hu

end Plain

/-! ## The check -/

section Check

variable {other : JsString → UInt16 → JsString → JsString} {text body : JsString} {values : List ℕ}

theorem mem_colon_of_unquad {s t : JsString} (h : unquad s = some t) : 0x3A ∈ s := by
  by_contra hcolon
  have hall : ∀ u ∈ s.reverse, decide (u ≠ 0x3A) = true := fun u hu =>
    decide_eq_true fun hu' => hcolon (hu' ▸ List.mem_reverse.1 hu)
  have hnone : splitLastColon s = none := by
    rw [splitLastColon, List.span_eq_takeWhile_dropWhile, List.dropWhile_eq_nil_iff.2 hall]
  rw [unquad, hnone] at h
  cases h

/-- The text in lower case : the zone, if any, stays behind its sign. -/
theorem lowerCase_of_isText (h : IsText body values)
    (htext : text = body ∨ ∃ zone, text = body ++ 0x25 :: zone) :
    ∃ rest, lowerCase other text = body.map lowerAscii ++ rest ∧
      (lowerCase other text).takeWhile (· ≠ 0x25) = body.map lowerAscii := by
  have hascii : body.all isAscii = true :=
    List.all_eq_true.2 fun u hu => (isText_units h u hu).1
  have hsign : ∀ u ∈ body.map lowerAscii, decide (u ≠ 0x25) = true := by
    intro u hu
    obtain ⟨v, hv, rfl⟩ := List.mem_map.1 hu
    refine decide_eq_true fun hlower => ?_
    unfold lowerAscii at hlower
    split at hlower
    · next hupper =>
      have hnat := congrArg UInt16.toNat hlower
      rw [UInt16.toNat_add] at hnat
      simp at hnat
      omega
    · exact (isText_units h v hv).2 hlower
  rcases htext with rfl | ⟨zone, rfl⟩
  · refine ⟨[], ?_, ?_⟩
    · rw [lowerCase_ascii hascii, List.append_nil]
    · rw [lowerCase_ascii hascii]
      exact List.takeWhile_eq_self_iff.2 hsign
  · have hlower : lowerCase other (body ++ 0x25 :: zone) = body.map lowerAscii ++
        0x25 :: changeCase lowerAscii other (body ++ [0x25]) zone := by
      rw [lowerCase, changeCase_append hascii]
      rfl
    refine ⟨_, hlower, ?_⟩
    rw [hlower, List.takeWhile_append_of_pos hsign]
    simp

/-- **The answer depends on the address alone.** However an address of 128 bits is written (a run of
zeros left out anywhere, leading zeros, either case, a dotted end, a zone), it is refused exactly when
it lies in a private range or carries an IPv4 of one; a dotted IPv4, exactly when its octets do. -/
theorem isPrivateIP_iff (other : JsString → UInt16 → JsString → JsString) :
    (∀ (addr : BitVec 128) (text : JsString), IsAddressText text addr →
        (isPrivateIP other text = true ↔ PrivateV6 addr.toNat)) ∧
      ∀ (text : JsString) (a b c d : ℕ), IsDotted text [a, b, c, d] →
        (isPrivateIP other text = true ↔ PrivateV4 (v4 a b c d)) := by
  constructor
  · rintro addr text ⟨body, groups, hbody, haddr, htext⟩
    obtain ⟨s, hs, hplain⟩ := unquad_of_isText hbody
    obtain ⟨rest, hlower, htake⟩ : ∃ rest, lowerCase other text = body.map lowerAscii ++ rest ∧
        (lowerCase other text).takeWhile (· ≠ 0x25) = body.map lowerAscii :=
      lowerCase_of_isText hbody htext
    obtain ⟨hcount, hsmall⟩ := hplain.groups
    have hcolon : ¬0x3A ∉ lowerCase other text := by
      rw [hlower, not_not]
      exact List.mem_append_left _ (mem_colon_of_unquad hs)
    have hbytes : ipv6ToBytes (lowerCase other text) = some (groups.flatMap groupBytes) :=
      ipv6ToBytes_of_plain (by rw [htake]; exact hs) hplain
    have hlength : (groups.flatMap groupBytes).length = 16 := by
      rw [flatMap_groupBytes_length, hcount]
    have hbound : ∀ x ∈ groups.flatMap groupBytes, x < 256 := by
      intro x hx
      obtain ⟨g, hg, hx⟩ := List.mem_flatMap.1 hx
      have hg := hsmall g hg
      rcases List.mem_pair.1 hx with rfl | rfl <;> omega
    have haddr' : ofBig 256 (groups.flatMap groupBytes) = addr.toNat :=
      (ofBig_bytes hsmall).trans haddr
    rw [isPrivateIP, if_neg hcolon, hbytes]
    show isPrivateBytes _ = true ↔ _
    rw [isPrivateBytes_iff hlength hbound, haddr']
  · intro text a b c d htext
    obtain ⟨hoctets, -, hbound⟩ := v4Octets_of_isDotted htext
    have hunits := isDotted_units htext
    have hlower : lowerCase other text = text := by
      rw [lowerCase_ascii, map_lowerAscii_of_isDotted htext]
      refine List.all_eq_true.2 fun u hu => decide_eq_true ?_
      have hu := hunits u hu
      omega
    have hcolon : 0x3A ∉ text := fun h => by
      have hcolon := hunits _ h
      revert hcolon
      decide
    rw [isPrivateIP, hlower, if_pos hcolon, hoctets]
    exact isPrivateV4_iff (hbound a (by simp)) (hbound b (by simp)) (hbound c (by simp))
      (hbound d (by simp))

/-- Loopback in its mapped form, with a dotted end and a zone; a public IPv4. -/
theorem isPrivateIP_mapped_loopback :
    isPrivateIP (fun _ u _ => [u]) (utf16 "::FFFF:127.0.0.1%eth0") = true ∧
      ¬isPrivateIP (fun _ u _ => [u]) (utf16 "8.8.8.8") = true := by
  obtain ⟨hv6, hv4⟩ := isPrivateIP_iff fun _ u _ => [u]
  have hloopback : IsDotted (utf16 "127.0.0.1") [127, 0, 0, 1] :=
    ⟨rfl, [utf16 "127", utf16 "0", utf16 "0", utf16 "1"], by decide, by
      simp only [List.forall₂_cons, List.forall₂_nil_left_iff, IsOctetText]
      decide⟩
  have hpublic : IsDotted (utf16 "8.8.8.8") [8, 8, 8, 8] :=
    ⟨rfl, [utf16 "8", utf16 "8", utf16 "8", utf16 "8"], by decide, by
      simp only [List.forall₂_cons, List.forall₂_nil_left_iff, IsOctetText]
      decide⟩
  have hgroup : IsGroup (utf16 "FFFF") 0xffff :=
    ⟨by decide, by decide, [15, 15, 15, 15], by decide, by decide⟩
  have hbody := IsText.compressed .nil (.dotted (.cons hgroup .nil) hloopback) (by decide)
  have haddr : IsAddressText (utf16 "::FFFF:127.0.0.1%eth0") 0xffff7f000001 :=
    ⟨_, _, hbody, by decide, .inr ⟨utf16 "eth0", by decide⟩⟩
  constructor
  · refine (hv6 _ _ haddr).2 (.inr ⟨0x7f000001, .inl ⟨⟨(v6 [0, 0, 0, 0, 0, 0xffff, 0, 0], 96), ?_, ?_⟩,
      ?_⟩, ⟨(v4 127 0 0 0, 8), ?_, ?_⟩⟩)
    · simp [carryingRanges]
    · show _ = _
      decide
    · decide
    · simp [privateV4Ranges]
    · show _ = _
      decide
  · rw [hv4 _ 8 8 8 8 hpublic, PrivateV4]
    simp only [privateV4Ranges, List.exists_mem_cons_iff, List.not_mem_nil, false_and, exists_false,
      InRange]
    decide

end Check

end Lynox.Network
