import Lynox.Text.Matcher
import Mathlib.Data.Nat.Find

/-!
# Files uploaded through a curl form

`curlFormUploadsFile` reads a command in one pass : a whole word `curl` on a line, then on that line
a `-F`, behind which an `@` comes before the next quote. What lies behind each place is looked up in
tables that are built from the right.

The scan finds an upload (`scanCurl_iff`) exactly where the pattern `\bcurl\b.*-F\s*"?[^"]*@` matches, and
then the filter in front of it matches too (`curlFormUploadsFile_iff`).
-/

namespace Lynox.Guard

open Text

/-- From each index on, the next one whose unit `p` holds of, the length of the text where there is
none. The first index is `i`. -/
def nextTable (p : UInt16 → Bool) (i : ℕ) : JsString → List ℕ
  | [] => [i]
  | ch :: rest =>
    let table := nextTable p (i + 1) rest
    (if p ch then i else table.headD 0) :: table

/-- The tables of a text. -/
structure Tables where
  nextAt : List ℕ
  nextQuote : List ℕ
  nextNonSpace : List ℕ

def tables (segment : JsString) : Tables where
  nextAt := nextTable (fun ch => ch = 0x40) 0 segment
  nextQuote := nextTable (fun ch => ch = 0x22) 0 segment
  nextNonSpace := nextTable (fun ch => !isWhite ch) 0 segment

/-- Whether an `@` comes before the next quote. -/
def Tables.atBeforeQuote (t : Tables) (n start : ℕ) : Bool :=
  t.nextAt.getD start 0 < n && t.nextAt.getD start 0 < t.nextQuote.getD start 0

/-- A unit at a place is a letter, in either case. -/
def letterAt (segment : JsString) (i : ℕ) (c : UInt16) : Bool :=
  segment[i]?.any fun u => lowerAscii u = c

/-- The whole word `curl` stands at a place. -/
def curlAt (segment : JsString) (i : ℕ) : Bool :=
  letterAt segment i 0x63 && i + 4 ≤ segment.length && letterAt segment (i + 1) 0x75 &&
    letterAt segment (i + 2) 0x72 && letterAt segment (i + 3) 0x6C &&
    (i = 0 || !wordAt segment (i - 1)) && (i + 4 = segment.length || !wordAt segment (i + 4))

/-- A `-F` stands at a place. -/
def flagAt (segment : JsString) (i : ℕ) : Bool :=
  segment[i]? = some 0x2D && letterAt segment (i + 1) 0x66

/-- What comes behind a `-F` uploads a file. -/
def Tables.uploadsBehind (t : Tables) (segment : JsString) (afterF : ℕ) : Bool :=
  let p := t.nextNonSpace.getD afterF 0
  if segment[p]? = some 0x22 then t.atBeforeQuote segment.length (p + 1)
  else t.atBeforeQuote segment.length afterF

/-- The loop, from an index on. -/
def scanCurl (t : Tables) (segment : JsString) : ℕ → ℕ → Bool → Bool
  | 0, _, _ => false
  | rounds + 1, i, curlOnLine =>
    match segment[i]? with
    | none => false
    | some c =>
      if isLineTerminator c then scanCurl t segment rounds (i + 1) false
      else if !curlOnLine && curlAt segment i then scanCurl t segment rounds (i + 4) true
      else if curlOnLine && flagAt segment i && t.uploadsBehind segment (i + 2) then true
      else scanCurl t segment rounds (i + 1) curlOnLine

/-- Whether a command uploads a file with a curl form. -/
def curlFormUploadsFile (segment : JsString) : Bool :=
  scanCurl (tables segment) segment segment.length 0 false

namespace CurlForm

open Matcher

/-- `\bcurl\b`. -/
def curlWord : Matcher :=
  .seq .boundary (word [0x63, 0x75, 0x72, 0x6C] .boundary)

/-- `-F`. -/
def flag : Matcher :=
  .seq (char 0x2D) (letter 0x66)

/-- `\s*"?[^"]*@`. -/
def upload : Matcher :=
  .seq (.many (.unit isWhite)) (.seq (.optional (char 0x22))
    (.seq (.many (.unit fun u => u ≠ 0x22)) (char 0x40)))

/-- `/\bcurl\b.*-F\s*"?[^"]*@/i`. -/
def pattern : Matcher :=
  .seq curlWord (.seq (.many dot) (.seq flag upload))

/-- `/^(?:(?!\bcurl\b).)*\bcurl\b(?:(?!-F).)*-F/im`. -/
def filter : Matcher :=
  .seq .lineStart (.seq (.many (.seq (.notAhead curlWord) dot))
    (.seq curlWord (.seq (.many (.seq (.notAhead flag) dot)) flag)))

end CurlForm

/-! ## The tables -/

section Tables

variable {segment : JsString} {p : UInt16 → Bool} {i k m : ℕ} {u : UInt16}

/-- The entry of an index, from the units on from it. -/
theorem nextTable_getD (hk : k ≤ segment.length) : (nextTable p i segment).getD k 0 =
    i + k + ((segment.drop k).takeWhile fun u => !p u).length := by
  induction segment generalizing i k with
  | nil =>
    obtain rfl : k = 0 := by simpa using hk
    rfl
  | cons ch rest ih =>
    cases k with
    | zero =>
      have hhead : (nextTable p (i + 1) rest).headD 0 = i + 1 + (rest.takeWhile fun u => !p u).length := by
        rw [← List.drop_zero (l := rest), ← ih (Nat.zero_le _), List.drop_zero]
        cases nextTable p (i + 1) rest <;> rfl
      rw [nextTable, List.getD_cons_zero, List.drop_zero, hhead]
      split
      · next h => rw [List.takeWhile_cons_of_neg (by simp [h])]; rfl
      · next h =>
        rw [List.takeWhile_cons_of_pos (by simp [h]), List.length_cons]
        omega
    | succ k =>
      rw [nextTable, List.getD_cons_succ, ih (by simpa using hk), List.drop_succ_cons]
      omega

/-- The units up to the length of a run are of the run, and the one there is not. -/
theorem takeWhile_spec (q : UInt16 → Bool) (l : JsString) :
    (∀ j < (l.takeWhile q).length, ∃ u, l[j]? = some u ∧ q u = true) ∧
      ∀ u, l[(l.takeWhile q).length]? = some u → q u = false := by
  induction l with
  | nil => simp
  | cons v l ih =>
    by_cases hv : q v = true
    · rw [List.takeWhile_cons_of_pos hv, List.length_cons]
      refine ⟨fun j hj => ?_, fun u hu => ih.2 u (by simpa using hu)⟩
      cases j with
      | zero => exact ⟨v, rfl, hv⟩
      | succ j => exact ih.1 j (by omega)
    · rw [List.takeWhile_cons_of_neg hv]
      refine ⟨by simp, fun u hu => ?_⟩
      obtain rfl := Option.some.inj hu
      simpa using hv

/-- What a table says of an index : the next place `p` holds at. -/
theorem nextTable_spec (p : UInt16 → Bool) (hk : k ≤ segment.length) :
    let next := (nextTable p 0 segment).getD k 0
    k ≤ next ∧ next ≤ segment.length ∧ (∀ j, k ≤ j → j < next → ∃ u, segment[j]? = some u ∧ p u = false) ∧
      ∀ u, segment[next]? = some u → p u = true := by
  have hspec := takeWhile_spec (fun u => !p u) (segment.drop k)
  have hlen := (List.takeWhile_prefix (fun u => !p u) (l := segment.drop k)).length_le
  rw [List.length_drop] at hlen
  simp only [nextTable_getD hk, Nat.zero_add]
  refine ⟨Nat.le_add_right .., by omega, fun j hkj hj => ?_, fun u hu => ?_⟩
  · obtain ⟨u, hu, hp⟩ := hspec.1 (j - k) (by omega)
    rw [List.getElem?_drop, Nat.add_sub_cancel' hkj] at hu
    exact ⟨u, hu, by simpa using hp⟩
  · rw [← List.getElem?_drop] at hu
    simpa using hspec.2 u hu

theorem atBeforeQuote_iff (hk : k ≤ segment.length) :
    (tables segment).atBeforeQuote segment.length k = true ↔
      ∃ m, k ≤ m ∧ segment[m]? = some 0x40 ∧ ∀ j, k ≤ j → j < m → segment[j]? ≠ some 0x22 := by
  obtain ⟨hkat, -, hat, hatp⟩ := nextTable_spec (fun ch => ch = 0x40) hk
  obtain ⟨hkquote, -, hquote, hquotep⟩ := nextTable_spec (fun ch => ch = 0x22) hk
  unfold Tables.atBeforeQuote tables
  rw [Bool.and_eq_true, decide_eq_true_eq, decide_eq_true_eq]
  generalize (nextTable (fun ch => ch = 0x40) 0 segment).getD k 0 = at' at *
  generalize (nextTable (fun ch => ch = 0x22) 0 segment).getD k 0 = quote' at *
  constructor
  · rintro ⟨hlt, hbefore⟩
    have hu := List.getElem?_eq_getElem hlt
    have h40 := hatp _ hu
    rw [decide_eq_true_eq] at h40
    refine ⟨at', hkat, h40 ▸ hu, fun j hkj hj heq => ?_⟩
    obtain ⟨u, hu, hne⟩ := hquote j hkj (hj.trans hbefore)
    rw [heq] at hu
    obtain rfl := Option.some.inj hu
    simp at hne
  · rintro ⟨m, hkm, hm, hnone⟩
    have hmlt : m < segment.length := (List.getElem?_eq_some_iff.1 hm).1
    have hatm : at' ≤ m := by
      by_contra hlt
      obtain ⟨u, hu, hne⟩ := hat m hkm (not_le.1 hlt)
      rw [hm] at hu
      obtain rfl := Option.some.inj hu
      simp at hne
    refine ⟨by omega, ?_⟩
    by_contra hle
    have hquotelt : quote' < segment.length := by omega
    have hu := List.getElem?_eq_getElem hquotelt
    have h22 := hquotep _ hu
    rw [decide_eq_true_eq] at h22
    rw [h22] at hu
    rcases Nat.eq_or_lt_of_le (show quote' ≤ m by omega) with rfl | hlt
    · rw [hm] at hu
      exact absurd (Option.some.inj hu) (by decide)
    · exact hnone quote' hkquote hlt hu

/-- White space up to a place, perhaps a quote, and an `@` before the next quote. -/
theorem mem_ends_upload : (∃ j, j ∈ CurlForm.upload.ends segment k) ↔ ∃ a b m,
    (k ≤ a ∧ ∀ j, k ≤ j → j < a → ∃ u, segment[j]? = some u ∧ isWhite u = true) ∧
      (b = a + 1 ∧ segment[a]? = some 0x22 ∨ b = a) ∧
      b ≤ m ∧ segment[m]? = some 0x40 ∧ ∀ j, b ≤ j → j < m → segment[j]? ≠ some 0x22 := by
  have hchar : ∀ {c : UInt16} {i j : ℕ}, j ∈ (Matcher.char c).ends segment i ↔
      j = i + 1 ∧ segment[i]? = some c := by
    intro c i j
    simp [Matcher.char, Matcher.mem_ends_unit]
  simp only [CurlForm.upload, Matcher.mem_ends_seq, Matcher.mem_ends_many_unit,
    Matcher.mem_ends_optional, hchar,
    decide_eq_true_eq, ne_eq]
  constructor
  · rintro ⟨j, a, hwhite, b, hquote, m, ⟨hbm, hnone⟩, -, hm⟩
    refine ⟨a, b, m, hwhite, hquote, hbm, hm, fun j hbj hj heq => ?_⟩
    obtain ⟨u, hu, hne⟩ := hnone j hbj hj
    rw [heq] at hu
    exact hne (Option.some.inj hu).symm
  · rintro ⟨a, b, m, hwhite, hquote, hbm, hm, hnone⟩
    refine ⟨m + 1, a, hwhite, b, hquote, m, ⟨hbm, fun j hbj hj => ?_⟩, rfl, hm⟩
    have hmlt : m < segment.length := (List.getElem?_eq_some_iff.1 hm).1
    have hu := List.getElem?_eq_getElem (show j < segment.length by omega)
    exact ⟨_, hu, fun heq => hnone j hbj hj (heq ▸ hu)⟩

/-- The lookups behind a `-F` answer as the pattern does. -/
theorem uploadsBehind_iff (hk : k ≤ segment.length) :
    (tables segment).uploadsBehind segment k = true ↔ ∃ j, j ∈ CurlForm.upload.ends segment k := by
  obtain ⟨hkp, hpn, hwhite, hp⟩ := nextTable_spec (fun ch => !isWhite ch) hk
  rw [mem_ends_upload]
  unfold Tables.uploadsBehind
  simp only [show (tables segment).nextNonSpace = nextTable (fun ch => !isWhite ch) 0 segment from rfl]
  generalize (nextTable (fun ch => !isWhite ch) 0 segment).getD k 0 = p at *
  have hwhite' : ∀ j, k ≤ j → j < p → ∃ u, segment[j]? = some u ∧ isWhite u = true := fun j hkj hj => by
    obtain ⟨u, hu, hw⟩ := hwhite j hkj hj
    exact ⟨u, hu, by simpa using hw⟩
  -- a unit before `p` is white, so neither a quote nor an `@`
  have hne : ∀ {j : ℕ} {c : UInt16}, isWhite c = false → k ≤ j → segment[j]? = some c → p ≤ j := by
    intro j c hc hkj hj
    by_contra hlt
    obtain ⟨u, hu, hw⟩ := hwhite' j hkj (not_le.1 hlt)
    rw [hj] at hu
    obtain rfl := Option.some.inj hu
    simp [hc] at hw
  -- white space ends at `p` or before it
  have hle : ∀ {a : ℕ}, (∀ j, k ≤ j → j < a → ∃ u, segment[j]? = some u ∧ isWhite u = true) → a ≤ p := by
    intro a ha
    by_contra hlt
    obtain ⟨u, hu, hw⟩ := ha p hkp (not_le.1 hlt)
    simpa [hw] using hp u hu
  split
  · next hquote =>
    have hplt : p < segment.length := (List.getElem?_eq_some_iff.1 hquote).1
    rw [atBeforeQuote_iff hplt]
    constructor
    · rintro ⟨m, hpm, hm, hnone⟩
      exact ⟨p, p + 1, m, ⟨hkp, hwhite'⟩, .inl ⟨rfl, hquote⟩, hpm, hm, hnone⟩
    · rintro ⟨a, b, m, ⟨hka, ha⟩, (⟨rfl, hopen⟩ | rfl), hbm, hm, hnone⟩
      · obtain rfl : a = p := le_antisymm (hle ha) (hne rfl hka hopen)
        exact ⟨m, hbm, hm, hnone⟩
      · have hpm := hne rfl (hka.trans hbm) hm
        rcases Nat.eq_or_lt_of_le hpm with rfl | hlt
        · rw [hm] at hquote
          exact absurd (Option.some.inj hquote) (by decide)
        · exact absurd hquote (hnone p (hle ha) hlt)
  · next hquote =>
    rw [atBeforeQuote_iff hk]
    constructor
    · rintro ⟨m, hkm, hm, hnone⟩
      exact ⟨k, k, m, ⟨le_rfl, fun j hkj hj => by omega⟩, .inr rfl, hkm, hm, hnone⟩
    · rintro ⟨a, b, m, ⟨hka, ha⟩, (⟨rfl, hopen⟩ | rfl), hbm, hm, hnone⟩
      · obtain rfl : a = p := le_antisymm (hle ha) (hne rfl hka hopen)
        exact absurd hopen hquote
      · refine ⟨m, hka.trans hbm, hm, fun j hkj hj heq => ?_⟩
        rcases lt_or_ge j b with hlt | hge
        · exact absurd ((hne rfl hkj heq).trans_lt hlt) (not_lt.2 (hle ha))
        · exact hnone j hge hj heq

end Tables

/-! ## The scan -/

section Scan

variable {segment : JsString} {i j k f rounds : ℕ} {on : Bool} {c : UInt16}

/-- No line ends from one place up to another, which the text reaches. -/
def OneLine (segment : JsString) (i j : ℕ) : Prop :=
  ∀ k, i ≤ k → k < j → ∃ u, segment[k]? = some u ∧ isLineTerminator u = false

/-- A `-F` at a place uploads a file. -/
def UploadAt (segment : JsString) (f : ℕ) : Prop :=
  flagAt segment f = true ∧ ∃ j, j ∈ CurlForm.upload.ends segment (f + 2)

/-- From a place on a `-F` uploads a file, on the line of a `curl` that was read or comes first. -/
def Found (segment : JsString) (i : ℕ) (on : Bool) : Prop :=
  ∃ f, i ≤ f ∧ UploadAt segment f ∧
    (on = true ∧ OneLine segment i f ∨ ∃ c, i ≤ c ∧ curlAt segment c = true ∧ c + 4 ≤ f ∧
      OneLine segment (c + 4) f)

theorem letterAt_iff : letterAt segment i c = true ↔ ∃ u, segment[i]? = some u ∧ lowerAscii u = c := by
  simp [letterAt, Option.any_eq_true]

theorem UploadAt.dash (h : UploadAt segment f) : segment[f]? = some 0x2D := by
  have hflag := h.1
  rw [flagAt, Bool.and_eq_true, decide_eq_true_eq] at hflag
  exact hflag.1

theorem flagAt_le (h : flagAt segment f = true) : f + 2 ≤ segment.length := by
  rw [flagAt, Bool.and_eq_true] at h
  obtain ⟨u, hu, -⟩ := letterAt_iff.1 h.2
  exact (List.getElem?_eq_some_iff.1 hu).1

/-- The letters of a `curl`. -/
theorem curlAt_letters (h : curlAt segment i = true) : letterAt segment i 0x63 = true ∧
    letterAt segment (i + 1) 0x75 = true ∧ letterAt segment (i + 2) 0x72 = true ∧
      letterAt segment (i + 3) 0x6C = true := by
  simp only [curlAt, Bool.and_eq_true] at h
  exact ⟨h.1.1.1.1.1.1, h.1.1.1.1.2, h.1.1.1.2, h.1.1.2⟩

theorem letter_not_terminator {u : UInt16} (h : lowerAscii u = c) (hc : isLineTerminator c = false) :
    isLineTerminator u = false := by
  unfold lowerAscii at h
  split at h
  · next hupper =>
    have hne : ∀ v : UInt16, (v.toNat < 0x41 ∨ 0x5A < v.toNat) → u ≠ v := by
      rintro v hv rfl
      omega
    simp [isLineTerminator, hne 0x0A (by decide), hne 0x0D (by decide), hne 0x2028 (by decide),
      hne 0x2029 (by decide)]
  · rw [h]
    exact hc

theorem OneLine.cons (hc : segment[i]? = some c) (hend : isLineTerminator c = false)
    (h : OneLine segment (i + 1) j) : OneLine segment i j := fun k hik hkj => by
  rcases Nat.eq_or_lt_of_le hik with rfl | hlt
  · exact ⟨c, hc, hend⟩
  · exact h k hlt hkj

/-- The units of a `curl` are on one line. -/
theorem OneLine.curl (h : curlAt segment i = true) (hline : OneLine segment (i + 4) j) :
    OneLine segment i j := by
  obtain ⟨h0, h1, h2, h3⟩ := curlAt_letters h
  obtain ⟨u, hu, hc⟩ := letterAt_iff.1 h0
  obtain ⟨v, hv, hr⟩ := letterAt_iff.1 h1
  obtain ⟨w, hw, hl⟩ := letterAt_iff.1 h2
  obtain ⟨x, hx, hk⟩ := letterAt_iff.1 h3
  exact .cons hu (letter_not_terminator hc rfl) (.cons hv (letter_not_terminator hr rfl)
    (.cons hw (letter_not_terminator hl rfl) (.cons hx (letter_not_terminator hk rfl) hline)))

theorem letterAt_unique {c' : UInt16} (h : letterAt segment i c = true)
    (h' : letterAt segment i c' = true) :
    c = c' := by
  obtain ⟨u, hu, rfl⟩ := letterAt_iff.1 h
  obtain ⟨v, hv, rfl⟩ := letterAt_iff.1 h'
  rw [hu] at hv
  rw [Option.some.inj hv]

/-- Two of them do not overlap. -/
theorem curlAt_apart (h : curlAt segment i = true) (hj : curlAt segment j = true) (hlt : i < j) :
    i + 4 ≤ j := by
  obtain ⟨-, h1, h2, h3⟩ := curlAt_letters h
  have hc := (curlAt_letters hj).1
  by_contra hover
  obtain rfl | rfl | rfl : j = i + 1 ∨ j = i + 2 ∨ j = i + 3 := by omega
  · exact absurd (letterAt_unique h1 hc) (by decide)
  · exact absurd (letterAt_unique h2 hc) (by decide)
  · exact absurd (letterAt_unique h3 hc) (by decide)

theorem found_terminator (hc : segment[i]? = some c) (hend : isLineTerminator c = true) :
    Found segment i on ↔ Found segment (i + 1) false := by
  constructor
  · rintro ⟨f, hif, hup, hline⟩
    have hne : i ≠ f := by
      rintro rfl
      rw [hup.dash] at hc
      obtain rfl := Option.some.inj hc
      exact absurd hend (by decide)
    rcases hline with ⟨-, hline⟩ | ⟨c', hic, hcurl, hcf, hline⟩
    · obtain ⟨u, hu, hnot⟩ := hline i le_rfl (by omega)
      rw [hc] at hu
      obtain rfl := Option.some.inj hu
      exact absurd (hend.symm.trans hnot) (by decide)
    · have hne' : i ≠ c' := by
        rintro rfl
        obtain ⟨u, hu, hletter⟩ := letterAt_iff.1 (curlAt_letters hcurl).1
        rw [hc] at hu
        obtain rfl := Option.some.inj hu
        exact absurd (hend.symm.trans (letter_not_terminator hletter rfl)) (by decide)
      exact ⟨f, by omega, hup, .inr ⟨c', by omega, hcurl, hcf, hline⟩⟩
  · rintro ⟨f, hif, hup, ⟨hno, -⟩ | ⟨c', hic, hcurl, hcf, hline⟩⟩
    · exact absurd hno (by decide)
    · exact ⟨f, by omega, hup, .inr ⟨c', by omega, hcurl, hcf, hline⟩⟩

theorem found_curl (hcurl : curlAt segment i = true) : Found segment i false ↔
    Found segment (i + 4) true := by
  constructor
  · rintro ⟨f, hif, hup, ⟨hno, -⟩ | ⟨c', hic, hcurl', hcf, hline⟩⟩
    · exact absurd hno (by decide)
    · rcases Nat.eq_or_lt_of_le hic with rfl | hlt
      · exact ⟨f, hcf, hup, .inl ⟨rfl, hline⟩⟩
      · have hapart := curlAt_apart hcurl hcurl' hlt
        exact ⟨f, by omega, hup, .inr ⟨c', hapart, hcurl', hcf, hline⟩⟩
  · rintro ⟨f, hif, hup, ⟨-, hline⟩ | ⟨c', hic, hcurl', hcf, hline⟩⟩
    · exact ⟨f, by omega, hup, .inr ⟨i, le_rfl, hcurl, hif, hline⟩⟩
    · exact ⟨f, by omega, hup, .inr ⟨c', by omega, hcurl', hcf, hline⟩⟩

/-- A unit that neither ends the line nor begins what is looked for is passed. -/
theorem found_pass (hc : segment[i]? = some c) (hend : isLineTerminator c = false)
    (hcurl : on = false → curlAt segment i = false) (hup : on = true → ¬ UploadAt segment i) :
    Found segment i on ↔ Found segment (i + 1) on := by
  constructor
  · rintro ⟨f, hif, hupf, ⟨hon, hline⟩ | ⟨c', hic, hcurl', hcf, hline⟩⟩
    · have hne : i ≠ f := by
        rintro rfl
        exact hup hon hupf
      exact ⟨f, by omega, hupf, .inl ⟨hon, fun k hk => hline k (by omega)⟩⟩
    · rcases Nat.eq_or_lt_of_le hic with rfl | hlt
      · cases on with
        | false => rw [hcurl rfl] at hcurl'; exact absurd hcurl' (by decide)
        | true => exact ⟨f, by omega, hupf, .inl ⟨rfl, fun k hk => OneLine.curl hcurl' hline k (by omega)⟩⟩
      · exact ⟨f, by omega, hupf, .inr ⟨c', hlt, hcurl', hcf, hline⟩⟩
  · rintro ⟨f, hif, hupf, ⟨hon, hline⟩ | ⟨c', hic, hcurl', hcf, hline⟩⟩
    · exact ⟨f, by omega, hupf, .inl ⟨hon, hline.cons hc hend⟩⟩
    · exact ⟨f, by omega, hupf, .inr ⟨c', by omega, hcurl', hcf, hline⟩⟩

theorem scanCurl_iff (hrounds : segment.length - i ≤ rounds) :
    scanCurl (tables segment) segment rounds i on = true ↔ Found segment i on := by
  induction rounds generalizing i on with
  | zero =>
    refine iff_of_false (by simp [scanCurl]) fun ⟨f, hif, hup, _⟩ => ?_
    have := (List.getElem?_eq_some_iff.1 hup.dash).1
    omega
  | succ rounds ih =>
    rw [scanCurl]
    cases hc : segment[i]? with
    | none =>
      refine iff_of_false (by simp) fun ⟨f, hif, hup, _⟩ => ?_
      have := (List.getElem?_eq_some_iff.1 hup.dash).1
      have := List.getElem?_eq_none_iff.1 hc
      omega
    | some c =>
      simp only
      split
      · next hend => rw [ih (by omega), found_terminator hc hend]
      · next hend =>
        split
        · next hcurl =>
          rw [Bool.and_eq_true, Bool.not_eq_true'] at hcurl
          rw [ih (by omega), hcurl.1, found_curl hcurl.2]
        · next hcurl =>
          split
          · next hup =>
            rw [Bool.and_eq_true, Bool.and_eq_true] at hup
            have hbehind := (uploadsBehind_iff (flagAt_le hup.1.2)).1 hup.2
            exact iff_of_true rfl ⟨i, le_rfl, ⟨hup.1.2, hbehind⟩, .inl ⟨hup.1.1, fun k hk hki => by omega⟩⟩
          · next hup =>
            rw [ih (by omega), found_pass hc (by simpa using hend)]
            · rintro rfl
              simpa using hcurl
            · rintro rfl ⟨hflag, hbehind⟩
              refine hup ?_
              rw [hflag, (uploadsBehind_iff (flagAt_le hflag)).2 hbehind]
              rfl

end Scan

/-! ## The patterns -/

section Patterns

variable {segment : JsString} {i j k f : ℕ} {c u : UInt16}

theorem word_of_lowerAscii (h : lowerAscii u = c) (hc : isAsciiWordChar c = true) :
    isAsciiWordChar u = true := by
  unfold lowerAscii at h
  split at h
  · next hupper => simp [isAsciiWordChar, hupper]
  · rw [h]
    exact hc

theorem wordAt_of_letterAt (h : letterAt segment i c = true) (hc : isAsciiWordChar c = true) :
    wordAt segment i = true := by
  obtain ⟨u, hu, hl⟩ := letterAt_iff.1 h
  rw [wordAt, hu]
  exact word_of_lowerAscii hl hc

/-- The lookups at a `curl` are its letters between the two ends of a word. -/
theorem curlAt_iff : curlAt segment i = true ↔
    (letterAt segment i 0x63 = true ∧ letterAt segment (i + 1) 0x75 = true ∧
      letterAt segment (i + 2) 0x72 = true ∧ letterAt segment (i + 3) 0x6C = true) ∧
        boundaryAt segment i = true ∧ boundaryAt segment (i + 4) = true := by
  constructor
  · intro h
    have hletters := curlAt_letters h
    have hin := wordAt_of_letterAt hletters.1 rfl
    have hlast := wordAt_of_letterAt hletters.2.2.2 rfl
    simp only [curlAt, Bool.and_eq_true, Bool.or_eq_true, decide_eq_true_eq] at h
    obtain ⟨⟨-, hstart⟩, hend⟩ := h
    refine ⟨hletters, ?_, ?_⟩
    · cases i with
      | zero => exact hin
      | succ i =>
        rw [boundaryAt, hin]
        simpa using hstart
    · have hout : wordAt segment (i + 4) = false := by
        rcases hend with hend | hend
        · rw [wordAt, List.getElem?_eq_none hend.ge]
          rfl
        · simpa using hend
      rw [boundaryAt, hlast, hout]
      rfl
  · rintro ⟨⟨h0, h1, h2, h3⟩, hstart, hend⟩
    have hin := wordAt_of_letterAt h0 rfl
    have hlast := wordAt_of_letterAt h3 rfl
    have hlen : i + 4 ≤ segment.length := by
      obtain ⟨u, hu, -⟩ := letterAt_iff.1 h3
      exact (List.getElem?_eq_some_iff.1 hu).1
    rw [boundaryAt, hlast] at hend
    simp only [curlAt, h0, h1, h2, h3, hlen, Bool.and_eq_true, decide_true, and_true, Bool.or_eq_true,
      decide_eq_true_eq]
    refine ⟨⟨trivial, ?_⟩, .inr (by simpa using hend)⟩
    cases i with
    | zero => exact .inl rfl
    | succ i =>
      rw [boundaryAt, hin] at hstart
      exact .inr (by simpa using hstart)

/-- The word of the pattern is the one the loop looks for. -/
theorem mem_ends_curlWord : j ∈ CurlForm.curlWord.ends segment i ↔ j = i + 4 ∧ curlAt segment i = true := by
  have hword : (∀ k (hk : k < 4), ∃ u, segment[i + k]? = some u ∧
      lowerAscii u = [(0x63 : UInt16), 0x75, 0x72, 0x6C][k]) ↔ letterAt segment i 0x63 = true ∧
        letterAt segment (i + 1) 0x75 = true ∧ letterAt segment (i + 2) 0x72 = true ∧
          letterAt segment (i + 3) 0x6C = true := by
    simp only [letterAt_iff]
    constructor
    · exact fun h => ⟨h 0 (by decide), h 1 (by decide), h 2 (by decide), h 3 (by decide)⟩
    · rintro ⟨h0, h1, h2, h3⟩ k hk
      match k, hk with
      | 0, _ => exact h0
      | 1, _ => exact h1
      | 2, _ => exact h2
      | 3, _ => exact h3
  simp only [CurlForm.curlWord, Matcher.mem_ends_seq, Matcher.mem_ends_boundary, Matcher.mem_ends_word,
    List.length_cons, List.length_nil, Nat.zero_add, Nat.reduceAdd, curlAt_iff]
  constructor
  · rintro ⟨k, ⟨rfl, hstart⟩, hall, rfl, hend⟩
    exact ⟨rfl, hword.1 hall, hstart, hend⟩
  · rintro ⟨rfl, hletters, hstart, hend⟩
    exact ⟨i, ⟨rfl, hstart⟩, hword.2 hletters, rfl, hend⟩

theorem mem_ends_flag : j ∈ CurlForm.flag.ends segment i ↔ j = i + 2 ∧ flagAt segment i = true := by
  simp only [CurlForm.flag, Matcher.mem_ends_seq, Matcher.char, Matcher.letter, Matcher.mem_ends_unit,
    decide_eq_true_eq, flagAt, Bool.and_eq_true, letterAt_iff]
  constructor
  · rintro ⟨k, ⟨rfl, u, hu, rfl⟩, rfl, hletter⟩
    exact ⟨rfl, hu, hletter⟩
  · rintro ⟨rfl, hdash, hletter⟩
    exact ⟨i + 1, ⟨rfl, 0x2D, hdash, rfl⟩, rfl, hletter⟩

theorem mem_ends_dots : j ∈ (Matcher.many Matcher.dot).ends segment i ↔ i ≤ j ∧ OneLine segment i j := by
  rw [Matcher.dot, Matcher.mem_ends_many_unit]
  simp only [OneLine, Bool.not_eq_true']

/-- The pattern matches from a place. -/
theorem mem_ends_pattern : (∃ j, j ∈ CurlForm.pattern.ends segment i) ↔
    curlAt segment i = true ∧ ∃ f, i + 4 ≤ f ∧ OneLine segment (i + 4) f ∧ UploadAt segment f := by
  simp only [CurlForm.pattern, Matcher.mem_ends_seq, mem_ends_curlWord, mem_ends_dots, mem_ends_flag]
  constructor
  · rintro ⟨j, _, ⟨rfl, hcurl⟩, f, ⟨hle, hline⟩, _, ⟨rfl, hflag⟩, hup⟩
    exact ⟨hcurl, f, hle, hline, hflag, j, hup⟩
  · rintro ⟨hcurl, f, hle, hline, hflag, j, hup⟩
    exact ⟨j, i + 4, ⟨rfl, hcurl⟩, f, ⟨hle, hline⟩, f + 2, ⟨rfl, hflag⟩, hup⟩

theorem curlAt_le (h : curlAt segment i = true) : i + 4 ≤ segment.length := by
  obtain ⟨u, hu, -⟩ := letterAt_iff.1 (curlAt_letters h).2.2.2
  exact (List.getElem?_eq_some_iff.1 hu).1

theorem test_pattern : CurlForm.pattern.test segment = true ↔ Found segment 0 false := by
  rw [Matcher.test_eq_true]
  · simp only [mem_ends_pattern]
    constructor
    · rintro ⟨i, hcurl, f, hle, hline, hup⟩
      exact ⟨f, Nat.zero_le f, hup, .inr ⟨i, Nat.zero_le i, hcurl, hle, hline⟩⟩
    · rintro ⟨f, -, hup, ⟨hno, -⟩ | ⟨i, -, hcurl, hle, hline⟩⟩
      · exact absurd hno (by decide)
      · exact ⟨i, hcurl, f, hle, hline, hup⟩
  · intro i j hj
    have := curlAt_le (mem_ends_pattern.1 ⟨j, hj⟩).1
    omega

/-- The line of a place begins somewhere. -/
theorem exists_lineStart : ∀ i, i ≤ segment.length → ∃ start, start ≤ i ∧ lineStartAt segment start = true ∧
    OneLine segment start i
  | 0, _ => ⟨0, le_rfl, rfl, fun k hk hki => by omega⟩
  | i + 1, hi => by
    have hu := List.getElem?_eq_getElem (show i < segment.length from hi)
    by_cases hend : isLineTerminator segment[i] = true
    · exact ⟨i + 1, le_rfl, by rw [lineStartAt, hu]; exact hend, fun k hk hki => by omega⟩
    · obtain ⟨start, hle, hstart, hline⟩ := exists_lineStart i (by omega)
      refine ⟨start, by omega, hstart, fun k hk hki => ?_⟩
      rcases Nat.eq_or_lt_of_le (Nat.lt_succ_iff.1 hki) with rfl | hlt
      · exact ⟨_, hu, by simpa using hend⟩
      · exact hline k hk hlt

/-- A repetition of `.` that looks ahead for a pattern first. -/
theorem mem_ends_until {a : Matcher} : j ∈ (Matcher.many (.seq (.notAhead a) .dot)).ends segment i ↔
    i ≤ j ∧ ∀ k, i ≤ k → k < j → a.ends segment k = [] ∧
      ∃ u, segment[k]? = some u ∧ isLineTerminator u = false := by
  refine Matcher.mem_ends_many (fun k j => ?_) fun k ⟨_, u, hu, _⟩ => (List.getElem?_eq_some_iff.1 hu).1
  simp only [Matcher.mem_ends_seq, Matcher.mem_ends_notAhead, Matcher.dot, Matcher.mem_ends_unit,
    Bool.not_eq_true']
  constructor
  · rintro ⟨_, ⟨rfl, hnot⟩, rfl, hu⟩
    exact ⟨rfl, hnot, hu⟩
  · rintro ⟨rfl, hnot, hu⟩
    exact ⟨k, ⟨rfl, hnot⟩, rfl, hu⟩

/-- From a place on there is a first one of its kind. -/
theorem exists_first {p : ℕ → Bool} (hij : i ≤ j) (hj : p j = true) : ∃ k, i ≤ k ∧ k ≤ j ∧ p k = true ∧
    ∀ m, i ≤ m → m < k → p m = false := by
  have hexists : ∃ k, i ≤ k ∧ p k = true := ⟨j, hij, hj⟩
  obtain ⟨hle, hfirst⟩ := Nat.find_spec hexists
  refine ⟨Nat.find hexists, hle, Nat.find_min' hexists ⟨hij, hj⟩, hfirst, fun m him hm => ?_⟩
  simpa [him] using Nat.find_min hexists hm

/-- Where the scan finds an upload the filter matches : at the first `curl` of the line, and the
first `-F` behind it. -/
theorem test_filter (h : Found segment 0 false) : CurlForm.filter.test segment = true := by
  obtain ⟨f, -, hup, ⟨hno, -⟩ | ⟨c, -, hcurl, hcf, hline⟩⟩ := h
  · exact absurd hno (by decide)
  have hclen := curlAt_le hcurl
  obtain ⟨start, hsc, hstart, hfront⟩ := exists_lineStart c ((Nat.le_add_right c 4).trans hclen)
  have hwhole : OneLine segment start f := fun k hk hkf => by
    rcases lt_or_ge k c with hlt | hge
    · exact hfront k hk hlt
    · exact hline.curl hcurl k hge hkf
  obtain ⟨c₀, hs₀, hc₀, hcurl₀, hleast⟩ := exists_first hsc hcurl
  obtain ⟨f₀, hcf₀, hf₀, hflag₀, hleast'⟩ := exists_first ((Nat.add_le_add_right hc₀ 4).trans hcf) hup.1
  have hnone : ∀ {a : Matcher} {k : ℕ}, (∀ j, j ∉ a.ends segment k) → a.ends segment k = [] := fun h =>
    List.eq_nil_iff_forall_not_mem.2 h
  rw [CurlForm.filter, Matcher.test, List.any_eq_true]
  refine ⟨start, List.mem_range.2 (by omega),
    decide_eq_true (List.ne_nil_of_mem (a := f₀ + 2) ?_)⟩
  rw [Matcher.mem_ends_seq]
  refine ⟨start, Matcher.mem_ends_lineStart.2 ⟨rfl, hstart⟩, Matcher.mem_ends_seq.2 ⟨c₀, ?_, ?_⟩⟩
  · refine mem_ends_until.2 ⟨hs₀, fun k hk hlt => ⟨hnone fun j hj => ?_, hwhole k hk (by omega)⟩⟩
    exact absurd (mem_ends_curlWord.1 hj).2 (by rw [hleast k hk hlt]; decide)
  · refine Matcher.mem_ends_seq.2 ⟨c₀ + 4, mem_ends_curlWord.2 ⟨rfl, hcurl₀⟩, Matcher.mem_ends_seq.2
      ⟨f₀, mem_ends_until.2 ⟨hcf₀, fun k hk hlt => ⟨hnone fun j hj => ?_, hwhole k (by omega) (by omega)⟩⟩,
        mem_ends_flag.2 ⟨rfl, hflag₀⟩⟩⟩
    exact absurd (mem_ends_flag.1 hj).2 (by rw [hleast' k hk hlt]; decide)

end Patterns

/-- The scan finds an upload exactly where the pattern matches somewhere, and then the filter
matches too. -/
theorem curlFormUploadsFile_iff (segment : JsString) :
    (curlFormUploadsFile segment = true ↔ CurlForm.pattern.test segment = true) ∧
      (curlFormUploadsFile segment = true → CurlForm.filter.test segment = true) := by
  have hscan : curlFormUploadsFile segment = true ↔ Found segment 0 false := scanCurl_iff (Nat.sub_le _ _)
  exact ⟨hscan.trans test_pattern.symm, fun h => test_filter (hscan.1 h)⟩

end Lynox.Guard
