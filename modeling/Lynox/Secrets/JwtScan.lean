import Lynox.Text.ClassPattern

/-!
# The linear scan for tokens

A JWT shape is a pattern `eyJ….….…`. `jwtSpanFrom` finds its first match run by run : all starts in a
run of base64url characters share the end of the run and what stands behind it. It finds what
backtracking finds (`jwtSpanFrom_eq`), so `LinearJwtRegExp` answers any call as the plain pattern does.
-/

namespace Lynox.Secrets

open Text

/-! ## Shapes -/

structure Segment where
  least : ℕ
  wordEnd : Bool

/-- A shape : the pattern it stands for, and its parts. Without a third segment the match ends at the
second dot. -/
structure JwtShapeSpec where
  regex : ClassPattern
  wordStart : Bool
  s1 : ℕ
  s2Eyj : Bool
  s2 : ℕ
  s3 : Option Segment

def isB64 (c : UInt16) : Bool :=
  isAsciiWordChar c || c = 0x2D

def eyJ : JsString := utf16 "eyJ"

def DOT : UInt16 := 0x2E

/-- At least so many base64url characters. -/
def b64 (least : ℕ) : ClassPattern :=
  .repeated least none isB64

/-- The pattern of the third segment. -/
def Segment.pattern (s3 : Segment) : List ClassPattern :=
  b64 s3.least :: if s3.wordEnd then [.boundary] else []

/-- The pattern behind the first segment. -/
def JwtShapeSpec.tail (spec : JwtShapeSpec) : List ClassPattern :=
  .char DOT :: ((if spec.s2Eyj then [.text eyJ] else []) ++
    b64 spec.s2 :: .char DOT :: spec.s3.elim [] Segment.pattern)

/-- The pattern that the parts of a shape give. -/
def JwtShapeSpec.pattern (spec : JwtShapeSpec) : ClassPattern :=
  .cat ((if spec.wordStart then [.boundary] else []) ++ .text eyJ :: b64 spec.s1 :: spec.tail)

/-! ## The scan -/

/-- The end of a run. -/
def runEnd (text : JsString) (start : ℕ) : ℕ :=
  start + runLength isB64 text start

/-- The last place down to `lo`, behind `start`, where a word begins or ends. -/
def backOff (text : JsString) (lo start : ℕ) : ℕ → Option ℕ
  | 0 => none
  | e + 1 =>
    if lo ≤ e + 1 ∧ start < e + 1 then
      if (text[e]?.any isAsciiWordChar != text[e + 1]?.any isAsciiWordChar) then some (e + 1)
      else backOff text lo start e
    else none

/-- The end of a match whose first segment ends at `r1`. -/
def tailEnd (text : JsString) (spec : JwtShapeSpec) (r1 : ℕ) : Option ℕ :=
  if text[r1]? ≠ some DOT then none
  else
    let r2 := runEnd text (r1 + 1)
    let len2 := r2 - (r1 + 1)
    let ok2 := if spec.s2Eyj then At text eyJ (r1 + 1) ∧ 3 + spec.s2 ≤ len2 else spec.s2 ≤ len2
    if ¬ok2 ∨ text[r2]? ≠ some DOT then none
    else
      match spec.s3 with
      | none => some (r2 + 1)
      | some s3 =>
        let r3 := runEnd text (r2 + 1)
        let lo := r2 + 1 + s3.least
        if r3 < lo then none
        else if !s3.wordEnd then some r3
        else backOff text lo (r2 + 1) r3

/-- A start that the shape may have. -/
def opensAt (text : JsString) (spec : JwtShapeSpec) (p : ℕ) : Bool :=
  At text eyJ p ∧ ¬(spec.wordStart ∧ 0 < p ∧ text[p - 1]?.any isAsciiWordChar)

/-- The walk from run to run, for at most so many runs. -/
def walk (text : JsString) (spec : JwtShapeSpec) : ℕ → ℕ → Option (ℕ × ℕ)
  | 0, _ => none
  | n + 1, i =>
    if i < text.length then
      match indexOf text eyJ i with
      | none => none
      | some first =>
        let r1 := runEnd text (first + 3)
        let found := (tailEnd text spec r1).bind fun tail =>
          ((List.range' first (r1 + 1 - (3 + spec.s1) - first)).find? (opensAt text spec)).map
            fun p => (p, tail)
        found.orElse fun _ => walk text spec n r1
    else none

def jwtSpanFrom (text : JsString) (spec : JwtShapeSpec) (start : ℕ) : Option (ℕ × ℕ) :=
  walk text spec (text.length - start) start

/-! ## Calls -/

/-- An answer of `exec` : the text of the match and where it begins. -/
structure Match where
  index : ℕ
  text : JsString

/-- `exec` of a pattern whose global matches are found by `spanFrom`, with `lastIndex` before and
after. -/
def execWith (spanFrom : JsString → ℕ → Option (ℕ × ℕ)) (isGlobal : Bool) (text : JsString)
    (lastIndex : ℕ) : Option Match × ℕ :=
  let start := if isGlobal then lastIndex else 0
  let span := if start ≤ text.length then spanFrom text start else none
  match span with
  | none => (none, if isGlobal then 0 else lastIndex)
  | some (i, e) => (some ⟨i, slice text i e⟩, if isGlobal then e else lastIndex)

/-- Calls one after the other, each on its text. -/
def calls (exec : JsString → ℕ → Option Match × ℕ) : ℕ → List JsString → List (Option Match)
  | _, [] => []
  | lastIndex, text :: texts =>
    let (found, lastIndex) := exec text lastIndex
    found :: calls exec lastIndex texts

namespace LinearJwtRegExp

def exec (spec : JwtShapeSpec) (isGlobal : Bool) : JsString → ℕ → Option Match × ℕ :=
  execWith (fun text start => jwtSpanFrom text spec start) isGlobal

end LinearJwtRegExp

/-! ## The shapes in use -/

def JWT_SHAPE : JwtShapeSpec where
  regex := .cat [.boundary, .text eyJ, b64 10, .char DOT, .text eyJ, b64 10, .char DOT, b64 1, .boundary]
  wordStart := true
  s1 := 10
  s2Eyj := true
  s2 := 10
  s3 := some ⟨1, true⟩

def JWT_EGRESS_WIDE : JwtShapeSpec where
  regex := .cat [.text eyJ, b64 10, .char DOT, b64 10, .char DOT]
  wordStart := false
  s1 := 10
  s2Eyj := false
  s2 := 10
  s3 := none

def JWT_DEBUG_VALUE : JwtShapeSpec where
  regex := .cat [.text eyJ, b64 10, .char DOT, b64 10, .char DOT, b64 0]
  wordStart := false
  s1 := 10
  s2Eyj := false
  s2 := 10
  s3 := some ⟨0, false⟩

def JWT_AUDIT_PREVIEW : JwtShapeSpec where
  regex := .cat [.text eyJ, b64 10, .char DOT, b64 10, .char DOT, b64 10]
  wordStart := false
  s1 := 10
  s2Eyj := false
  s2 := 10
  s3 := some ⟨10, false⟩

def JWT_PROCESS_CAPTURE : JwtShapeSpec where
  regex := .cat [.boundary, .text eyJ, b64 8, .char DOT, b64 8, .char DOT, b64 8]
  wordStart := true
  s1 := 8
  s2Eyj := false
  s2 := 8
  s3 := some ⟨8, false⟩

def JWT_INBOX : JwtShapeSpec where
  regex := .cat [.boundary, .text eyJ, b64 15, .char DOT, b64 15, .char DOT, b64 15, .boundary]
  wordStart := true
  s1 := 15
  s2Eyj := false
  s2 := 15
  s3 := some ⟨15, true⟩

def JWT_SPECS : List JwtShapeSpec :=
  [JWT_SHAPE, JWT_EGRESS_WIDE, JWT_DEBUG_VALUE, JWT_AUDIT_PREVIEW, JWT_PROCESS_CAPTURE, JWT_INBOX]

/-! ## Behind the first segment -/

section Tail

variable {text : JsString} {spec : JwtShapeSpec} {i e lo p r1 : ℕ}

theorem isB64_dot : isB64 DOT = false := by
  decide

/-- No dot stands inside a run. -/
theorem ne_dot_of_lt {j : ℕ} (h : j < runLength isB64 text i) : text[i + j]? ≠ some DOT := by
  intro hat
  have hb := any_of_lt_runLength h
  rw [hat, Option.any_some, isB64_dot] at hb
  cases hb

theorem boundaryAt_succ : boundaryAt text (e + 1) =
    (text[e]?.any isAsciiWordChar != text[e + 1]?.any isAsciiWordChar) :=
  rfl

/-- The walk back over a run is the repetition of at least one unit in front of a boundary. -/
theorem backOff_eq {least : ℕ} : ∀ n, backOff text (i + least) i (i + n) =
    ((List.range (n + 1)).drop (max 1 least)).reverse.findSome?
      fun j => if boundaryAt text (i + j) then some (i + j) else none
  | 0 => by
    rw [List.drop_eq_nil_of_le (by simp)]
    cases i with
    | zero => rfl
    | succ i =>
      rw [Nat.add_zero, backOff, if_neg (by omega)]
      rfl
  | n + 1 => by
    rw [← Nat.add_assoc, backOff, ← boundaryAt_succ]
    by_cases hle : least ≤ n + 1
    · rw [if_pos ⟨by omega, by omega⟩, backOff_eq n, List.range_succ (n := n + 1),
        List.drop_append_of_le_length (by simpa using hle), List.reverse_append,
        List.reverse_singleton, List.singleton_append, List.findSome?_cons, Nat.add_assoc]
      split <;> rfl
    · rw [if_neg (by omega), List.drop_eq_nil_of_le (by simp; omega)]
      rfl

/-- A word that begins at a place ends in its run. -/
theorem exists_boundary (hword : text[i]?.any isAsciiWordChar = true) :
    ∃ m, 0 < m ∧ m ≤ runLength isB64 text i ∧ boundaryAt text (i + m) = true := by
  have hle : runLength isAsciiWordChar text i ≤ runLength isB64 text i := by
    by_contra hlt
    have hword' := any_of_lt_runLength (not_le.1 hlt)
    have hnot := not_any_runLength isB64 text i
    cases hunit : text[i + runLength isB64 text i]? with
    | none => simp [hunit] at hword'
    | some c =>
      rw [hunit, Option.any_some] at hword' hnot
      simp [isB64, hword'] at hnot
  obtain ⟨m, hm⟩ : ∃ m, runLength isAsciiWordChar text i = m + 1 := by
    rw [runLength_eq, if_pos hword]
    exact ⟨_, rfl⟩
  have hlast := any_of_lt_runLength (p := isAsciiWordChar) (s := text) (i := i) (j := m) (by omega)
  have hbehind := not_any_runLength isAsciiWordChar text i
  rw [hm] at hbehind hle
  refine ⟨m + 1, Nat.succ_pos m, hle, ?_⟩
  rw [← Nat.add_assoc, boundaryAt_succ, hlast, Nat.add_assoc, hbehind]
  rfl

/-- The third segment in front of a word boundary, behind a dot. -/
theorem first_wordEnd {least : ℕ} (hdot : text[i]? = some DOT) :
    (ClassPattern.cat [b64 least, .boundary]).first text (i + 1) some =
      backOff text (i + 1 + least) (i + 1) (i + 1 + runLength isB64 text (i + 1)) := by
  rw [backOff_eq, ClassPattern.first_cat_cons, b64, ClassPattern.first_repeated]
  simp only [ClassPattern.first_cat_cons, ClassPattern.first_boundary, ClassPattern.first_cat_nil]
  cases least with
  | succ least => rw [Nat.max_eq_right (by omega)]
  | zero =>
    -- no unit is tried last, and a boundary there leaves one at the end of a word
    rw [List.range_succ_eq_map, Nat.max_eq_left (by omega), List.drop_zero, List.drop_one, List.tail_cons,
      List.reverse_cons, List.findSome?_append]
    by_cases hboundary : boundaryAt text (i + 1) = true
    · have hword : text[i + 1]?.any isAsciiWordChar = true := by
        rw [boundaryAt_succ, hdot] at hboundary
        simpa [isAsciiWordChar, DOT] using hboundary
      obtain ⟨m, hpos, hle, hm⟩ := exists_boundary hword
      obtain ⟨e, he⟩ : ∃ e, ((List.range (runLength isB64 text (i + 1))).map Nat.succ).reverse.findSome?
          (fun j => if boundaryAt text (i + 1 + j) then some (i + 1 + j) else none) = some e := by
        rw [← Option.isSome_iff_exists, List.findSome?_isSome_iff]
        refine ⟨m, ?_, by rw [hm]; rfl⟩
        rw [List.mem_reverse, List.mem_map]
        exact ⟨m - 1, List.mem_range.2 (by omega), by omega⟩
      rw [he]
      rfl
    · rw [List.findSome?_cons, Nat.add_zero, if_neg hboundary, List.findSome?_nil, Option.or_none]

theorem runLength_eyJ (h : At text eyJ i) : runLength isB64 text i = runLength isB64 text (i + 3) + 3 := by
  have hunit : ∀ j (hj : j < eyJ.length), text[i + j]?.any isB64 = true := by
    intro j hj
    rw [h.getElem? hj, Option.any_some]
    have hall : eyJ.all isB64 = true := by decide
    exact List.all_eq_true.1 hall _ (List.getElem_mem hj)
  have hzero := hunit 0 (by decide)
  have hone := hunit 1 (by decide)
  have htwo := hunit 2 (by decide)
  rw [Nat.add_zero] at hzero
  rw [runLength_eq, if_pos hzero, runLength_eq, if_pos hone, runLength_eq, if_pos htwo]

/-- Base64url characters in front of a dot. -/
theorem first_b64 {least : ℕ} {as : List ClassPattern} {k : ℕ → Option ℕ} :
    (ClassPattern.cat (b64 least :: .char DOT :: as)).first text i k =
      if least ≤ runLength isB64 text i ∧ text[runEnd text i]? = some DOT then
        (ClassPattern.cat as).first text (runEnd text i + 1) k
      else none := by
  rw [ClassPattern.first_cat_cons, b64, ClassPattern.first_repeated_of_stop fun j hj => ?_]
  · rw [ClassPattern.first_cat_cons, ClassPattern.first_char, ite_and]
    rfl
  · rw [ClassPattern.first_cat_cons, ClassPattern.first_char, if_neg (ne_dot_of_lt hj)]

/-- What the third segment reads behind a dot. -/
theorem first_third {r2 : ℕ} (hdot : text[r2]? = some DOT) :
    (ClassPattern.cat (spec.s3.elim [] Segment.pattern)).first text (r2 + 1) some =
      match spec.s3 with
      | none => some (r2 + 1)
      | some s3 =>
        let r3 := runEnd text (r2 + 1)
        let lo := r2 + 1 + s3.least
        if r3 < lo then none
        else if !s3.wordEnd then some r3
        else backOff text lo (r2 + 1) r3 := by
  cases spec.s3 with
  | none => exact ClassPattern.first_cat_nil
  | some s3 =>
    obtain ⟨least, wordEnd⟩ := s3
    show (ClassPattern.cat (b64 least :: if wordEnd then [.boundary] else [])).first text (r2 + 1) some = _
    cases wordEnd with
    | false =>
      rw [if_neg Bool.false_ne_true, ClassPattern.first_cat_cons]
      simp only [ClassPattern.first_cat_nil]
      rw [b64, ClassPattern.first_repeated_some]
      show _ = if runEnd text (r2 + 1) < r2 + 1 + least then none else some (runEnd text (r2 + 1))
      unfold runEnd
      split
      · rw [if_neg (by omega)]
      · rw [if_pos (by omega)]
    | true =>
      rw [if_pos rfl, first_wordEnd hdot]
      show _ = if runEnd text (r2 + 1) < r2 + 1 + least then none
        else backOff text (r2 + 1 + least) (r2 + 1) (runEnd text (r2 + 1))
      unfold runEnd
      split
      · rw [backOff_eq, List.drop_eq_nil_of_le (by simp; omega)]
        rfl
      · rfl

/-- The second segment in front of a dot. -/
theorem first_second {s2Eyj : Bool} {s2 : ℕ} {as : List ClassPattern} {k : ℕ → Option ℕ} :
    (ClassPattern.cat ((if s2Eyj then [.text eyJ] else []) ++ b64 s2 :: .char DOT :: as)).first text i k =
      if (if s2Eyj then At text eyJ i ∧ 3 + s2 ≤ runLength isB64 text i
          else s2 ≤ runLength isB64 text i) ∧ text[runEnd text i]? = some DOT then
        (ClassPattern.cat as).first text (runEnd text i + 1) k
      else none := by
  cases s2Eyj with
  | false => exact first_b64.trans (ite_congr (propext (by simp)) (fun _ => rfl) fun _ => rfl)
  | true =>
    rw [if_pos rfl, List.singleton_append, ClassPattern.first_cat_cons, ClassPattern.first_text, first_b64]
    by_cases heyJ : At text eyJ i
    · have hrunEnd : runEnd text (i + eyJ.length) = runEnd text i := by
        unfold runEnd
        rw [runLength_eyJ heyJ, show eyJ.length = 3 from rfl]
        omega
      rw [if_pos heyJ, hrunEnd]
      refine ite_congr (propext ?_) (fun _ => rfl) fun _ => rfl
      have hlength : s2 ≤ runLength isB64 text (i + eyJ.length) ↔ 3 + s2 ≤ runLength isB64 text i := by
        rw [runLength_eyJ heyJ, show eyJ.length = 3 from rfl]
        omega
      simp [heyJ, hlength]
    · rw [if_neg heyJ]
      simp [heyJ]

/-- The end of a match whose first segment ends at a place, as the pattern gives it. -/
theorem tailEnd_eq : tailEnd text spec r1 = (ClassPattern.cat spec.tail).first text r1 some := by
  rw [JwtShapeSpec.tail, ClassPattern.first_cat_cons, ClassPattern.first_char, tailEnd]
  by_cases hdot : text[r1]? = some DOT
  · have hrun : runEnd text (r1 + 1) - (r1 + 1) = runLength isB64 text (r1 + 1) :=
      Nat.add_sub_cancel_left _ _
    rw [if_neg (not_not.2 hdot), if_pos hdot, first_second]
    simp only [hrun]
    by_cases hok : (if spec.s2Eyj then At text eyJ (r1 + 1) ∧ 3 + spec.s2 ≤ runLength isB64 text (r1 + 1)
        else spec.s2 ≤ runLength isB64 text (r1 + 1)) ∧ text[runEnd text (r1 + 1)]? = some DOT
    · rw [if_neg (not_or.2 ⟨not_not.2 hok.1, not_not.2 hok.2⟩), if_pos hok, first_third hok.2]
    · rw [if_pos (not_and_or.1 hok), if_neg hok]
  · rw [if_pos hdot, if_neg hdot]

end Tail

/-! ## The walk -/

section Walk

variable {text : JsString} {spec : JwtShapeSpec} {i p first : ℕ}

theorem wordStart_iff (heyJ : At text eyJ p) : boundaryAt text p = true ↔
    ¬(0 < p ∧ text[p - 1]?.any isAsciiWordChar) := by
  have hword : text[p]?.any isAsciiWordChar = true := by
    have hunit := heyJ.getElem? (k := 0) (by decide)
    rw [Nat.add_zero] at hunit
    rw [hunit]
    rfl
  cases p with
  | zero => simpa [boundaryAt, wordAt] using hword
  | succ p =>
    rw [boundaryAt_succ, hword, Nat.add_sub_cancel]
    simp

/-- A match begins where the shape may start, and is decided by the end of its run. -/
theorem first_pattern : spec.pattern.first text p some =
    if opensAt text spec p ∧ p + 3 + spec.s1 ≤ runEnd text (p + 3) then
      tailEnd text spec (runEnd text (p + 3))
    else none := by
  have hbody : (ClassPattern.cat (.text eyJ :: b64 spec.s1 :: spec.tail)).first text p some =
      if At text eyJ p ∧ p + 3 + spec.s1 ≤ runEnd text (p + 3) then
        tailEnd text spec (runEnd text (p + 3))
      else none := by
    rw [ClassPattern.first_cat_cons, ClassPattern.first_text, tailEnd_eq, JwtShapeSpec.tail, first_b64,
      ClassPattern.first_cat_cons, ClassPattern.first_char, show eyJ.length = 3 from rfl]
    have hlength : spec.s1 ≤ runLength isB64 text (p + 3) ↔ p + 3 + spec.s1 ≤ runEnd text (p + 3) := by
      unfold runEnd
      omega
    by_cases heyJ : At text eyJ p
    · rw [if_pos heyJ]
      simp [heyJ, hlength, ite_and]
    · rw [if_neg heyJ]
      simp [heyJ]
  unfold JwtShapeSpec.pattern
  cases hstart : spec.wordStart with
  | false =>
    rw [if_neg Bool.false_ne_true, List.nil_append, hbody]
    simp [opensAt, hstart]
  | true =>
    rw [if_pos rfl, List.singleton_append, ClassPattern.first_cat_cons, ClassPattern.first_boundary, hbody]
    by_cases heyJ : At text eyJ p
    · have hopens : opensAt text spec p = true ↔ boundaryAt text p = true := by
        rw [wordStart_iff heyJ]
        simp [opensAt, hstart, heyJ, Nat.pos_iff_ne_zero, or_iff_not_imp_left]
      simp only [hopens, heyJ, true_and, ite_and]
    · simp [opensAt, heyJ]

/-- A run has one end. -/
theorem runEnd_eq {start : ℕ} : ∀ {j : ℕ}, start + j ≤ runEnd text start →
    runEnd text (start + j) = runEnd text start
  | 0, _ => rfl
  | j + 1, h => by
    have ih : runEnd text (start + j) = runEnd text start := runEnd_eq (by omega)
    rw [← ih]
    have hunit := any_of_lt_runLength (p := isB64) (s := text) (i := start) (j := j) (by
      unfold runEnd at h
      omega)
    unfold runEnd
    rw [← Nat.add_assoc, runLength_eq (i := start + j), if_pos hunit]
    omega

/-- All starts in a run share its end. -/
theorem runEnd_shared (hat : At text eyJ p) (hle : first ≤ p) (hlt : p < runEnd text (first + 3)) :
    p + 3 ≤ runEnd text (first + 3) ∧ runEnd text (p + 3) = runEnd text (first + 3) := by
  have hfits : p + 3 ≤ runEnd text (first + 3) := by
    by_contra hgt
    obtain ⟨j, hj⟩ : ∃ j, runEnd text (first + 3) = p + j := ⟨runEnd text (first + 3) - p, by omega⟩
    have hstop := not_any_runLength isB64 text (first + 3)
    have hlength : j < eyJ.length := by
      rw [show eyJ.length = 3 from rfl]
      omega
    have hall : eyJ.all isB64 = true := by decide
    rw [show first + 3 + runLength isB64 text (first + 3) = p + j from hj, hat.getElem? hlength,
      Option.any_some, List.all_eq_true.1 hall _ (List.getElem_mem hlength)] at hstop
    cases hstop
  refine ⟨hfits, ?_⟩
  obtain ⟨j, rfl⟩ : ∃ j, p = first + j := ⟨p - first, by omega⟩
  rw [show first + j + 3 = first + 3 + j by omega]
  exact runEnd_eq (by omega)

/-- What the starts of a run give. -/
theorem first_pattern_of_run (hle : first ≤ p) (hlt : p < runEnd text (first + 3)) :
    spec.pattern.first text p some =
      if opensAt text spec p ∧ p + 3 + spec.s1 ≤ runEnd text (first + 3) then
        tailEnd text spec (runEnd text (first + 3))
      else none := by
  rw [first_pattern]
  by_cases hopens : opensAt text spec p = true
  · have hat : At text eyJ p := (of_decide_eq_true hopens).1
    rw [(runEnd_shared hat hle hlt).2]
  · rw [if_neg fun h => hopens h.1, if_neg fun h => hopens h.1]

/-- The walk finds the first match of the pattern. -/
theorem walk_eq : ∀ n i, text.length ≤ i + n → walk text spec n i = spec.pattern.exec text i
  | 0, i, h => by
    rw [walk, ClassPattern.exec_eq_none]
    intro l hl
    rw [first_pattern, if_neg]
    rintro ⟨hopens, -⟩
    have hlt := (of_decide_eq_true hopens).1.lt (by decide)
    omega
  | n + 1, i, h => by
    have hnone : ∀ l, ¬At text eyJ l → spec.pattern.first text l some = none := by
      intro l hl
      rw [first_pattern, if_neg fun h => hl (of_decide_eq_true h.1).1]
    rw [walk]
    split
    swap
    · next hi =>
      refine (ClassPattern.exec_eq_none fun l hl => hnone l fun hat => ?_).symm
      have hlt := hat.lt (by decide)
      omega
    cases hindex : indexOf text eyJ i with
    | none =>
      rw [indexOf_eq_none_iff (by decide)] at hindex
      exact (ClassPattern.exec_eq_none fun l hl => hnone l (hindex l hl)).symm
    | some first =>
      obtain ⟨hle, hat, hmin⟩ := (indexOf_eq_some_iff (by decide)).1 hindex
      have hrun : first + 3 ≤ runEnd text (first + 3) := Nat.le_add_right _ _
      have ih := walk_eq n (runEnd text (first + 3)) (by omega)
      rw [ClassPattern.exec_skip hle fun l hl hlt => hnone l (hmin l hl hlt)]
      dsimp only
      cases htail : tailEnd text spec (runEnd text (first + 3)) with
      | none =>
        rw [ClassPattern.exec_skip (j := runEnd text (first + 3)) (by omega) fun l hl hlt => by
          rw [first_pattern_of_run hl hlt, htail, ite_self]]
        exact ih
      | some tail =>
        rw [Option.bind_some]
        cases hfind : (List.range' first (runEnd text (first + 3) + 1 - (3 + spec.s1) - first)).find?
            (opensAt text spec) with
        | none =>
          rw [List.find?_range'_eq_none] at hfind
          rw [ClassPattern.exec_skip (j := runEnd text (first + 3)) (by omega) fun l hl hlt => by
            rw [first_pattern_of_run hl hlt, if_neg]
            rintro ⟨hopens, hfits⟩
            have hclosed := hfind l hl (by omega)
            rw [hopens] at hclosed
            cases hclosed]
          exact ih
        | some p =>
          rw [List.find?_range'_eq_some, List.mem_range'_1] at hfind
          obtain ⟨hopens, ⟨hp, hlt⟩, hclosed⟩ := hfind
          rw [ClassPattern.exec_skip (j := p) hp fun l hl hlp => by
            rw [first_pattern_of_run hl (by omega), if_neg]
            rintro ⟨hopens', -⟩
            have hclosed := hclosed l hl hlp
            rw [hopens'] at hclosed
            cases hclosed]
          refine (ClassPattern.exec_of_first ?_ ?_).symm
          · exact ((of_decide_eq_true hopens).1.lt (by decide)).le
          · rw [first_pattern_of_run hp (by omega), htail, if_pos ⟨hopens, by omega⟩]

/-- The scan finds what the pattern finds. -/
theorem jwtSpanFrom_eq_exec (text : JsString) (spec : JwtShapeSpec) (start : ℕ) :
    jwtSpanFrom text spec start = spec.pattern.exec text start :=
  walk_eq _ _ (by omega)

/-- **The linear scan is its pattern.** For every shape, text and start the scan gives the span of the
first match that backtracking finds from there on, and none where there is none. Calls of `exec` one
after the other, on any texts and from any `lastIndex`, are answered as by the plain pattern; and the
shapes in use stand for the patterns that are written beside them. -/
theorem jwtSpanFrom_eq :
    (∀ (spec : JwtShapeSpec) (text : JsString) (start : ℕ),
        jwtSpanFrom text spec start = spec.pattern.exec text start) ∧
      (∀ (spec : JwtShapeSpec) (isGlobal : Bool) (lastIndex : ℕ) (texts : List JsString),
        calls (LinearJwtRegExp.exec spec isGlobal) lastIndex texts =
          calls (execWith spec.pattern.exec isGlobal) lastIndex texts) ∧
      JWT_SPECS.map JwtShapeSpec.regex = JWT_SPECS.map JwtShapeSpec.pattern := by
  refine ⟨fun spec text start => jwtSpanFrom_eq_exec text spec start,
    fun spec isGlobal lastIndex texts => ?_, rfl⟩
  have hspan : (fun text start => jwtSpanFrom text spec start) = spec.pattern.exec :=
    funext fun text => funext fun start => jwtSpanFrom_eq_exec text spec start
  rw [LinearJwtRegExp.exec, hspan]

end Walk

end Lynox.Secrets
