import Lynox.Text.Find
import Lynox.Text.Matcher
import Mathlib.Computability.Language
import Mathlib.Data.List.Chain

/-!
# Globs as patterns

`globToRegex` writes a glob as a pattern, part by part, and merges a quantifier into one right before it. The
pattern is a text : `readParts` reads it back (`readParts_source`), and the language of its parts is what it
matches. `plain` is what the glob says.

`.` stops at a line terminator, so `**` does not read one. On texts without line terminators the pattern, the
pattern without merging and the glob agree (`agrees_of_oneLine`); on all texts they do when the glob has no
double star. A double star can be given more `\n/` than the other parts of the pattern can read
(`breaks_le`).
-/

namespace Lynox.Guard.Glob

open Text

/-! ## The pattern -/

/-- A part of the emitted pattern. -/
inductive Part
  | any
  | segment
  | one
  | escaped (u : UInt16)
  | literal (u : UInt16)
  deriving DecidableEq

def Part.source : Part → JsString
  | any => utf16 ".*"
  | segment => utf16 "[^/]*"
  | one => utf16 "[^/]"
  | escaped u => [0x5C, u]
  | literal u => [u]

def Part.isQuantifier (p : Part) : Bool :=
  p = .any || p = .segment

/-- `'.+(){}[]^$|\\'` -/
def ESCAPED : JsString :=
  utf16 ".+()\x7b\x7d[]^$|\\"

/-- A quantifier is appended, or merged with the one right before it. -/
def coalesceQuantifier (parts : List Part) (q : Part) : List Part :=
  if parts.getLast? = some .any ∨ parts.getLast? = some .segment then parts.dropLast ++ [.any]
  else parts ++ [q]

/-- The parts of a text that is no wildcard. -/
def charPart (u : UInt16) : Part :=
  if ESCAPED.contains u then .escaped u else .literal u

/-- The parts behind those emitted so far. `push` appends a quantifier. -/
def emit (push : List Part → Part → List Part) (parts : List Part) : JsString → List Part
  | 0x2A :: 0x2A :: 0x2F :: rest => emit push (push parts .any) rest
  | 0x2A :: 0x2A :: rest => emit push (push parts .any) rest
  | 0x2A :: rest => emit push (push parts .segment) rest
  | 0x3F :: rest => emit push (parts ++ [.one]) rest
  | u :: rest => emit push (parts ++ [charPart u]) rest
  | [] => parts

def globParts (glob : JsString) : List Part :=
  emit coalesceQuantifier [] glob

/-- The parts when no quantifier is merged. -/
def unmergedParts (glob : JsString) : List Part :=
  emit (fun parts q => parts ++ [q]) [] glob

/-- `^…$` around the text of the parts. -/
def pattern (parts : List Part) : JsString :=
  0x5E :: parts.flatMap Part.source ++ [0x24]

def globToRegex (glob : JsString) : JsString :=
  pattern (globParts glob)

/-! ## What a pattern matches -/

/-- The parts of a pattern's text. -/
def readParts : JsString → List Part
  | 0x2E :: 0x2A :: rest => .any :: readParts rest
  | 0x5B :: 0x5E :: 0x2F :: 0x5D :: 0x2A :: rest => .segment :: readParts rest
  | 0x5B :: 0x5E :: 0x2F :: 0x5D :: rest => .one :: readParts rest
  | 0x5C :: u :: rest => .escaped u :: readParts rest
  | u :: rest => .literal u :: readParts rest
  | [] => []

def noSlash : Language UInt16 :=
  {s | 0x2F ∉ s}

def notSlash : Language UInt16 :=
  {s | ∃ u, u ≠ 0x2F ∧ s = [u]}

def only (u : UInt16) : Language UInt16 :=
  {[u]}

/-- No line ends in a text. -/
def OneLine (s : JsString) : Prop :=
  ∀ u ∈ s, isLineTerminator u = false

instance : DecidablePred OneLine := fun s => List.decidableBAll _ s

/-- What a part matches : `.` no line terminator, `[^/]` any unit but `/`. -/
def Part.language : Part → Language UInt16
  | any => {s | OneLine s}
  | segment => noSlash
  | one => notSlash
  | escaped u | literal u => only u

def language (parts : List Part) : Language UInt16 :=
  (parts.map Part.language).prod

/-- Whether the pattern `^…$` matches a text. -/
def Matches (pattern s : JsString) : Prop :=
  s ∈ language (readParts pattern.tail.dropLast)

/-- What a glob says. -/
def plain : JsString → Language UInt16
  | 0x2A :: 0x2A :: 0x2F :: rest => ⊤ * plain rest
  | 0x2A :: 0x2A :: rest => ⊤ * plain rest
  | 0x2A :: rest => noSlash * plain rest
  | 0x3F :: rest => notSlash * plain rest
  | u :: rest => only u * plain rest
  | [] => 1

/-! ## The text of a pattern is read back -/

section Text

variable {parts : List Part} {p : Part} {u : UInt16} {glob : JsString}

/-- A part whose text cannot be taken for another. -/
def Part.Written : Part → Prop
  | literal u => u ≠ 0x2E ∧ u ≠ 0x5B ∧ u ≠ 0x5C ∧ u ≠ 0x2A
  | _ => True

theorem written_charPart (hu : u ≠ 0x2A) : (charPart u).Written := by
  unfold charPart
  split
  · trivial
  · next h =>
    refine ⟨?_, ?_, ?_, hu⟩ <;> rintro rfl <;> exact h (by decide)

/-- No part begins with a star. -/
theorem not_star_source : ∀ {parts : List Part}, (∀ p ∈ parts, p.Written) →
    ∀ rest, parts.flatMap Part.source ≠ 0x2A :: rest
  | [], _, rest => by simp
  | p :: parts, h, rest => by
    have hp := h p (.head _)
    rw [List.flatMap_cons]
    cases p with
    | literal u =>
      intro heq
      exact hp.2.2.2 (List.cons.inj heq).1
    | _ => exact fun heq => absurd (List.cons.inj heq).1 (by decide)

theorem readParts_source : ∀ {parts : List Part}, (∀ p ∈ parts, p.Written) →
    readParts (parts.flatMap Part.source) = parts
  | [], _ => by simp [readParts]
  | p :: parts, h => by
    obtain ⟨hp, hparts⟩ := List.forall_mem_cons.1 h
    have ih := readParts_source hparts
    rw [List.flatMap_cons]
    cases p with
    | any => exact congrArg (Part.any :: ·) ih
    | segment => exact congrArg (Part.segment :: ·) ih
    | escaped u =>
      rw [Part.source, List.cons_append, List.singleton_append, readParts, ih]
    | one =>
      rw [show Part.one.source = [0x5B, 0x5E, 0x2F, 0x5D] by decide]
      simp only [List.cons_append, List.nil_append]
      rw [readParts, ih]
      exact not_star_source hparts
    | literal u =>
      obtain ⟨hdot, hbracket, hbackslash, -⟩ := hp
      rw [Part.source, List.singleton_append, readParts, ih]
      · exact fun rest hrest _ => hdot hrest
      · exact fun rest hrest _ => hbracket hrest
      · exact fun rest hrest _ => hbracket hrest
      · exact fun v rest hrest _ => hbackslash hrest

theorem written_push {push : List Part → Part → List Part}
    (hpush : ∀ parts q, q.isQuantifier = true → (∀ p ∈ parts, p.Written) → ∀ p ∈ push parts q, p.Written)
    (glob : JsString) : (∀ p ∈ parts, p.Written) → ∀ p ∈ emit push parts glob, p.Written := by
  fun_induction emit push parts glob with
  | case1 parts rest ih => exact fun h => ih (hpush parts .any rfl h)
  | case2 parts rest _ ih => exact fun h => ih (hpush parts .any rfl h)
  | case3 parts rest _ _ ih => exact fun h => ih (hpush parts .segment rfl h)
  | case4 parts rest ih => exact fun h => ih (List.forall_mem_append.2 ⟨h, by simp [Part.Written]⟩)
  | case5 parts u rest _ _ hstar _ ih =>
    refine fun h => ih (List.forall_mem_append.2 ⟨h, ?_⟩)
    intro p hp
    rw [List.mem_singleton.1 hp]
    exact written_charPart hstar
  | case6 parts => exact id

theorem coalesceQuantifier_written (parts : List Part) (q : Part) (hq : q.isQuantifier = true)
    (h : ∀ p ∈ parts, p.Written) : ∀ p ∈ coalesceQuantifier parts q, p.Written := by
  have hwritten : ∀ p : Part, p.isQuantifier = true → p.Written := by
    intro p hp
    cases p <;> trivial
  unfold coalesceQuantifier
  split
  · refine List.forall_mem_append.2 ⟨fun p hp => h p (List.mem_of_mem_dropLast hp), ?_⟩
    simp [Part.Written]
  · refine List.forall_mem_append.2 ⟨h, fun p hp => ?_⟩
    rw [List.mem_singleton.1 hp]
    exact hwritten q hq

theorem matches_iff {s : JsString} (h : ∀ p ∈ parts, p.Written) :
    Matches (pattern parts) s ↔ s ∈ language parts := by
  unfold Matches pattern
  rw [List.cons_append, List.tail_cons, List.dropLast_concat, readParts_source h]

theorem matches_globToRegex (glob s : JsString) : Matches (globToRegex glob) s ↔ s ∈ language (globParts glob) :=
  matches_iff (written_push coalesceQuantifier_written glob (by simp))

theorem matches_unmerged (glob s : JsString) :
    Matches (pattern (unmergedParts glob)) s ↔ s ∈ language (unmergedParts glob) := by
  refine matches_iff (written_push (fun parts q hq h => ?_) glob (by simp))
  refine List.forall_mem_append.2 ⟨h, fun p hp => ?_⟩
  rw [List.mem_singleton.1 hp]
  cases q <;> trivial

end Text

/-! ## Languages of parts -/

section Languages

variable {parts : List Part} {p : Part} {u : UInt16} {glob rest s t : JsString} {L L' M M' : Language UInt16}

@[simp] theorem language_nil : language [] = 1 := rfl

theorem language_append (parts parts' : List Part) :
    language (parts ++ parts') = language parts * language parts' := by
  unfold language
  rw [List.map_append, List.prod_append]

@[simp] theorem language_singleton : language [p] = p.language := by
  simp [language]

theorem oneLine_append : OneLine (s ++ t) ↔ OneLine s ∧ OneLine t :=
  List.forall_mem_append

/-- Two `.*` read what one does. -/
theorem any_mul_any : Part.any.language * Part.any.language = Part.any.language := by
  ext s
  rw [Language.mem_mul]
  constructor
  · rintro ⟨a, ha, b, hb, rfl⟩
    exact oneLine_append.2 ⟨ha, hb⟩
  · exact fun hs => ⟨s, hs, [], fun u hu => absurd hu List.not_mem_nil, List.append_nil s⟩

/-- Languages that agree on texts of one line. -/
def SameOnLines (L M : Language UInt16) : Prop :=
  ∀ s, OneLine s → (s ∈ L ↔ s ∈ M)

theorem SameOnLines.refl (L : Language UInt16) : SameOnLines L L :=
  fun _ _ => Iff.rfl

theorem SameOnLines.symm (h : SameOnLines L M) : SameOnLines M L :=
  fun s hs => (h s hs).symm

theorem SameOnLines.trans {N : Language UInt16} (h : SameOnLines L M) (h' : SameOnLines M N) :
    SameOnLines L N :=
  fun s hs => (h s hs).trans (h' s hs)

theorem SameOnLines.mul (h : SameOnLines L L') (h' : SameOnLines M M') : SameOnLines (L * M) (L' * M') := by
  intro s hs
  rw [Language.mem_mul, Language.mem_mul]
  constructor
  · rintro ⟨a, ha, b, hb, rfl⟩
    obtain ⟨hsa, hsb⟩ := oneLine_append.1 hs
    exact ⟨a, (h a hsa).1 ha, b, (h' b hsb).1 hb, rfl⟩
  · rintro ⟨a, ha, b, hb, rfl⟩
    obtain ⟨hsa, hsb⟩ := oneLine_append.1 hs
    exact ⟨a, (h a hsa).2 ha, b, (h' b hsb).2 hb, rfl⟩

theorem any_same_top : SameOnLines Part.any.language ⊤ :=
  fun _ hs => iff_of_true hs trivial

/-- On one line `[^/]*` adds nothing to a `.*` before it. -/
theorem any_mul_segment : SameOnLines (Part.any.language * noSlash) Part.any.language := by
  intro s hs
  refine iff_of_true ?_ hs
  exact Language.mem_mul.2 ⟨s, hs, [], List.not_mem_nil, List.append_nil s⟩

theorem charPart_language (u : UInt16) : (charPart u).language = only u := by
  unfold charPart
  split <;> rfl

/-! ### The parts without merging -/

theorem emit_push (glob : JsString) (parts : List Part) :
    emit (fun parts q => parts ++ [q]) parts glob = parts ++ unmergedParts glob := by
  unfold unmergedParts
  induction glob using plain.induct generalizing parts with
  | case1 rest ih => rw [emit, emit, ih, ih ([] ++ [Part.any])]; simp
  | case2 rest hslash ih =>
    rw [emit, emit, ih, ih ([] ++ [Part.any])]
    · simp
    · exact hslash
    · exact hslash
  | case3 rest hslash hstar ih =>
    rw [emit, emit, ih, ih ([] ++ [Part.segment])]
    · simp
    all_goals assumption
  | case4 rest ih => rw [emit, emit, ih, ih ([] ++ [Part.one])]; simp
  | case5 u rest h1 h2 h3 h4 ih =>
    rw [emit, emit, ih, ih ([] ++ [charPart u])]
    · simp
    all_goals assumption
  | case6 => simp [emit]

theorem unmerged_doubleSlash (rest : JsString) :
    unmergedParts (0x2A :: 0x2A :: 0x2F :: rest) = .any :: unmergedParts rest := by
  rw [unmergedParts, emit, emit_push]
  rfl

theorem unmerged_double (h : ∀ r, rest = 0x2F :: r → False) :
    unmergedParts (0x2A :: 0x2A :: rest) = .any :: unmergedParts rest := by
  rw [unmergedParts, emit, emit_push]
  · rfl
  · exact h

theorem unmerged_star (h : ∀ r, rest = 0x2A :: r → False) :
    unmergedParts (0x2A :: rest) = .segment :: unmergedParts rest := by
  rw [unmergedParts, emit, emit_push]
  · rfl
  · exact fun r => h (0x2F :: r)
  · exact h

theorem unmerged_question (rest : JsString) :
    unmergedParts (0x3F :: rest) = .one :: unmergedParts rest := by
  rw [unmergedParts, emit, emit_push]
  rfl

theorem unmerged_char (hstar : u ≠ 0x2A) (hquestion : u ≠ 0x3F) (rest : JsString) :
    unmergedParts (u :: rest) = charPart u :: unmergedParts rest := by
  rw [unmergedParts, emit, emit_push]
  · rfl
  · exact fun r hu => absurd hu hstar
  · exact fun r hu => absurd hu hstar
  · exact hstar
  · exact hquestion

theorem language_cons (p : Part) (parts : List Part) : language (p :: parts) = p.language * language parts := by
  unfold language
  rw [List.map_cons, List.prod_cons]

/-- On texts of one line the parts say what the glob says. -/
theorem unmerged_same_plain (glob : JsString) : SameOnLines (language (unmergedParts glob)) (plain glob) := by
  induction glob using plain.induct with
  | case1 rest ih =>
    rw [unmerged_doubleSlash, language_cons, plain]
    exact any_same_top.mul ih
  | case2 rest hslash ih =>
    rw [unmerged_double hslash, language_cons, plain.eq_2 rest hslash]
    exact any_same_top.mul ih
  | case3 rest hdouble hstar ih =>
    rw [unmerged_star hstar, language_cons, plain.eq_3 rest hdouble hstar]
    exact (SameOnLines.refl _).mul ih
  | case4 rest ih =>
    rw [unmerged_question, language_cons, plain]
    exact (SameOnLines.refl _).mul ih
  | case5 u rest h1 h2 hstar hquestion ih =>
    rw [unmerged_char hstar hquestion, language_cons, charPart_language, plain.eq_5 u rest h1 h2 hstar hquestion]
    exact (SameOnLines.refl _).mul ih
  | case6 => exact SameOnLines.refl _

/-- Without a double star they do on all texts. -/
theorem unmerged_eq_plain (glob : JsString) (h : ¬ [0x2A, 0x2A] <:+: glob) :
    language (unmergedParts glob) = plain glob := by
  induction glob using plain.induct with
  | case1 rest ih => exact absurd ⟨[], 0x2F :: rest, rfl⟩ h
  | case2 rest hslash ih => exact absurd ⟨[], rest, rfl⟩ h
  | case3 rest hdouble hstar ih =>
    rw [unmerged_star hstar, language_cons, plain.eq_3 rest hdouble hstar, ih fun hin => h (List.infix_cons hin)]
    rfl
  | case4 rest ih =>
    rw [unmerged_question, language_cons, plain, ih fun hin => h (List.infix_cons hin)]
    rfl
  | case5 u rest h1 h2 hstar hquestion ih =>
    rw [unmerged_char hstar hquestion, language_cons, charPart_language, plain.eq_5 u rest h1 h2 hstar hquestion,
      ih fun hin => h (List.infix_cons hin)]
  | case6 => rfl

/-! ### Merging -/

/-- A single star is not followed by a star. -/
def Settled (parts : List Part) (glob : JsString) : Prop :=
  parts.getLast? = some .segment → ∀ r, glob ≠ 0x2A :: r

theorem settled_concat (h : p ≠ .segment) : Settled (parts ++ [p]) glob := by
  intro hlast
  rw [List.getLast?_concat] at hlast
  exact absurd (Option.some.inj hlast) h

/-- A quantifier that is appended or merged, behind parts that do not end in a single star. -/
theorem coalesce_cases (q : Part) (h : parts.getLast? ≠ some .segment) :
    (∃ init, parts = init ++ [.any] ∧ coalesceQuantifier parts q = parts) ∨
      coalesceQuantifier parts q = parts ++ [q] := by
  unfold coalesceQuantifier
  by_cases hany : parts.getLast? = some .any
  · obtain ⟨init, rfl⟩ := List.getLast?_eq_some_iff.1 hany
    refine .inl ⟨init, rfl, ?_⟩
    rw [if_pos (.inl hany), List.dropLast_concat]
  · exact .inr (if_neg (not_or.2 ⟨hany, h⟩))

theorem language_push_any (h : parts.getLast? ≠ some .segment) :
    language (coalesceQuantifier parts .any) = language parts * Part.any.language := by
  rcases coalesce_cases .any h with ⟨init, rfl, hsame⟩ | happend
  · rw [hsame, language_append, language_singleton, mul_assoc, any_mul_any]
  · rw [happend, language_append, language_singleton]

theorem language_push_segment (h : parts.getLast? ≠ some .segment) :
    SameOnLines (language (coalesceQuantifier parts .segment)) (language parts * noSlash) := by
  rcases coalesce_cases .segment h with ⟨init, rfl, hsame⟩ | happend
  · rw [hsame, language_append, language_singleton, mul_assoc]
    exact (SameOnLines.refl _).mul any_mul_segment.symm
  · rw [happend, language_append, language_singleton]
    exact SameOnLines.refl _

theorem settled_push_any (h : parts.getLast? ≠ some .segment) :
    Settled (coalesceQuantifier parts .any) glob := by
  rcases coalesce_cases .any h with ⟨init, rfl, hsame⟩ | happend
  · rw [hsame]
    exact settled_concat (by decide)
  · rw [happend]
    exact settled_concat (by decide)

/-- Merging keeps what is matched on texts of one line. -/
theorem emit_same_unmerged (glob : JsString) (parts : List Part) (h : Settled parts glob) :
    SameOnLines (language (emit coalesceQuantifier parts glob))
      (language parts * language (unmergedParts glob)) := by
  induction glob using plain.induct generalizing parts with
  | case1 rest ih =>
    have hlast : parts.getLast? ≠ some .segment := fun hlast => h hlast _ rfl
    rw [emit, unmerged_doubleSlash, language_cons, ← mul_assoc, ← language_push_any hlast]
    exact ih _ (settled_push_any hlast)
  | case2 rest hslash ih =>
    have hlast : parts.getLast? ≠ some .segment := fun hlast => h hlast _ rfl
    rw [emit.eq_2 _ _ _ hslash, unmerged_double hslash, language_cons, ← mul_assoc,
      ← language_push_any hlast]
    exact ih _ (settled_push_any hlast)
  | case3 rest hdouble hstar ih =>
    have hlast : parts.getLast? ≠ some .segment := fun hlast => h hlast _ rfl
    rw [emit.eq_3 _ _ _ hdouble hstar, unmerged_star hstar, language_cons, ← mul_assoc]
    exact (ih _ fun _ r hr => hstar r hr).trans ((language_push_segment hlast).mul (SameOnLines.refl _))
  | case4 rest ih =>
    rw [emit, unmerged_question, language_cons, ← mul_assoc, ← language_singleton (p := .one),
      ← language_append]
    exact ih _ (settled_concat (by decide))
  | case5 u rest h1 h2 hstar hquestion ih =>
    have hpart : charPart u ≠ .segment := by
      unfold charPart
      split <;> exact nofun
    rw [emit.eq_5 _ _ _ _ h1 h2 hstar hquestion, unmerged_char hstar hquestion, language_cons, ← mul_assoc,
      ← language_singleton (p := charPart u), ← language_append]
    exact ih _ (settled_concat hpart)
  | case6 =>
    rw [emit, unmergedParts, emit, language_nil, mul_one]
    exact SameOnLines.refl _

/-- Without a double star nothing is merged. -/
theorem emit_eq_unmerged (glob : JsString) (parts : List Part) (h : ¬ [0x2A, 0x2A] <:+: glob)
    (hany : parts.getLast? ≠ some .any) (hsettled : Settled parts glob) :
    emit coalesceQuantifier parts glob = parts ++ unmergedParts glob := by
  induction glob using plain.induct generalizing parts with
  | case1 rest ih => exact absurd ⟨[], 0x2F :: rest, rfl⟩ h
  | case2 rest hslash ih => exact absurd ⟨[], rest, rfl⟩ h
  | case3 rest hdouble hstar ih =>
    have hlast : parts.getLast? ≠ some .segment := fun hlast => hsettled hlast _ rfl
    have hpush : coalesceQuantifier parts .segment = parts ++ [.segment] :=
      if_neg (not_or.2 ⟨hany, hlast⟩)
    rw [emit.eq_3 _ _ _ hdouble hstar, unmerged_star hstar, hpush,
      ih _ (fun hin => h (List.infix_cons hin)) (by simp) fun _ r hr => hstar r hr]
    simp
  | case4 rest ih =>
    rw [emit, unmerged_question, ih _ (fun hin => h (List.infix_cons hin)) (by simp)
      (settled_concat (by decide))]
    simp
  | case5 u rest h1 h2 hstar hquestion ih =>
    have hpart : charPart u ≠ .segment ∧ charPart u ≠ .any := by
      unfold charPart
      split <;> exact ⟨nofun, nofun⟩
    rw [emit.eq_5 _ _ _ _ h1 h2 hstar hquestion, unmerged_char hstar hquestion,
      ih _ (fun hin => h (List.infix_cons hin)) (by simpa using hpart.2) (settled_concat hpart.1)]
    simp
  | case6 => simp [emit, unmergedParts]

end Languages

/-! ## No two quantifiers are adjacent -/

section Apart

variable {parts : List Part} {p q : Part}

/-- No quantifier follows a quantifier. -/
def Apart (parts : List Part) : Prop :=
  parts.IsChain fun p q => ¬ (p.isQuantifier = true ∧ q.isQuantifier = true)

theorem apart_concat (h : Apart parts)
    (hp : ∀ q ∈ parts.getLast?, ¬ (q.isQuantifier = true ∧ p.isQuantifier = true)) : Apart (parts ++ [p]) :=
  List.isChain_append.2 ⟨h, List.isChain_singleton _, by simpa using hp⟩

theorem isQuantifier_iff : p.isQuantifier = true ↔ p = .any ∨ p = .segment := by
  simp [Part.isQuantifier]

theorem apart_coalesce (h : Apart parts) (q : Part) : Apart (coalesceQuantifier parts q) := by
  unfold coalesceQuantifier
  split
  · next hlast =>
    -- the merged quantifier stands where one stood, so no quantifier is before it
    obtain ⟨p, hp, hquantifier⟩ : ∃ p, parts.getLast? = some p ∧ p.isQuantifier = true := by
      rcases hlast with hlast | hlast
      · exact ⟨_, hlast, rfl⟩
      · exact ⟨_, hlast, rfl⟩
    obtain ⟨init, rfl⟩ := List.getLast?_eq_some_iff.1 hp
    obtain ⟨hinit, -, hbefore⟩ := List.isChain_append.1 h
    rw [List.dropLast_concat]
    refine apart_concat hinit fun q' hq' hboth => ?_
    exact hbefore q' hq' p (by simp) ⟨hboth.1, hquantifier⟩
  · next hlast =>
    refine apart_concat h fun q' hq' hboth => hlast ?_
    rcases isQuantifier_iff.1 hboth.1 with rfl | rfl
    · exact .inl hq'
    · exact .inr hq'

theorem apart_emit (glob : JsString) (h : Apart parts) : Apart (emit coalesceQuantifier parts glob) := by
  have hchar : ∀ p : Part, p.isQuantifier = false → ∀ parts, Apart parts → Apart (parts ++ [p]) := by
    intro p hp parts h
    exact apart_concat h fun q _ hboth => absurd (hp.symm.trans hboth.2) Bool.false_ne_true
  fun_induction emit coalesceQuantifier parts glob with
  | case1 parts rest ih => exact ih (apart_coalesce h _)
  | case2 parts rest _ ih => exact ih (apart_coalesce h _)
  | case3 parts rest _ _ ih => exact ih (apart_coalesce h _)
  | case4 parts rest ih => exact ih (hchar _ rfl _ h)
  | case5 parts u rest _ _ _ _ ih =>
    refine ih (hchar _ ?_ _ h)
    unfold charPart
    split <;> rfl
  | case6 parts => exact h

end Apart

/-! ## A double star reads more lines than the pattern -/

section Breaks

variable {s t : JsString} {parts : List Part} {p : Part} {glob : JsString}

/-- How often a line feed stands before a slash. -/
def breaks : JsString → ℕ
  | [] => 0
  | [_] => 0
  | u :: v :: s => (if u = 0x0A ∧ v = 0x2F then 1 else 0) + breaks (v :: s)

theorem breaks_append_le : ∀ {s t : JsString}, breaks (s ++ t) ≤ breaks s + 1 + breaks t
  | [], t => by simp [breaks]
  | [u], [] => by simp [breaks]
  | [u], v :: t => by
    rw [List.singleton_append, breaks, breaks]
    split <;> omega
  | u :: v :: s, t => by
    have ih := breaks_append_le (s := v :: s) (t := t)
    rw [List.cons_append, List.cons_append, breaks, breaks]
    rw [List.cons_append] at ih
    omega

theorem le_breaks_append : ∀ {s t : JsString}, breaks t ≤ breaks (s ++ t)
  | [], t => le_refl _
  | [u], [] => by simp [breaks]
  | [u], v :: t => by
    rw [List.singleton_append, breaks]
    omega
  | u :: v :: s, t => by
    have ih := le_breaks_append (s := v :: s) (t := t)
    rw [List.cons_append, List.cons_append, breaks]
    rw [List.cons_append] at ih
    omega

theorem breaks_eq_zero (h : 0x0A ∉ s ∨ 0x2F ∉ s) : breaks s = 0 := by
  fun_induction breaks s with
  | case1 => rfl
  | case2 => rfl
  | case3 u v s ih =>
    rw [if_neg, ih, Nat.zero_add]
    · rcases h with h | h
      · exact .inl fun hin => h (.tail _ hin)
      · exact .inr fun hin => h (.tail _ hin)
    · rintro ⟨rfl, rfl⟩
      rcases h with h | h
      · exact h (.head _)
      · exact h (.tail _ (.head _))

/-- No part of a pattern reads a line feed before a slash. -/
theorem breaks_part (h : s ∈ p.language) : breaks s = 0 := by
  cases p with
  | any => exact breaks_eq_zero (.inl fun hin => absurd (h _ hin) (by decide))
  | segment => exact breaks_eq_zero (.inr h)
  | one =>
    obtain ⟨u, -, rfl⟩ := h
    rfl
  | escaped u | literal u =>
    obtain rfl := Set.mem_singleton_iff.1 h
    rfl

theorem breaks_le : ∀ {parts : List Part} {s : JsString}, s ∈ language parts → breaks s ≤ parts.length
  | [], s, h => by
    rw [(Language.mem_one s).1 h]
    exact le_refl _
  | p :: parts, s, h => by
    rw [language_cons] at h
    obtain ⟨a, ha, b, hb, rfl⟩ := Language.mem_mul.1 h
    have hle := breaks_append_le (s := a) (t := b)
    have ih := breaks_le hb
    rw [breaks_part ha] at hle
    rw [List.length_cons]
    omega

/-- Line feeds before slashes. -/
def manyBreaks (n : ℕ) : JsString :=
  (List.replicate n [0x0A, 0x2F]).flatten

theorem breaks_manyBreaks : ∀ n t, n ≤ breaks (manyBreaks n ++ t)
  | 0, t => Nat.zero_le _
  | n + 1, t => by
    have ih := breaks_manyBreaks n t
    have hle := le_breaks_append (s := [0x2F]) (t := manyBreaks n ++ t)
    rw [manyBreaks, List.replicate_succ, List.flatten_cons, List.append_assoc]
    show n + 1 ≤ breaks (0x0A :: 0x2F :: (manyBreaks n ++ t))
    rw [breaks, if_pos ⟨rfl, rfl⟩]
    rw [List.singleton_append] at hle
    omega

theorem exists_plain (glob : JsString) : ∃ s, s ∈ plain glob := by
  have hmul : ∀ {L M : Language UInt16}, (∃ s, s ∈ L) → (∃ s, s ∈ M) → ∃ s, s ∈ L * M :=
    fun ⟨a, ha⟩ ⟨b, hb⟩ => ⟨a ++ b, Language.append_mem_mul ha hb⟩
  fun_induction plain glob with
  | case1 rest ih => exact hmul ⟨[], trivial⟩ ih
  | case2 rest _ ih => exact hmul ⟨[], trivial⟩ ih
  | case3 rest _ _ ih => exact hmul ⟨[], List.not_mem_nil⟩ ih
  | case4 rest ih => exact hmul ⟨[0x0A], 0x0A, by decide, rfl⟩ ih
  | case5 u rest _ _ _ _ ih => exact hmul ⟨[u], rfl⟩ ih
  | case6 => exact ⟨[], rfl⟩

/-- A glob with a double star takes any number of line feeds before slashes. -/
theorem exists_breaks (h : [0x2A, 0x2A] <:+: glob) (n : ℕ) : ∃ s ∈ plain glob, n ≤ breaks s := by
  have hdouble : ∀ rest, ∃ s ∈ (⊤ : Language UInt16) * plain rest, n ≤ breaks s := fun rest => by
    obtain ⟨t, ht⟩ := exists_plain rest
    exact ⟨manyBreaks n ++ t, Language.append_mem_mul trivial ht, breaks_manyBreaks n t⟩
  have hmul : ∀ {L M : Language UInt16}, (∃ s, s ∈ L) → (∃ s ∈ M, n ≤ breaks s) → ∃ s ∈ L * M, n ≤ breaks s :=
    fun ⟨a, ha⟩ ⟨b, hb, hle⟩ => ⟨a ++ b, Language.append_mem_mul ha hb, hle.trans le_breaks_append⟩
  fun_induction plain glob with
  | case1 rest ih => exact hdouble rest
  | case2 rest _ ih => exact hdouble rest
  | case3 rest _ hstar ih =>
    refine hmul ⟨[], List.not_mem_nil⟩ (ih ?_)
    rcases List.infix_cons_iff.1 h with hprefix | hin
    · obtain ⟨t, ht⟩ := hprefix
      exact absurd (List.cons.inj ht).2.symm fun heq => hstar t heq
    · exact hin
  | case4 rest ih =>
    refine hmul ⟨[0x0A], 0x0A, by decide, rfl⟩ (ih ?_)
    rcases List.infix_cons_iff.1 h with ⟨t, ht⟩ | hin
    · exact absurd (List.cons.inj ht).1 (by decide)
    · exact hin
  | case5 u rest _ _ hstar _ ih =>
    refine hmul ⟨[u], rfl⟩ (ih ?_)
    rcases List.infix_cons_iff.1 h with ⟨t, ht⟩ | hin
    · exact absurd (List.cons.inj ht).1.symm hstar
    · exact hin
  | case6 => exact absurd (List.infix_nil.1 h) (by decide)

end Breaks

/-! ## When the pattern is the glob -/

/-- The pattern matches what the glob says and what it would without merging, and no quantifier in it
follows a quantifier. -/
structure Faithful (glob : JsString) : Prop where
  plain : ∀ s, Matches (globToRegex glob) s ↔ s ∈ plain glob
  unmerged : ∀ s, Matches (globToRegex glob) s ↔ Matches (pattern (unmergedParts glob)) s
  apart : Apart (readParts (globToRegex glob).tail.dropLast)

theorem apart_globToRegex (glob : JsString) : Apart (readParts (globToRegex glob).tail.dropLast) := by
  have hwritten : ∀ p ∈ globParts glob, p.Written :=
    written_push coalesceQuantifier_written glob (by simp)
  rw [globToRegex, pattern, List.cons_append, List.tail_cons, List.dropLast_concat,
    readParts_source hwritten]
  exact apart_emit glob .nil

theorem agrees_of_oneLine (glob : JsString) {s : JsString} (hs : OneLine s) :
    (Matches (globToRegex glob) s ↔ s ∈ plain glob) ∧
      (Matches (globToRegex glob) s ↔ Matches (pattern (unmergedParts glob)) s) := by
  have hmerge := emit_same_unmerged glob [] (fun hlast => absurd hlast nofun) s hs
  rw [language_nil, one_mul] at hmerge
  rw [matches_globToRegex, matches_unmerged]
  exact ⟨hmerge.trans (unmerged_same_plain glob s hs), hmerge⟩

theorem faithful_of_noDouble {glob : JsString} (h : ¬ [0x2A, 0x2A] <:+: glob) : Faithful glob := by
  have hsame : globParts glob = unmergedParts glob :=
    emit_eq_unmerged glob [] h nofun fun hlast => absurd hlast nofun
  refine ⟨fun s => ?_, fun s => ?_, apart_globToRegex glob⟩
  · rw [matches_globToRegex, hsame, unmerged_eq_plain glob h]
  · rw [matches_globToRegex, matches_unmerged, hsame]

/-- The pattern of a glob is the glob on all texts exactly when the glob has no double star, and on texts of
one line always ; no quantifier in it ever follows a quantifier. -/
theorem globToRegex_faithful_iff (glob : JsString) :
    (Faithful glob ↔ ¬ [0x2A, 0x2A] <:+: glob) ∧
      (∀ s, OneLine s → (Matches (globToRegex glob) s ↔ s ∈ plain glob) ∧
        (Matches (globToRegex glob) s ↔ Matches (pattern (unmergedParts glob)) s)) ∧
      Apart (readParts (globToRegex glob).tail.dropLast) := by
  refine ⟨⟨fun hfaithful hdouble => ?_, faithful_of_noDouble⟩, fun s hs => agrees_of_oneLine glob hs,
    apart_globToRegex glob⟩
  obtain ⟨s, hs, hbreaks⟩ := exists_breaks hdouble ((globParts glob).length + 1)
  have hle := breaks_le ((matches_globToRegex glob s).1 ((hfaithful.plain s).2 hs))
  omega

theorem globToRegex_faithful_host : Faithful (utf16 "*.example.com") ∧
    (Matches (globToRegex (utf16 "**")) (utf16 "a/b") ↔ utf16 "a/b" ∈ plain (utf16 "**")) :=
  ⟨(globToRegex_faithful_iff (utf16 "*.example.com")).1.2 (by decide),
    ((globToRegex_faithful_iff (utf16 "**")).2.1 (utf16 "a/b") (by decide)).1⟩

/-- A line feed is text, the stars without merging take it, and the merged one does not. -/
theorem double_star_stops_at_a_line : [0x0A] ∈ plain (utf16 "***") ∧
    Matches (pattern (unmergedParts (utf16 "***"))) [0x0A] ∧ ¬ Matches (globToRegex (utf16 "***")) [0x0A] := by
  refine ⟨?_, ?_, fun hmatch => ?_⟩
  · rw [show utf16 "***" = [0x2A, 0x2A, 0x2A] by decide, plain.eq_2 [0x2A] fun r hr => absurd (List.cons.inj hr).1 (by decide)]
    exact Language.mem_mul.2 ⟨[0x0A], trivial, [], Language.mem_mul.2 ⟨[], List.not_mem_nil, [], rfl, rfl⟩, rfl⟩
  · rw [matches_unmerged, show unmergedParts (utf16 "***") = [.any, .segment] by decide, language_cons]
    have hfeed : [0x0A] ∈ noSlash := by
      show (0x2F : UInt16) ∉ [0x0A]
      decide
    refine Language.mem_mul.2 ⟨[], fun u hu => absurd hu List.not_mem_nil, [0x0A], ?_, rfl⟩
    rwa [language_singleton]
  · rw [matches_globToRegex, show globParts (utf16 "***") = [.any] by decide, language_singleton] at hmatch
    exact absurd (hmatch 0x0A (.head _)) (by decide)

end Lynox.Guard.Glob
