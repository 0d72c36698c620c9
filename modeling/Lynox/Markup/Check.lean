import Lynox.Markup.Hidden
import Lynox.Markup.Links

/-!
# The markup check of a field

`checkTrees` walks the tree of an after-state with three budgets that are counted off the tree of the
before-image. An element or a comment outside a small allowlist spends an occurrence that is held. An
attribute has to be held, and spends what is held where it runs code, styles, loads something or names
an element; a link that is not held passes by the domain rule. Hidden characters are counted per code
point.

`checkTrees_ok_iff` says what each budget comes to : the check passes exactly where the after-state is
within the before-image (`Within`).
-/

namespace Lynox.Markup

open Text Tally

/-- HTML namespace only : an SVG or MathML `a` is outside it. -/
def ALLOWED_ELEMENTS : List JsString :=
  ["p", "br", "strong", "em", "ul", "ol", "li", "h2", "h3", "h4", "a"].map utf16

def allowedElement (o : Occurrence) : Bool :=
  o.ns = some .html && o.name ∈ ALLOWED_ELEMENTS

def isLinkTriple (t : Triple) : Bool :=
  t.ns = .html && t.element = utf16 "a" && t.attributeName = some (utf16 "href")

/-- Attributes counted per occurrence : they run code, style the page, load something or name an
element. -/
def countedAttribute (name : JsString) : Bool :=
  (name.take 2).map lowerAscii = utf16 "on" ||
    name ∈ ["style", "srcdoc", "srcset", "id", "name"].map utf16 || name ∈ URL_ATTRIBUTES

/-- Elements and comments that are not on the allowlist. -/
def outside (fragment : Fragment) : List Occurrence :=
  (markupOf fragment).1.filter fun o => !allowedElement o

/-- The triples that are attributes. -/
def attributeTriples (fragment : Fragment) : List Triple :=
  (markupOf fragment).2.filter fun t => t.attributeName.isSome

/-- An occurrence without its text and layout. -/
def shellKey (o : Occurrence) :
    Kind × Option MarkupNamespace × JsString × List (JsString × JsString) × Bool :=
  (o.kind, o.ns, o.name, o.attributes, o.inTemplate)

/-! ## Refusals -/

def MarkupNamespace.shown : Option MarkupNamespace → JsString
  | some .svg => utf16 "svg:"
  | some .mathml => utf16 "mathml:"
  | some .other => utf16 "other:"
  | some .html => []
  | none => utf16 ":"

def quoted (name value : JsString) : JsString :=
  utf16 " " ++ name ++ utf16 "=\"" ++ value ++ utf16 "\""

def describe (o : Occurrence) : JsString :=
  match o.kind with
  | .comment => utf16 "<!--" ++ o.text.getD [] ++ utf16 "-->"
  | .element =>
    utf16 "<" ++ MarkupNamespace.shown o.ns ++ o.name ++
      (o.attributes.flatMap fun a => quoted a.1 a.2) ++ utf16 ">"

/-- Why an occurrence that is no longer held is refused. -/
def occurrenceRefusal (beforeTree : Fragment) (o : Occurrence) : MarkupCheckResult :=
  if o.kind = .comment then refused .comment_added (describe o)
  else if o.text ≠ none ∧ o ∉ outside beforeTree ∧
      shellKey o ∈ ((markupOf beforeTree).1.filter fun b => b.text.isSome).map shellKey then
    refused .content_changed (describe o)
  else if o.ns = some .html ∧ o.name = utf16 "img" then refused .new_img (describe o)
  else refused .element_not_allowed (describe o)

/-- Why an attribute that is no longer held is refused, none for a link that passes. -/
def tripleRefusal (w : Web) (input : MarkupCheckInput) (linkDomains : List (LinkKind × JsString))
    (t : Triple) : Option MarkupCheckResult :=
  if isLinkTriple t then
    match checkLink w (t.value.getD []) input linkDomains with
    | .ok => none
    | r => some r
  else some (refused .attribute_not_allowed
    (t.element ++ quoted (t.attributeName.getD []) (t.value.getD [])))

/-- A code point as `U+0000`. -/
def codePointName (cp : ℕ) : JsString :=
  let hex := (Nat.toDigits 16 cp).map fun c => UInt16.ofNat c.toUpper.toNat
  utf16 "U+" ++ List.replicate (4 - hex.length) 0x30 ++ hex

/-- The loop over the hidden characters of the after-state, with how many there were beyond those of
the before-image. -/
def hiddenLoop (b a : HiddenCounts) : ℕ → List (ℕ × ℕ) → MarkupCheckResult
  | _, [] => .ok
  | extra, (cp, n) :: rest =>
    let held := left b.all cp
    if held < left a.out cp then refused .hidden_char (codePointName cp)
    else if HIDDEN_ALLOWED_MAX < extra + (n - held) then refused .hidden_char (codePointName cp)
    else hiddenLoop b a (extra + (n - held)) rest

section Check

variable (u : Unicode) (w : Web) (input : MarkupCheckInput)

/-- Whether an attribute spends what is held of it. -/
def Triple.counted (t : Triple) : Bool :=
  countedAttribute (t.attributeName.getD [])

def checkTrees (beforeTree afterTree : Fragment) : MarkupCheckResult :=
  match spend (fun _ => true) (fun o => some (occurrenceRefusal beforeTree o))
      (counts (outside beforeTree)) (outside afterTree) with
  | some r => r
  | none =>
    let linkDomains := linkedDomains w (markupOf beforeTree).2 input.storeHost
    match spend Triple.counted (tripleRefusal w input linkDomains)
        (counts (attributeTriples beforeTree)) (attributeTriples afterTree) with
    | some r => r
    | none =>
      let b := u.hiddenCounts beforeTree
      let a := u.hiddenCounts afterTree
      hiddenLoop b a 0 a.all

/-! ## What the check promises -/

/-- The link of an HTML `a` whose target the store, the owner or the before-image knows. -/
def LinkPasses (beforeTree : Fragment) (t : Triple) : Prop :=
  isLinkTriple t = true ∧ ∃ kind domain,
    linkTarget w (t.value.getD []) input.storeHost = .ok kind domain ∧ ∃ d,
      (d = input.storeHost ∨ d ∈ input.startDomains ∨
        (kind, d) ∈ linkedDomains w (markupOf beforeTree).2 input.storeHost) ∧
      hostMatches w domain d = true

/-- The after-state adds no markup to the before-image. -/
structure Within (before after : Fragment) : Prop where
  occurrences : (outside after : Multiset Occurrence) ≤ outside before
  held : ∀ t ∈ attributeTriples after, t ∈ attributeTriples before ∨ LinkPasses w input before t
  counted : ∀ t ∈ attributeTriples after, t.counted = true →
    (attributeTriples after).count t ≤ (attributeTriples before).count t ∨ LinkPasses w input before t
  out : (u.hiddenOf true after : Multiset ℕ) ≤ u.hiddenOf false before
  extra : ((u.hiddenOf false after : Multiset ℕ) - u.hiddenOf false before).card ≤ HIDDEN_ALLOWED_MAX

variable {u : Unicode} {w : Web} {input : MarkupCheckInput} {before after : Fragment}

theorem occurrenceRefusal_ne_ok {o : Occurrence} : occurrenceRefusal before o ≠ .ok := by
  unfold occurrenceRefusal refused
  repeat' split
  all_goals simp

theorem tripleRefusal_ne_some_ok {linkDomains : List (LinkKind × JsString)} {t : Triple} :
    tripleRefusal w input linkDomains t ≠ some .ok := by
  unfold tripleRefusal
  split
  · split
    · simp
    · next r hr => exact fun h => hr (Option.some.inj h)
  · simp [refused]

/-- What the walk over the elements and comments comes to. -/
theorem outside_ok_iff : spend (fun _ => true) (fun o => some (occurrenceRefusal before o))
      (counts (outside before)) (outside after) = none ↔
    (outside after : Multiset Occurrence) ≤ outside before :=
  spend_all_eq_none_iff (fun _ => rfl) fun _ => Option.some_ne_none _

theorem tripleRefusal_eq_none {t : Triple} :
    tripleRefusal w input (linkedDomains w (markupOf before).2 input.storeHost) t = none ↔
      LinkPasses w input before t := by
  unfold tripleRefusal LinkPasses
  rw [← checkLink_ok_iff]
  by_cases hl : isLinkTriple t = true
  · rw [if_pos hl]
    generalize checkLink w (t.value.getD []) input (linkedDomains w (markupOf before).2 input.storeHost) = r
    cases r with
    | ok => simp [hl]
    | refused reason detail hostWritten => simp
  · simp [hl]

/-- The loop over the hidden characters refuses none : each is held, and the rest are few. -/
theorem hiddenLoop_ok_iff {b a : HiddenCounts} : ∀ {es : List (ℕ × ℕ)} {extra : ℕ},
    extra ≤ HIDDEN_ALLOWED_MAX → (hiddenLoop b a extra es = .ok ↔
      (∀ e ∈ es, left a.out e.1 ≤ left b.all e.1) ∧
        extra + (es.map fun e => e.2 - left b.all e.1).sum ≤ HIDDEN_ALLOWED_MAX)
  | [], extra, h => by simpa [hiddenLoop] using h
  | (cp, n) :: es, extra, _ => by
    rw [hiddenLoop, List.map_cons, List.sum_cons, ← Nat.add_assoc]
    simp only [List.mem_cons, forall_eq_or_imp]
    by_cases hout : left b.all cp < left a.out cp
    · rw [if_pos hout]
      simp [refused, Nat.not_le.mpr hout]
    · rw [if_neg hout]
      by_cases hmax : HIDDEN_ALLOWED_MAX < extra + (n - left b.all cp)
      · rw [if_pos hmax]
        simp only [refused, reduceCtorEq, false_iff, not_and]
        intro _
        omega
      · rw [if_neg hmax, hiddenLoop_ok_iff (Nat.not_lt.mp hmax)]
        simp only [Nat.not_lt.mp hout, true_and]

theorem hiddenVerdict_ok_iff : hiddenLoop (u.hiddenCounts before) (u.hiddenCounts after) 0
      (u.hiddenCounts after).all = .ok ↔
    (u.hiddenOf true after : Multiset ℕ) ≤ u.hiddenOf false before ∧
      ((u.hiddenOf false after : Multiset ℕ) - u.hiddenOf false before).card ≤ HIDDEN_ALLOWED_MAX := by
  rw [hiddenLoop_ok_iff (Nat.zero_le _), Nat.zero_add]
  simp only [Unicode.hiddenCounts, left_counts]
  rw [sum_counts, Multiset.le_iff_count]
  simp only [Multiset.coe_count]
  refine and_congr_left' ⟨fun h cp => ?_, fun h e _ => h e.1⟩
  by_cases hcp : cp ∈ u.hiddenOf false after
  · exact h (cp, _) (mem_counts.mpr ⟨hcp, rfl⟩)
  · have hout : cp ∉ u.hiddenOf true after := fun hmem => hcp ((u.hiddenOf_sublist after).subset hmem)
    rw [List.count_eq_zero.mpr hout]
    exact Nat.zero_le _

/-- What the walk over the attributes comes to. -/
theorem attributes_ok_iff : spend Triple.counted
      (tripleRefusal w input (linkedDomains w (markupOf before).2 input.storeHost))
      (counts (attributeTriples before)) (attributeTriples after) = none ↔
    (∀ t ∈ attributeTriples after, t ∈ attributeTriples before ∨ LinkPasses w input before t) ∧
      ∀ t ∈ attributeTriples after, t.counted = true →
        (attributeTriples after).count t ≤ (attributeTriples before).count t ∨
          LinkPasses w input before t := by
  rw [spend_eq_none_iff]
  simp only [tripleRefusal_eq_none, Covered, left_counts, List.count_pos_iff]
  constructor
  · intro h
    refine ⟨fun t ht => ?_, fun t ht hc => ?_⟩
    · rcases h t ht with hl | hcov
      · exact .inr hl
      · split at hcov
        · exact .inl (List.count_pos_iff.mp (lt_of_lt_of_le (List.count_pos_iff.mpr ht) hcov))
        · exact .inl hcov
    · rcases h t ht with hl | hcov
      · exact .inr hl
      · rw [if_pos hc] at hcov
        exact .inl hcov
  · rintro ⟨hheld, hcounted⟩ t ht
    by_cases hc : t.counted = true
    · rw [if_pos hc]
      exact (hcounted t ht hc).symm
    · rw [if_neg hc]
      exact (hheld t ht).symm

/-- The check passes exactly where the after-state is within the before-image. -/
theorem checkTrees_ok_iff :
    checkTrees u w input before after = .ok ↔ Within u w input before after := by
  unfold checkTrees
  constructor
  · intro h
    split at h
    · next r hr =>
      obtain ⟨o, _, ho⟩ := exists_of_spend_eq_some hr
      exact absurd ((Option.some.inj ho).trans h) occurrenceRefusal_ne_ok
    · next hocc =>
      simp only at h
      split at h
      · next r hr =>
        obtain ⟨t, _, ht⟩ := exists_of_spend_eq_some hr
        exact absurd (h ▸ ht) tripleRefusal_ne_some_ok
      · next hattr =>
        obtain ⟨hheld, hcounted⟩ := attributes_ok_iff.mp hattr
        obtain ⟨hout, hextra⟩ := hiddenVerdict_ok_iff.mp h
        exact ⟨outside_ok_iff.mp hocc, hheld, hcounted, hout, hextra⟩
  · rintro ⟨hocc, hheld, hcounted, hout, hextra⟩
    rw [outside_ok_iff.mpr hocc]
    simp only
    rw [attributes_ok_iff.mpr ⟨hheld, hcounted⟩]
    exact hiddenVerdict_ok_iff.mpr ⟨hout, hextra⟩

end Check

end Lynox.Markup
