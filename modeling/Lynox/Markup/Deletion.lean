import Lynox.Markup.Check
import Mathlib.Data.Multiset.OrderedMonoid

/-!
# Deleting nodes adds no markup

`Deleted keeps before after` : the second tree is the first with nodes deleted, each with everything
below it or with its children left in its place, where `keeps` says what may become of an element that
stays. An HTML `template` goes with its content, which would be live outside of it.

A script, a style or another text carrier is what its text says, so an element that stays has to keep
the text and the layout it carries (`KeepsText`). Then what is read off the nodes is a part of what
was read before (`Deleted.sublist`), and the check passes (`within_of_deleted`).
-/

namespace Lynox.Markup

open Text

/-- A fragment with nodes deleted. -/
inductive Deleted (keeps : Tag → Node → Node → Prop) : List Node → List Node → Prop
  | nil : Deleted keeps [] []
  | delete (c : Node) {cs ds : List Node} : Deleted keeps cs ds → Deleted keeps (c :: cs) ds
  | unwrap (c : Node) {cs ds : List Node} : c.isTemplate = false →
    Deleted keeps (childrenOf c ++ cs) ds → Deleted keeps (c :: cs) ds
  | keep (c : Node) {cs ds : List Node} : Deleted keeps cs ds → Deleted keeps (c :: cs) (c :: ds)
  | inside (tag : Tag) {childNodes childNodes' content content' cs ds : List Node} :
    Deleted keeps childNodes childNodes' → Deleted keeps content content' →
    keeps tag (.element tag childNodes content) (.element tag childNodes' content') →
    Deleted keeps cs ds →
    Deleted keeps (.element tag childNodes content :: cs) (.element tag childNodes' content' :: ds)

/-- A text carrier keeps the text and the layout below it. -/
def KeepsText (tag : Tag) (n n' : Node) : Prop :=
  tag.tagName ∈ TEXT_CARRIERS → textBelow n' = textBelow n ∧ layoutBelow n' = layoutBelow n

variable {keeps : Tag → Node → Node → Prop} {before after cs ds : List Node}

theorem descendants_cons (c : Node) (cs : List Node) (t : Bool) : descendants (c :: cs) t =
    (c, t) :: (descendants (childrenOf c) (inTemplateBelow c t) ++ descendants cs t) :=
  walkBelow_cons c cs t

theorem descendants_append (cs ds : List Node) (t : Bool) :
    descendants (cs ++ ds) t = descendants cs t ++ descendants ds t :=
  walkBelow_append cs ds t

/-- What is read off the nodes that stay was read before, as long as an element that stays is read as
it was. -/
theorem Deleted.sublist {β : Type*} (view : Node × Bool → List β)
    (hview : ∀ tag childNodes content childNodes' content' t,
      keeps tag (.element tag childNodes content) (.element tag childNodes' content') →
      view (.element tag childNodes' content', t) = view (.element tag childNodes content, t))
    (h : Deleted keeps cs ds) : ∀ t : Bool,
      ((descendants ds t).flatMap view).Sublist ((descendants cs t).flatMap view) := by
  induction h with
  | nil => exact fun t => List.Sublist.refl _
  | delete c _ ih =>
    intro t
    rw [descendants_cons c, List.flatMap_cons, List.flatMap_append]
    exact (ih t).trans ((List.sublist_append_right _ _).trans (List.sublist_append_right _ _))
  | unwrap c hc _ ih =>
    intro t
    have ht : inTemplateBelow c t = t := by rw [inTemplateBelow, hc, Bool.or_false]
    rw [descendants_cons c, ht, ← descendants_append, List.flatMap_cons]
    exact (ih t).trans (List.sublist_append_right _ _)
  | keep c _ ih =>
    intro t
    rw [descendants_cons, descendants_cons, List.flatMap_cons, List.flatMap_cons, List.flatMap_append,
      List.flatMap_append]
    exact (List.Sublist.refl _).append ((List.Sublist.refl _).append (ih t))
  | @inside tag kids kids' content content' _ _ _ _ hkeeps _ ihkids ihcontent ih =>
    intro t
    have ht : inTemplateBelow (.element tag kids' content') t =
        inTemplateBelow (.element tag kids content) t := rfl
    rw [descendants_cons, descendants_cons, List.flatMap_cons, List.flatMap_cons, List.flatMap_append,
      List.flatMap_append, hview tag kids content kids' content' t hkeeps, ht]
    refine (List.Sublist.refl _).append (List.Sublist.append ?_ (ih t))
    simp only [childrenOf]
    split
    · exact ihcontent _
    · exact ihkids _

theorem occurrences_sublist (h : Deleted KeepsText before after) :
    (markupOf after).1.Sublist (markupOf before).1 := by
  refine h.sublist occurrencesAt (fun tag childNodes content childNodes' content' t hk => ?_) false
  simp only [occurrencesAt, carriedText, carriedLayout]
  by_cases hc : tag.tagName ∈ TEXT_CARRIERS
  · rw [if_pos hc, if_pos hc, if_pos hc, if_pos hc, (hk hc).1, (hk hc).2]
  · rw [if_neg hc, if_neg hc, if_neg hc, if_neg hc]

theorem triples_sublist (h : Deleted keeps before after) : (markupOf after).2.Sublist (markupOf before).2 :=
  h.sublist triplesAt (fun _ _ _ _ _ _ _ => rfl) false

theorem texts_sublist (h : Deleted keeps before after) : (textsOf after).Sublist (textsOf before) :=
  h.sublist (fun p => textsAt p.1) (fun _ _ _ _ _ _ _ => rfl) false

variable {u : Unicode} {w : Web} {input : MarkupCheckInput}

theorem hidden_sublist (h : Deleted keeps before after) (takeInPlace : Bool) :
    (u.hiddenOf takeInPlace after).Sublist (u.hiddenOf takeInPlace before) :=
  (texts_sublist h).flatMap _

/-- A tree with nodes deleted is within the tree. -/
theorem within_of_deleted (h : Deleted KeepsText before after) : Within u w input before after where
  occurrences := Multiset.coe_le.mpr ((occurrences_sublist h).filter _).subperm
  held := fun _ ht => .inl (((triples_sublist h).filter _).subset ht)
  counted := fun t _ _ => .inl (((triples_sublist h).filter _).count_le t)
  out := Multiset.coe_le.mpr ((hidden_sublist h true).trans (u.hiddenOf_sublist before)).subperm
  extra := by
    have hle : (u.hiddenOf false after : Multiset ℕ) ≤ u.hiddenOf false before :=
      Multiset.coe_le.mpr (hidden_sublist h false).subperm
    rw [tsub_eq_zero_of_le hle]
    exact Nat.zero_le _

/-- A tree passes the check exactly where it is within the before-image, and it is where nodes were
only deleted and each text carrier that stays keeps its text. -/
theorem checkTrees_within_and_deleted (u : Unicode) (w : Web) (input : MarkupCheckInput)
    (before after : Fragment) :
    (checkTrees u w input before after = .ok ↔ Within u w input before after) ∧
      (Deleted KeepsText before after → checkTrees u w input before after = .ok) :=
  ⟨checkTrees_ok_iff, fun h => checkTrees_ok_iff.mpr (within_of_deleted h)⟩

/-! ## A division, a paragraph and a script -/

/-- The tables on ASCII text. -/
def ascii : Unicode where
  hidden cp := cp < 0x20 || cp = 0x7F
  pictograph _ := false
  emojiModifier _ := false
  emoji cp := keycapBase cp
  letter cp := (0x41 ≤ cp && cp ≤ 0x5A) || (0x61 ≤ cp && cp ≤ 0x7A)
  afterMark cp := 0x20 ≤ cp && cp < 0x7F && !((utf16 "$+<=>^|~").map UInt16.toNat).contains cp

/-- A platform that is asked for no link. -/
def noLinks : Web where
  newURL _ _ := none
  decodeURIComponent _ := none
  toLowerCase s := s.map lowerAscii

def shop : MarkupCheckInput where
  storeHost := utf16 "shop.example"
  startDomains := []

/-- An HTML element without attributes. -/
def html (name : String) (childNodes : List Node) : Node :=
  .element ⟨.HTML, utf16 name, []⟩ childNodes []

theorem division_taken_away :
    checkTrees ascii noLinks shop
      [html "div" [html "p" [.text (utf16 "Hi")], .comment (utf16 "new")],
        html "script" [.text (utf16 "x()")]]
      [html "p" [.text (utf16 "Hi")], html "script" [.text (utf16 "x()")]] = .ok :=
  (checkTrees_within_and_deleted ascii noLinks shop _ _).2
    (.unwrap _ rfl (.keep _ (.delete _ (.keep _ .nil))))

/-- A script whose text is deleted is another script. -/
theorem emptied_script_is_refused :
    Deleted (fun _ _ _ => True) [html "script" [.text (utf16 "x()")]] [html "script" []] ∧
      checkTrees ascii noLinks shop [html "script" [.text (utf16 "x()")]] [html "script" []] =
        .refused .content_changed (utf16 "<script>") none :=
  ⟨.inside _ (.delete _ .nil) .nil trivial .nil, by decide⟩

end Lynox.Markup
