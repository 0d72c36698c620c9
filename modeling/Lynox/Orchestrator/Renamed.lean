import Lynox.Orchestrator.WorkflowEdit

/-!
# A renamed step is asked for under its new id

A rename rewrites the placeholders of every text and leaves the rest. What stands between two
placeholders cannot begin one, and a rewritten placeholder is one of the same extent, so the new
text is read as the old one with other paths (`replace_rewritten`). A path that began with the old
id begins with the new one, and leads in the context with that key renamed to what the old one led
to (`getByPath_renamed`).

So a step's texts resolve to the same values (`rename_keeps_what_is_asked`). A path that leads nowhere, and the
label of a fence, are the path itself, and show the new id. A placeholder that named the new id before means the
renamed step from then on (`new_id_captures_a_placeholder`).
-/

set_option linter.unusedSectionVars false

namespace Lynox.Workflow

open Text Template

variable {B : Type*}

/-! ## A rewritten text is read again -/

/-- The first closing brace of a text, if there is one, stands alone. -/
def Open (s : JsString) : Prop :=
  ¬ [0x7D, 0x7D].isPrefixOf (s.drop (bodyOf s).length) = true

section Again

variable {f : JsString → JsString} {s t : JsString} {u : UInt16}

theorem bodyOf_cons (h : u ≠ 0x7D) : bodyOf (u :: s) = u :: bodyOf s := by
  simp [bodyOf, h]

theorem open_cons (h : u ≠ 0x7D) : Open (u :: s) ↔ Open s := by
  simp [Open, bodyOf_cons h]

theorem open_close : Open (0x7D :: s) ↔ s.head? ≠ some 0x7D := by
  cases s with
  | nil => simp [Open, bodyOf, List.isPrefixOf]
  | cons v s =>
    simp only [Open, bodyOf, List.head?_cons]
    simpa using not_congr eq_comm

theorem placeholder_of_open (h : Open s) : placeholder s = none := by
  unfold placeholder
  split
  · next s =>
    rw [open_cons (by decide), open_cons (by decide)] at h
    rw [if_neg fun hboth => h hboth.2]
  · rfl

/-- Where a match begins there are two opening braces. -/
theorem of_placeholder {found : JsString × ℕ} (h : placeholder s = some found) :
    ∃ body rest, body ≠ [] ∧ 0x7D ∉ body ∧ s = 0x7B :: 0x7B :: (body ++ 0x7D :: 0x7D :: rest) ∧
      found = (body, body.length + 3) := by
  unfold placeholder at h
  split at h
  · next s =>
    split_ifs at h with hboth
    obtain ⟨rest, hrest⟩ := List.isPrefixOf_iff_prefix.1 hboth.2
    refine ⟨bodyOf s, rest, hboth.1, fun hmem => ?_, ?_, (Option.some.inj h).symm⟩
    · simpa using List.mem_takeWhile_imp hmem
    · have hsplit : bodyOf s ++ s.drop (bodyOf s).length = s :=
        List.prefix_iff_eq_append.1 <| List.takeWhile_prefix _
      rw [← hrest] at hsplit
      have hs : s = bodyOf s ++ 0x7D :: 0x7D :: rest := by simpa using hsplit.symm
      exact congrArg (fun t => 0x7B :: 0x7B :: t) hs
  · cases h

theorem placeholder_body {body : JsString} (hne : body ≠ []) (hclose : 0x7D ∉ body) (rest : JsString) :
    placeholder (0x7B :: 0x7B :: (body ++ 0x7D :: 0x7D :: rest)) = some (body, body.length + 3) := by
  have hbody : bodyOf (body ++ 0x7D :: 0x7D :: rest) = body := by
    have hall : ∀ u ∈ body, decide (u ≠ 0x7D) = true := fun u hu => by
      simpa using fun heq : u = 0x7D => hclose (heq ▸ hu)
    unfold bodyOf
    rw [List.takeWhile_append_of_pos hall]
    simp
  unfold placeholder
  simp only [hbody, hne, ne_eq, not_false_eq_true, true_and, List.drop_left]
  rw [if_pos (by simp [List.isPrefixOf])]

theorem replace_of_some {pattern : Pattern JsString} {g : JsString → JsString} {a : JsString} {n : ℕ}
    (h : pattern (u :: s) = some (a, n)) :
    replace pattern g (u :: s) = g a ++ replace pattern g (s.drop n) := by
  unfold replace
  rw [parts, h]
  simp only
  rw [parts_drop n s]
  rfl

theorem replace_of_none {pattern : Pattern JsString} {g : JsString → JsString}
    (h : pattern (u :: s) = none) :
    replace pattern g (u :: s) = u :: replace pattern g s := by
  unfold replace
  rw [parts, h]
  rfl

/-- A placeholder with another path in it. -/
def braced (body : JsString) : JsString :=
  0x7B :: 0x7B :: (body ++ [0x7D, 0x7D])

/-- Rewriting leaves how a text begins. -/
theorem head_rewritten (s : JsString) :
    (replace placeholder (fun body => braced (f body)) s).head? = s.head? := by
  cases s with
  | nil => rfl
  | cons u s =>
    rcases hmatch : placeholder (u :: s) with _ | ⟨body, n⟩
    · rw [replace_of_none hmatch]
      rfl
    · obtain ⟨_, _, -, -, heq, -⟩ := of_placeholder hmatch
      rw [replace_of_some hmatch]
      obtain ⟨rfl, -⟩ := List.cons.inj heq
      rfl

theorem open_rewritten (h : Open s) : Open (replace placeholder (fun body => braced (f body)) s) := by
  induction s with
  | nil => exact h
  | cons u s ih =>
    rw [replace_of_none (placeholder_of_open h)]
    by_cases hu : u = 0x7D
    · subst hu
      rw [open_close] at h ⊢
      rwa [head_rewritten]
    · rw [open_cons hu] at h ⊢
      exact ih h

/-- No placeholder begins where none began. -/
theorem placeholder_rewritten_none (h : placeholder (u :: s) = none) :
    placeholder (u :: replace placeholder (fun body => braced (f body)) s) = none := by
  by_contra hsome
  obtain ⟨found, hfound⟩ := Option.ne_none_iff_exists'.1 hsome
  obtain ⟨body, rest, hne, hclose, heq, -⟩ := of_placeholder hfound
  obtain ⟨rfl, htail⟩ := List.cons.inj heq
  -- the text goes on with a second opening brace, before and after
  have hhead : s.head? = some 0x7B := by
    rw [← head_rewritten (f := f), htail]
    rfl
  obtain ⟨s, rfl⟩ : ∃ s', s = 0x7B :: s' := by
    cases s with
    | nil => cases hhead
    | cons v s => exact ⟨s, by rw [Option.some.inj hhead]⟩
  by_cases hopen : Open s
  · have hs : Open (0x7B :: s) := (open_cons (by decide)).2 hopen
    have hnone := placeholder_of_open ((open_cons (u := 0x7B) (by decide)).2 (open_rewritten (f := f) hs))
    rw [hnone] at hfound
    cases hfound
  · -- the closing braces follow at once, so there is no path
    have hempty : bodyOf s = [] := by
      by_contra hbody
      have hprefix : [0x7D, 0x7D].isPrefixOf (s.drop (bodyOf s).length) = true := not_not.1 hopen
      simp [placeholder, hbody, hprefix] at h
    obtain ⟨r, rfl⟩ : ∃ r, s = 0x7D :: r := by
      cases s with
      | nil => exact absurd (by simp [Open, bodyOf]) hopen
      | cons v s =>
        by_cases hv : v = 0x7D
        · exact ⟨s, by rw [hv]⟩
        · rw [bodyOf_cons hv] at hempty
          cases hempty
    have hskip : placeholder (0x7B :: 0x7D :: r) = none := rfl
    have hclosed : placeholder (0x7D :: r) = none := rfl
    rw [replace_of_none hskip, replace_of_none hclosed] at htail
    obtain ⟨-, htail⟩ := List.cons.inj htail
    cases body with
    | nil => exact hne rfl
    | cons v body =>
      obtain rfl : 0x7D = v := (List.cons.inj htail).1
      exact hclose List.mem_cons_self

theorem drop_body (body rest : JsString) :
    (0x7B :: (body ++ 0x7D :: 0x7D :: rest)).drop (body.length + 3) = rest := by
  rw [show (0x7B : UInt16) :: (body ++ 0x7D :: 0x7D :: rest) = (0x7B :: (body ++ [0x7D, 0x7D])) ++
    rest by simp]
  exact List.drop_left' (by simp)

theorem braced_append (body rest : JsString) :
    braced body ++ rest = 0x7B :: 0x7B :: (body ++ 0x7D :: 0x7D :: rest) := by
  simp [braced]

/-- A text is its own text, with every placeholder put back. -/
theorem replace_braced (s : JsString) : replace placeholder braced s = s := by
  induction hlen : s.length using Nat.strong_induction_on generalizing s with
  | _ k ih =>
    cases s with
    | nil => rfl
    | cons u s =>
      rcases hmatch : placeholder (u :: s) with _ | ⟨body, n⟩
      · rw [replace_of_none hmatch, ih s.length (by rw [← hlen]; simp) s rfl]
      · obtain ⟨body', rest, -, -, heq, hfound⟩ := of_placeholder hmatch
        obtain ⟨rfl, rfl⟩ := Prod.mk.inj hfound
        obtain ⟨rfl, rfl⟩ := List.cons.inj heq
        rw [replace_of_some hmatch, drop_body,
          ih rest.length (by rw [← hlen]; simp; omega) rest rfl, braced_append]

/-- A text with rewritten placeholders has those placeholders and no others. -/
theorem replace_rewritten (hf : ∀ body, body ≠ [] → 0x7D ∉ body → f body ≠ [] ∧ 0x7D ∉ f body)
    (g : JsString → JsString) (s : JsString) :
    replace placeholder g (replace placeholder (fun body => braced (f body)) s) =
      replace placeholder (fun body => g (f body)) s := by
  induction hlen : s.length using Nat.strong_induction_on generalizing s with
  | _ k ih =>
    cases s with
    | nil => rfl
    | cons u s =>
      rcases hmatch : placeholder (u :: s) with _ | ⟨body, n⟩
      · rw [replace_of_none hmatch, replace_of_none hmatch,
          replace_of_none (placeholder_rewritten_none hmatch)]
        rw [ih s.length (by rw [← hlen]; simp) s rfl]
      · obtain ⟨body', rest, hne, hclose, heq, hfound⟩ := of_placeholder hmatch
        obtain ⟨rfl, rfl⟩ := Prod.mk.inj hfound
        obtain ⟨rfl, rfl⟩ := List.cons.inj heq
        obtain ⟨hne', hclose'⟩ := hf body hne hclose
        have hagain := placeholder_body hne' hclose'
            (replace placeholder (fun body => braced (f body)) rest)
        rw [replace_of_some hmatch, replace_of_some hmatch, drop_body, braced_append,
          replace_of_some hagain,
          drop_body, ih rest.length (by rw [← hlen]; simp; omega) rest rfl]

end Again

/-! ## White space around a path -/

section Spaces

variable {ws blank s : JsString} {u : UInt16}

theorem trim_eq (s : JsString) : trim s = trimEnd (s.dropWhile isWhite) :=
  rfl

theorem dropWhile_all (h : ∀ u ∈ ws, isWhite u = true) : ws.dropWhile isWhite = [] :=
  List.dropWhile_eq_nil_iff.2 h

theorem trimEnd_append_white (h : ∀ u ∈ blank, isWhite u = true) (s : JsString) :
    trimEnd (s ++ blank) = trimEnd s := by
  unfold trimEnd
  rw [List.reverse_append, List.dropWhile_append_of_pos fun u hu => h u (List.mem_reverse.1 hu)]

theorem trim_white_append (h : ∀ u ∈ ws, isWhite u = true) (s : JsString) : trim (ws ++ s) = trim s := by
  rw [trim_eq, trim_eq, List.dropWhile_append_of_pos h]

theorem trim_append_white (h : ∀ u ∈ blank, isWhite u = true) (s : JsString) :
    trim (s ++ blank) = trim s := by
  rw [trim_eq, trim_eq, List.dropWhile_append]
  split_ifs with hs
  · rw [dropWhile_all h, List.isEmpty_iff.1 hs]
  · exact trimEnd_append_white h _

/-- What is behind a unit that shows is trimmed on its own. -/
theorem trimEnd_append_cons (hu : isWhite u = false) (a r : JsString) :
    trimEnd (a ++ u :: r) = a ++ u :: trimEnd r := by
  have hr : (r.reverse ++ (u :: a.reverse)).dropWhile isWhite = r.reverse.dropWhile isWhite ++
      u :: a.reverse := by
    rw [List.dropWhile_append]
    split_ifs with hempty
    · rw [List.isEmpty_iff.1 hempty, List.dropWhile_cons_of_neg (by simp [hu])]
      rfl
    · rfl
  unfold trimEnd
  have hrev : (a ++ u :: r).reverse = r.reverse ++ (u :: a.reverse) := by simp
  rw [hrev, hr]
  simp

theorem trimEnd_prefix (s : JsString) : ∃ blank, (∀ u ∈ blank, isWhite u = true) ∧
    s = trimEnd s ++ blank := by
  obtain ⟨blank, hblank, heq⟩ := exists_white_append s.reverse
  refine ⟨blank.reverse, fun u hu => hblank u (List.mem_reverse.1 hu), ?_⟩
  have hrev := congrArg List.reverse heq
  rwa [List.reverse_reverse, List.reverse_append] at hrev

/-- The two parts of a placeholder's text. -/
theorem spaced_spec (body : JsString) :
    (spaced body).1 ++ (spaced body).2 = body ∧ (∀ u ∈ (spaced body).1, isWhite u = true) ∧
      trim body = trimEnd (spaced body).2 := by
  unfold spaced
  split_ifs with hwhite
  · have hall : ∀ u ∈ body, isWhite u = true := List.all_eq_true.1 hwhite
    have hparts : body.dropLast ++ body.drop (body.length - 1) = body := by
      rw [List.dropLast_eq_take, List.take_append_drop]
    refine ⟨hparts, fun u hu => hall u (List.mem_of_mem_dropLast hu), ?_⟩
    have hlast : trimEnd (body.drop (body.length - 1)) = [] := by
      have hdrop : ∀ u ∈ body.drop (body.length - 1), isWhite u = true := fun u hu =>
        hall u (List.mem_of_mem_drop hu)
      simpa [trimEnd] using trimEnd_append_white hdrop []
    rw [trim_eq, dropWhile_all hall, hlast]
    rfl
  · exact ⟨List.takeWhile_append_dropWhile, fun u hu => List.mem_takeWhile_imp hu, rfl⟩

end Spaces

/-! ## A path under the new id -/

variable {source target : JsString}

/-- A path that begins with the old id, with the new one in its place. -/
def renamedPath (source target path : JsString) : JsString :=
  if path = source ∨ (source ++ [0x2E]).isPrefixOf path = true then target ++
    path.drop source.length else path

/-- The text of a placeholder, rewritten. -/
def renamedBody (source target body : JsString) : JsString :=
  if trimEnd (spaced body).2 ≠ source ∧ ¬ (source ++ [0x2E]).isPrefixOf (spaced body).2 = true then body
  else (spaced body).1 ++ target ++ (spaced body).2.drop source.length

theorem renamedRef_eq (source target body : JsString) :
    renamedRef source target body = braced (renamedBody source target body) := by
  have hopen : utf16 "\x7b\x7b" = [0x7B, 0x7B] := by decide
  have hclose : utf16 "\x7d\x7d" = [0x7D, 0x7D] := by decide
  unfold renamedRef renamedBody braced
  dsimp only
  rw [hopen, hclose]
  split_ifs <;> simp

/-- An id that a new step can have. -/
structure GoodId (id : JsString) : Prop where
  ne_nil : id ≠ []
  dot : 0x2E ∉ id
  close : 0x7D ∉ id
  trimmed : trim id = id

theorem goodId_of_newIdProblem {id : JsString} (h : newIdProblem id = none) : GoodId id := by
  unfold newIdProblem at h
  split_ifs at h with hlen hhash hany htrim
  rw [List.any_eq_true] at hany
  refine ⟨fun hnil => hlen (by simp [hnil]), fun hdot => hany ⟨_, hdot, by decide⟩,
    fun hclose => hany ⟨_, hclose, by decide⟩, not_not.1 fun hne => htrim (.inl hne)⟩

theorem GoodId.dropWhile (h : GoodId target) : target.dropWhile isWhite = target := by
  obtain ⟨blank, -, hblank⟩ := trimEnd_prefix (target.dropWhile isWhite)
  obtain ⟨white, -, hwhite⟩ := exists_white_append target
  rw [← trim_eq, h.trimmed] at hblank
  have hlen := congrArg List.length hwhite
  have hlen' := congrArg List.length hblank
  simp only [List.length_append] at hlen hlen'
  have hnil : white = [] := List.eq_nil_of_length_eq_zero (by omega)
  rw [hnil, List.nil_append] at hwhite
  exact hwhite.symm

theorem renamedBody_spec (htarget : GoodId target) {body : JsString} (hne : body ≠ [])
    (hclose : 0x7D ∉ body) :
    renamedBody source target body ≠ [] ∧ 0x7D ∉ renamedBody source target body := by
  obtain ⟨hparts, -, -⟩ := spaced_spec body
  unfold renamedBody
  split_ifs
  · exact ⟨hne, hclose⟩
  · refine ⟨by simp [htarget.ne_nil], fun hmem => ?_⟩
    rw [← hparts] at hclose
    rcases List.mem_append.1 hmem with hmem | hmem
    · rcases List.mem_append.1 hmem with hmem | hmem
      · exact hclose (List.mem_append_left _ hmem)
      · exact htarget.close hmem
    · exact hclose (List.mem_append_right _ (List.mem_of_mem_drop hmem))

theorem isPrefixOf_dot {path : JsString} :
    (source ++ [0x2E]).isPrefixOf path = true ↔ ∃ rest, path = source ++ 0x2E :: rest := by
  rw [List.isPrefixOf_iff_prefix]
  constructor
  · rintro ⟨rest, hrest⟩
    exact ⟨rest, by simpa using hrest.symm⟩
  · rintro ⟨rest, rfl⟩
    exact ⟨rest, by simp⟩

/-- The path of a rewritten placeholder is the rewritten path. -/
theorem trim_renamedBody (htarget : GoodId target) (body : JsString) :
    trim (renamedBody source target body) = renamedPath source target (trim body) := by
  obtain ⟨-, hwhite, htrim⟩ := spaced_spec body
  have hdot : isWhite 0x2E = false := by decide
  unfold renamedBody
  rcases hsp : spaced body with ⟨ws, path⟩
  rw [hsp] at hwhite htrim
  simp only at hwhite htrim ⊢
  obtain ⟨blank, hblank, hpath⟩ := trimEnd_prefix path
  by_cases hprefix : (source ++ [0x2E]).isPrefixOf path = true
  · obtain ⟨rest, rfl⟩ := isPrefixOf_dot.1 hprefix
    have hend : trimEnd (source ++ 0x2E :: rest) = source ++ 0x2E :: trimEnd rest :=
      trimEnd_append_cons hdot _ _
    have htarget' : (target ++ 0x2E :: rest).dropWhile isWhite = target ++ 0x2E :: rest := by
      rw [List.dropWhile_append, htarget.dropWhile]
      simp [htarget.ne_nil]
    rw [if_neg (fun h => h.2 hprefix), htrim, hend, renamedPath,
      if_pos (.inr (isPrefixOf_dot.2 ⟨_, rfl⟩)), List.append_assoc, trim_white_append hwhite,
        List.drop_left,
      List.drop_left, trim_eq, htarget', trimEnd_append_cons hdot]
  · by_cases heq : trimEnd path = source
    · have hdrop : path.drop source.length = blank := by
        rw [hpath, heq, List.drop_left]
      rw [if_neg (fun h => h.1 heq), hdrop, List.append_assoc, trim_white_append hwhite,
        trim_append_white hblank,
        htarget.trimmed, htrim, renamedPath, if_pos (.inl heq), heq, List.drop_length, List.append_nil]
    · have hnot : ¬ (trimEnd path = source ∨ (source ++ [0x2E]).isPrefixOf (trimEnd path) = true) := by
        rintro (h | h)
        · exact heq h
        · obtain ⟨rest, hrest⟩ := isPrefixOf_dot.1 h
          exact hprefix (isPrefixOf_dot.2 ⟨rest ++ blank, by rw [hpath, hrest]; simp⟩)
      rw [if_pos ⟨heq, hprefix⟩, htrim, renamedPath, if_neg hnot]

/-! ## What a path leads to -/

/-- The id a path begins with. -/
def headOf (path : JsString) : JsString :=
  ((split 0x2E path).head?).getD []

/-- A path that begins with the old id begins with the new one, and goes on as it did. -/
theorem split_renamedPath (hsource : 0x2E ∉ source) (htarget : 0x2E ∉ target) (path : JsString) :
    ∃ name names, split 0x2E path = name :: names ∧
      split 0x2E (renamedPath source target path) = (if name = source then target else name) :: names := by
  rcases hsplit : split 0x2E path with _ | ⟨name, names⟩
  · exact absurd hsplit (split_ne_nil _ _)
  refine ⟨name, names, rfl, ?_⟩
  obtain ⟨hname, hparts⟩ := split_cons hsplit
  unfold renamedPath
  rcases hparts with ⟨rfl, rfl⟩ | ⟨rest, rfl, rfl⟩
  · by_cases heq : path = source
    · subst heq
      rw [if_pos (.inl rfl), if_pos rfl, List.drop_length, List.append_nil, split_of_notMem htarget]
    · have hprefix : ¬ (source ++ [0x2E]).isPrefixOf path = true := fun h => by
        obtain ⟨rest, rfl⟩ := isPrefixOf_dot.1 h
        simp at hname
      rw [if_neg (not_or.2 ⟨heq, hprefix⟩), if_neg heq, split_of_notMem hname]
  · by_cases heq : name = source
    · subst heq
      rw [if_pos (.inr (isPrefixOf_dot.2 ⟨rest, rfl⟩)), if_pos rfl, List.drop_left, split_piece htarget]
    · have hnot : ¬ (name ++ 0x2E :: rest = source ∨
        (source ++ [0x2E]).isPrefixOf (name ++ 0x2E :: rest) = true) := by
        rintro (h | h)
        · exact hsource (by rw [← h]; simp)
        · obtain ⟨rest', hrest'⟩ := isPrefixOf_dot.1 h
          have hpiece := congrArg (split 0x2E) hrest'
          rw [split_piece hname, split_piece hsource] at hpiece
          exact heq (List.cons.inj hpiece).1
      rw [if_neg hnot, if_neg heq, split_piece hname]

/-- The context with the key of the old id under the new one. -/
def renamedKey (source target : JsString) (context : Fields) : Fields :=
  context.map fun e => (if e.1 = source then target else e.1, e.2)

theorem get_renamedKey {context : Fields} (hnew : source ≠ target → target ∉ context.map Prod.fst)
    {name : JsString} (hname : source ≠ target → name ≠ target) :
    Assoc.get (renamedKey source target context) (if name = source then target else name) =
      Assoc.get context name := by
  by_cases hsame : source = target
  · subst hsame
    have hid : ∀ key : JsString, (if key = source then source else key) = key := fun key => by
      split_ifs with h
      · exact h.symm
      · rfl
    simp [renamedKey, hid]
  have hnew := hnew hsame
  have hname := hname hsame
  induction context with
  | nil => rfl
  | cons e context ih =>
    obtain ⟨key, value⟩ := e
    obtain ⟨hkey, hrest⟩ : key ≠ target ∧ target ∉ context.map Prod.fst := by
      simpa [eq_comm] using hnew
    have ih := ih (fun _ => hrest) hrest
    have hcons : renamedKey source target ((key, value) :: context) =
        (if key = source then target else key, value) :: renamedKey source target context := rfl
    rw [hcons]
    by_cases heq : key = name
    · subst heq
      rw [get_object_cons, get_object_cons]
    · have hne : (if key = source then target else key) ≠ if name = source then target else name := by
        split_ifs with hk hn hn
        · exact fun _ => heq (hk.trans hn.symm)
        · exact hname.symm
        · exact hkey
        · exact heq
      rw [get_object_cons_of_ne hne, get_object_cons_of_ne heq, ih]

variable {E : Builtins B} {context : Fields}

/-- The new id is new in a context, and where the old one is not in it neither is a name that every
object inherits. -/
structure NewIn (E : Builtins B) (source target : JsString) (context : Fields) : Prop where
  key : source ≠ target → target ∉ context.map Prod.fst
  inherited : source ∉ context.map Prod.fst → E.inherited false source = none ∧
    E.inherited false target = none

theorem getByPath_renamed (hnew : NewIn E source target context) (hsource : 0x2E ∉ source)
    (htarget : 0x2E ∉ target)
    {path : JsString} (hpath : source ≠ target → headOf path ≠ target) :
    E.getByPath (renamedKey source target context) (renamedPath source target path) =
      E.getByPath context path := by
  obtain ⟨name, names, hsplit, hrenamed⟩ := split_renamedPath hsource htarget path
  have hname : source ≠ target → name ≠ target := by simpa [headOf, hsplit] using hpath
  unfold Builtins.getByPath
  rw [hsplit, hrenamed, Builtins.follow, Builtins.follow, Builtins.step, Builtins.step,
    get_renamedKey hnew.key hname]
  by_cases heq : name = source
  · rw [if_pos heq, heq]
    rcases hget : Assoc.get context source with _ | v
    · obtain ⟨hold, hnone⟩ := hnew.inherited (Assoc.get_eq_none.1 hget)
      rw [Builtins.orInherited, Builtins.orInherited, hold, hnone]
    · rfl
  · rw [if_neg heq]

/-! ## What a task is resolved to -/

/-- What decides how a value stands in a task : which values of the language are functions, the
fence, what it is put around, and the values a person has accepted. -/
structure Fences (B : Type*) where
  isFunction : B → Bool
  wrapUntrustedData : (content source : JsString) → JsString
  detectInjectionAttempt : JsString → Bool
  isAccepted : Option (JsString → Found B → Bool)
  fenceStepOutputs : Bool

/-- What a placeholder becomes, by its path and what that leads to. -/
def shownAs (E : Builtins B) (F : Fences B) (path : JsString) (value : Option (Found B)) : JsString :=
  match value.filter fun | .builtin b => !F.isFunction b | .data _ => true with
  | none => utf16 "\x7b\x7b" ++ path ++ utf16 "\x7d\x7d"
  | some value =>
    let str := E.found value
    if path = paramsName ∨ (utf16 "params.").isPrefixOf path = true then
      if F.isAccepted.any fun accepts => accepts path value then str
      else F.wrapUntrustedData str (utf16 "workflow_param:" ++ path)
    else if F.fenceStepOutputs || F.detectInjectionAttempt str then
      F.wrapUntrustedData str (utf16 "pipeline_step:" ++ path)
    else str

def resolveTaskTemplate (E : Builtins B) (F : Fences B) (task : JsString) (context : Fields) : JsString :=
  replace placeholder (fun rawPath => shownAs E F (trim rawPath) (E.getByPath context (trim rawPath))) task

theorem renamedRefs_eq (text source target : JsString) :
    renamedRefs text source target =
      replace placeholder (fun body => braced (renamedBody source target body)) text := by
  unfold renamedRefs
  exact replace_congr fun body _ => renamedRef_eq source target body

/-- None of the paths begins with the new id, unless it is the old one. -/
def Unnamed (source target : JsString) (paths : List JsString) : Prop :=
  source ≠ target → ∀ path ∈ paths, headOf path ≠ target

/-- The values of a task are the same, each shown by its path under the new id. -/
theorem resolveTaskTemplate_renamed (F : Fences B) (hnew : NewIn E source target context)
    (hsource : 0x2E ∉ source) (htarget : GoodId target) {task : JsString}
    (htask : Unnamed source target (pathsOf task)) :
    resolveTaskTemplate E F (renamedRefs task source target) (renamedKey source target context) =
      replace placeholder (fun rawPath => shownAs E F (renamedPath source target (trim rawPath))
        (E.getByPath context (trim rawPath))) task := by
  unfold resolveTaskTemplate
  rw [renamedRefs_eq, replace_rewritten fun body hne hclose => renamedBody_spec htarget hne hclose]
  refine replace_congr fun body hbody => ?_
  rw [trim_renamedBody htarget,
    getByPath_renamed hnew hsource htarget.dot fun hne => htask hne _ (List.mem_map_of_mem hbody)]

/-! ## What an input template becomes -/

/-- The paths that begin with the old id lead somewhere. -/
def Resolves (E : Builtins B) (source : JsString) (context : Fields) (paths : List JsString) : Prop :=
  ∀ path ∈ paths, headOf path = source → E.getByPath context path ≠ none

theorem renamedPath_of_ne (hsource : 0x2E ∉ source) {path : JsString} (h : headOf path ≠ source) :
    renamedPath source target path = path := by
  unfold renamedPath
  rw [if_neg]
  rintro (rfl | hprefix)
  · exact h (by simp [headOf, split_of_notMem hsource])
  · obtain ⟨rest, rfl⟩ := isPrefixOf_dot.1 hprefix
    exact h (by simp [headOf, split_piece hsource])

theorem renamedBody_of_ne (hsource : 0x2E ∉ source) {body : JsString} (h : headOf (trim body) ≠ source) :
    renamedBody source target body = body := by
  obtain ⟨-, -, htrim⟩ := spaced_spec body
  unfold renamedBody
  rw [if_pos]
  refine ⟨fun heq => h ?_, fun hprefix => h ?_⟩
  · rw [htrim, heq, headOf, split_of_notMem hsource]
    rfl
  · obtain ⟨rest, hrest⟩ := isPrefixOf_dot.1 hprefix
    rw [htrim, hrest, trimEnd_append_cons (by decide), headOf, split_piece hsource]
    rfl

/-- A text that does not name the step stays. -/
theorem renamedRefs_of_ne (hsource : 0x2E ∉ source) {s : JsString}
    (h : ∀ path ∈ pathsOf s, headOf path ≠ source) :
    renamedRefs s source target = s := by
  rw [renamedRefs_eq]
  conv_rhs => rw [← replace_braced s]
  refine replace_congr fun body hbody => ?_
  rw [renamedBody_of_ne hsource (h _ (List.mem_map_of_mem hbody))]

/-- A text is one placeholder after the rename where it was one before. -/
theorem solePlaceholder_renamed (htarget : GoodId target) (s : JsString) :
    solePlaceholder (renamedRefs s source target) =
      (solePlaceholder s).map (renamedPath source target) := by
  rw [renamedRefs_eq]
  unfold solePlaceholder
  rcases hmatch : placeholder s with _ | ⟨body, n⟩
  · cases s with
    | nil => rfl
    | cons u s =>
      rw [replace_of_none hmatch, placeholder_rewritten_none hmatch]
      rfl
  · obtain ⟨body', rest, hne, hclose, rfl, hfound⟩ := of_placeholder hmatch
    obtain ⟨rfl, rfl⟩ := Prod.mk.inj hfound
    obtain ⟨hne', hclose'⟩ := @renamedBody_spec source target htarget _ hne hclose
    have hempty : (replace placeholder
        (fun body => braced (renamedBody source target body)) rest).length = 0 ↔
        rest.length = 0 := by
      rw [List.length_eq_zero_iff, List.length_eq_zero_iff, ← List.head?_eq_none_iff,
        ← List.head?_eq_none_iff,
        head_rewritten]
    have hagain := placeholder_body hne' hclose'
      (replace placeholder (fun body => braced (renamedBody source target body)) rest)
    rw [replace_of_some hmatch, drop_body, braced_append, hagain]
    simp only [List.length_cons, List.length_append, trim_renamedBody htarget]
    by_cases hrest : rest.length = 0
    · rw [if_pos (by rw [hempty.2 hrest]), if_pos (by rw [hrest])]
      rfl
    · rw [if_neg (by have := mt hempty.1 hrest; omega), if_neg (by omega)]
      rfl

/-- A text of a template. -/
theorem substituteString_renamed (hnew : NewIn E source target context) (hsource : 0x2E ∉ source)
    (htarget : GoodId target) {s : JsString} (hs : Unnamed source target (pathsOf s))
    (hresolves : Resolves E source context (pathsOf s)) :
    E.substituteString (renamedRefs s source target) (renamedKey source target context) =
      E.substituteString s context := by
  unfold Builtins.substituteString
  rw [solePlaceholder_renamed htarget]
  rcases hsole : solePlaceholder s with _ | path
  · simp only [Option.map_none]
    refine congrArg (fun t => Found.data (.string t)) ?_
    rw [renamedRefs_eq, replace_rewritten fun body hne hclose => renamedBody_spec htarget hne hclose]
    refine replace_congr fun body hbody => ?_
    have hmem : trim body ∈ pathsOf s := List.mem_map_of_mem hbody
    have hget := getByPath_renamed hnew hsource htarget.dot fun hne => hs hne _ hmem
    unfold Builtins.interpolate
    rw [trim_renamedBody htarget, hget]
    by_cases hhead : headOf (trim body) = source
    · obtain ⟨v, hv⟩ := Option.ne_none_iff_exists'.1 (hresolves _ hmem hhead)
      rw [hv]
    · rw [renamedPath_of_ne hsource hhead]
  · have hmem : path ∈ pathsOf s := by rw [pathsOf_sole hsole]; exact List.mem_singleton_self _
    simp only [Option.map_some, getByPath_renamed hnew hsource htarget.dot (fun hne => hs hne _ hmem)]
    by_cases hhead : headOf path = source
    · obtain ⟨v, hv⟩ := Option.ne_none_iff_exists'.1 (hresolves _ hmem hhead)
      rw [hv]
      rfl
    · rw [renamedRefs_of_ne hsource]
      intro other hother
      rw [pathsOf_sole hsole, List.mem_singleton] at hother
      rwa [hother]

theorem dropped_renamed (htarget : GoodId target) (name : JsString) (v : Value) :
    dropped name (renamedInTemplate source target v) = dropped name v := by
  cases v with
  | string s => simp [renamedInTemplate, dropped, solePlaceholder_renamed htarget]
  | _ => simp [renamedInTemplate, dropped]

section Walk

variable (hnew : NewIn E source target context) (hsource : 0x2E ∉ source) (htarget : GoodId target)

include hnew hsource htarget

mutual

/-- A template whose references to the step lead somewhere becomes what it became. -/
theorem walk_renamed : ∀ {v : Value}, Unnamed source target (reads v) →
    Resolves E source context (reads v) →
    E.walk (renamedKey source target context) (renamedInTemplate source target v) = E.walk context v
  | .null, _, _ => rfl
  | .bool _, _, _ => rfl
  | .number _ _, _, _ => rfl
  | .string s, h, hresolves => by
    rw [renamedInTemplate, Builtins.walk, Builtins.walk,
      substituteString_renamed hnew hsource htarget h hresolves]
  | .array items, h, hresolves => by
    rw [renamedInTemplate, Builtins.walk, Builtins.walk, walkItems_renamed h hresolves]
  | .object fields, h, hresolves => by
    rw [renamedInTemplate, Builtins.walk, Builtins.walk, walkFields_renamed h hresolves]

theorem walkItems_renamed : ∀ {items : List Value}, Unnamed source target (readsItems items) →
    Resolves E source context (readsItems items) →
    E.walkItems (renamedKey source target context) (renamedInItems source target items) =
      E.walkItems context items
  | [], _, _ => rfl
  | item :: items, h, hresolves => by
    rw [renamedInItems, Builtins.walkItems, Builtins.walkItems,
      walk_renamed (fun hne path hpath => h hne path (List.mem_append_left _ hpath))
        (fun path hpath => hresolves path (List.mem_append_left _ hpath)),
      walkItems_renamed (fun hne path hpath => h hne path (List.mem_append_right _ hpath))
        (fun path hpath => hresolves path (List.mem_append_right _ hpath))]

theorem walkFields_renamed : ∀ {fields : List (JsString × Value)},
    Unnamed source target (readsFields fields) → Resolves E source context (readsFields fields) →
    E.walkFields (renamedKey source target context) (renamedInFields source target fields) =
      E.walkFields context fields
  | [], _, _ => rfl
  | (name, value) :: fields, h, hresolves => by
    have hrest := walkFields_renamed (fun hne path hpath => h hne path (List.mem_append_right _ hpath))
      (fun path hpath => hresolves path (List.mem_append_right _ hpath))
    rw [renamedInFields, Builtins.walkFields, Builtins.walkFields, hrest]
    cases hdropped : dropped name value with
    | true =>
      rw [assign_dropped hdropped, assign_dropped ((dropped_renamed htarget name value).trans hdropped)]
    | false =>
      have hmem : ∀ path ∈ reads value, path ∈ readsFields ((name, value) :: fields) := fun path hpath =>
        List.mem_append_left _ (by rw [hdropped]; exact hpath)
      rw [walk_renamed (fun hne path hpath => h hne path (hmem path hpath)) fun path hpath =>
        hresolves path (hmem path hpath)]

end

end Walk

/-! ## A rename that is accepted -/

/-- The references to the step in a task lead to values that no fence is put around. -/
def Bare (E : Builtins B) (F : Fences B) (source : JsString) (context : Fields) (task : JsString) : Prop :=
  ∀ path ∈ pathsOf task, headOf path = source → ∃ v, E.getByPath context path = some v ∧
    (∀ b, v = .builtin b → F.isFunction b = false) ∧ F.fenceStepOutputs = false ∧
    F.detectInjectionAttempt (E.found v) = false

theorem not_params {path : JsString} (h : headOf path ≠ paramsName) :
    ¬ (path = paramsName ∨ (utf16 "params.").isPrefixOf path = true) := by
  have hdot : utf16 "params." = paramsName ++ [0x2E] := by decide
  have hno : (0x2E : UInt16) ∉ paramsName := by decide
  rw [hdot]
  rintro (rfl | hprefix)
  · exact h (by rw [headOf, split_of_notMem hno]; rfl)
  · obtain ⟨rest, rfl⟩ := isPrefixOf_dot.1 hprefix
    exact h (by rw [headOf, split_piece hno]; rfl)

theorem headOf_renamedPath (hsource : 0x2E ∉ source) (htarget : 0x2E ∉ target) {path : JsString}
    (h : headOf path = source) : headOf (renamedPath source target path) = target := by
  obtain ⟨name, names, hsplit, hrenamed⟩ := split_renamedPath hsource htarget path
  have hname : name = source := by simpa [headOf, hsplit] using h
  simp [headOf, hrenamed, hname]

theorem shownAs_bare (F : Fences B) {path : JsString} (hpath : headOf path ≠ paramsName) {v : Found B}
    (hv : ∀ b, v = .builtin b → F.isFunction b = false) (hfence : F.fenceStepOutputs = false)
    (hdetect : F.detectInjectionAttempt (E.found v) = false) : shownAs E F path (some v) = E.found v := by
  have hfilter : (some v).filter (fun | .builtin b => !F.isFunction b | .data _ => true) = some v := by
    cases v with
    | data => rfl
    | builtin b => simp [Option.filter, hv b rfl]
  unfold shownAs
  rw [hfilter]
  simp only [hfence, hdetect, Bool.or_self]
  rw [if_neg (not_params hpath)]
  rfl

/-- A task whose references to the step are bare is asked for in the same words. -/
theorem resolveTaskTemplate_bare (F : Fences B) (hnew : NewIn E source target context)
    (hsource : 0x2E ∉ source)
    (htarget : GoodId target) (hparams : source ≠ paramsName) (hparams' : target ≠ paramsName)
    {task : JsString}
    (htask : Unnamed source target (pathsOf task)) (hbare : Bare E F source context task) :
    resolveTaskTemplate E F (renamedRefs task source target) (renamedKey source target context) =
      resolveTaskTemplate E F task context := by
  rw [resolveTaskTemplate_renamed F hnew hsource htarget htask]
  refine replace_congr fun body hbody => ?_
  by_cases hhead : headOf (trim body) = source
  · obtain ⟨v, hv, hfun, hfence, hdetect⟩ := hbare _ (List.mem_map_of_mem hbody) hhead
    have hnew' : headOf (renamedPath source target (trim body)) ≠ paramsName := by
      rw [headOf_renamedPath hsource htarget.dot hhead]
      exact hparams'
    rw [hv, shownAs_bare F hnew' hfun hfence hdetect, shownAs_bare F (hhead ▸ hparams) hfun hfence hdetect]
  · rw [renamedPath_of_ne hsource hhead]

theorem renameStep_ok {hidden : ℕ → Bool} {steps steps' : List InlineStep} {mod : StepModification} {i : ℕ}
    {source : JsString} (h : renameStep hidden steps mod i source = .ok steps') :
    ∃ target, mod.value = some target ∧ GoodId target ∧ steps' = withNewId steps i source target := by
  unfold renameStep at h
  split at h
  · cases h
  · next target hgiven =>
    split at h
    · cases h
    · cases h
    · next _ hproblem =>
      split_ifs at h
      obtain ⟨hvalue, -⟩ := Option.filter_eq_some_iff.1 hgiven
      exact ⟨target, hvalue, goodId_of_newIdProblem hproblem, (Except.ok.inj h).symm⟩

/-- A rename that is not refused gives the step a new id and rewrites every step. -/
theorem applyModifications_rename {hidden : ℕ → Bool} {steps : List InlineStep} {mod : StepModification}
    (hmod : mod.action = .renameStep) (hok : (applyModifications hidden steps [mod]).error = none) :
    ∃ (i : ℕ) (step : InlineStep) (target : JsString), resolveStep hidden steps mod.stepId = .index i ∧
      steps[i]? = some step ∧ mod.value = some target ∧ GoodId target ∧
      (applyModifications hidden steps [mod]).steps = withNewId steps i step.id target := by
  rcases happly : applyModification hidden steps mod with ⟨notes, e | steps'⟩
  · simp [applyModifications, happly] at hok
  have hsteps : (applyModifications hidden steps [mod]).steps =
      steps' := by simp [applyModifications, happly]
  rw [hsteps]
  unfold applyModification at happly
  rw [if_neg (by rw [hmod]; decide)] at happly
  rcases hindex : stepIndex hidden steps mod.stepId with ⟨found, note⟩
  simp only [hindex] at happly
  cases found with
  | ambiguous => cases happly
  | missing => cases happly
  | index i =>
    have hlt : i < steps.length := lt_of_stepIndex hindex
    have hi : steps[i]? = some steps[i] := List.getElem?_eq_getElem hlt
    simp only [hi] at happly
    have hedit := (Prod.mk.inj happly).2
    simp only [editStep, hmod] at hedit
    obtain ⟨target, hvalue, hgood, heq⟩ := renameStep_ok hedit
    exact ⟨i, steps[i], target, by rw [← stepIndex_fst, hindex], hi, hvalue, hgood, heq⟩

/-- What a rename leaves of a step. -/
theorem getElem_withNewId {steps : List InlineStep} {i j : ℕ} {s s' : InlineStep} (hs : steps[j]? = some s)
    (hs' : (withNewId steps i source target)[j]? = some s') :
    s'.task = renamedRefs s.task source target ∧
      s'.inputTemplate = s.inputTemplate.map (renamedInFields source target) := by
  unfold withNewId at hs'
  rw [List.getElem?_map, List.getElem?_modify, hs] at hs'
  obtain rfl := Option.some.inj hs'
  split_ifs <;> exact ⟨rfl, rfl⟩

/-- After the rename a step asks for the values it asked for, each by its path under the new id, in
the same words where the references to the renamed step are bare, and its input template, where they
lead somewhere, becomes what it became. -/
structure AsksTheSame (E : Builtins B) (F : Fences B) (source target : JsString) (context : Fields)
    (s s' : InlineStep) : Prop where
  values : Unnamed source target (pathsOf s.task) →
    resolveTaskTemplate E F s'.task (renamedKey source target context) =
      replace placeholder (fun rawPath => shownAs E F (renamedPath source target (trim rawPath))
        (E.getByPath context (trim rawPath))) s.task
  words : Unnamed source target (pathsOf s.task) → source ≠ paramsName → target ≠ paramsName →
    Bare E F source context s.task →
    resolveTaskTemplate E F s'.task (renamedKey source target context) =
      resolveTaskTemplate E F s.task context
  template : ∀ template, s.inputTemplate = some template → Unnamed source target (readsFields template) →
    Resolves E source context (readsFields template) →
    ∃ template', s'.inputTemplate = some template' ∧
      E.resolveInputTemplate (.object template') (renamedKey source target context) =
        E.resolveInputTemplate (.object template) context

/-- A rename that is not refused, of a step whose id has no point in it : every step asks for the
same in every context whose key for the step is renamed with it. -/
theorem rename_keeps_what_is_asked (E : Builtins B) (F : Fences B) (hidden : ℕ → Bool)
    (steps : List InlineStep)
    (mod : StepModification) (hmod : mod.action = .renameStep)
    (hok : (applyModifications hidden steps [mod]).error = none) :
    ∃ (i : ℕ) (step : InlineStep) (target : JsString), resolveStep hidden steps mod.stepId = .index i ∧
      steps[i]? = some step ∧ mod.value = some target ∧
        (0x2E ∉ step.id → ∀ context, NewIn E step.id target context → ∀ (j : ℕ) (s s' : InlineStep),
        steps[j]? = some s → (applyModifications hidden steps [mod]).steps[j]? = some s' →
        AsksTheSame E F step.id target context s s') := by
  obtain ⟨i, step, target, hindex, hstep, hvalue, hgood, hsteps⟩ := applyModifications_rename hmod hok
  refine ⟨i, step, target, hindex, hstep, hvalue, fun hdot context hnew j s s' hs hs' => ?_⟩
  rw [hsteps] at hs'
  obtain ⟨htask, htemplate⟩ := getElem_withNewId hs hs'
  refine ⟨fun hunnamed => ?_, fun hunnamed hparams hparams' hbare => ?_,
    fun template hsome hunnamed hresolves => ?_⟩
  · rw [htask]
    exact resolveTaskTemplate_renamed F hnew hdot hgood hunnamed
  · rw [htask]
    exact resolveTaskTemplate_bare F hnew hdot hgood hparams hparams' hunnamed hbare
  · refine ⟨renamedInFields step.id target template, by rw [htemplate, hsome]; rfl, ?_⟩
    unfold Builtins.resolveInputTemplate
    rw [Builtins.walk, Builtins.walk, walkFields_renamed hnew hdot hgood hunnamed hresolves]

/-- Objects that inherit nothing. -/
def noBuiltins : Builtins Unit :=
  ⟨fun _ _ => none, fun _ _ => none, fun _ => []⟩

/-- A run in which nothing looks like an injection, with the label in front of what is fenced. -/
def calm : Fences Unit :=
  ⟨fun _ => false, fun content source => source ++ [0x0A] ++ content, fun _ => false, none, false⟩

/-- A step that reads another's result reads it under the other's new id. -/
theorem renamed_result_is_read :
    ∃ s', (applyModifications (fun _ => false)
        [⟨utf16 "a", utf16 "A", none, none, []⟩,
          ⟨utf16 "b", utf16 "x \x7b\x7ba.result\x7d\x7d", none, none, []⟩]
        [⟨.renameStep, utf16 "a", some (utf16 "c"), none, none⟩]).steps[1]? = some s' ∧
      resolveTaskTemplate noBuiltins calm s'.task
        (renamedKey (utf16 "a") (utf16 "c")
          [(utf16 "a", .object [(utf16 "result", .string (utf16 "1"))])]) =
          utf16 "x 1" := by
  obtain ⟨i, step, target, hindex, hstep, hvalue, hsame⟩ := rename_keeps_what_is_asked noBuiltins calm
    (fun _ => false)
    [⟨utf16 "a", utf16 "A", none, none, []⟩,
      ⟨utf16 "b", utf16 "x \x7b\x7ba.result\x7d\x7d", none, none, []⟩]
    ⟨.renameStep, utf16 "a", some (utf16 "c"), none, none⟩ rfl (by decide)
  obtain rfl : 0 = i := Named.index.inj ((by decide : _ = Named.index 0).symm.trans hindex)
  obtain rfl := Option.some.inj hstep
  obtain rfl := Option.some.inj hvalue
  have hpaths : pathsOf (utf16 "x \x7b\x7ba.result\x7d\x7d") = [utf16 "a.result"] := by decide
  refine ⟨_, rfl, ((hsame (by decide) _ ⟨by decide, fun _ => ⟨rfl, rfl⟩⟩ 1 _ _ rfl rfl).words ?_
    (by decide) (by decide)
    ?_).trans (by decide)⟩
  · intro _ path hpath
    rw [hpaths, List.mem_singleton] at hpath
    rw [hpath]
    decide
  · intro path hpath _
    rw [hpaths, List.mem_singleton] at hpath
    rw [hpath]
    exact ⟨_, rfl, fun b _ => rfl, rfl, rfl⟩

/-- A reference that leads nowhere shows the new id, and a placeholder that led nowhere leads to the
step that gets its name. -/
theorem new_id_captures_a_placeholder :
    ((applyModifications (fun _ => false)
        [⟨utf16 "a", utf16 "A", none, none, []⟩,
          ⟨utf16 "b", utf16 "\x7b\x7ba.result\x7d\x7d", none, none, []⟩]
        [⟨.renameStep, utf16 "a", some (utf16 "c"), none, none⟩]).steps.map fun s =>
          resolveTaskTemplate noBuiltins calm s.task (renamedKey (utf16 "a") (utf16 "c") [])) ≠
      [⟨utf16 "a", utf16 "A", none, none, []⟩,
        ⟨utf16 "b", utf16 "\x7b\x7ba.result\x7d\x7d", none, none, []⟩].map
        (fun s : InlineStep => resolveTaskTemplate noBuiltins calm s.task []) ∧
    ((applyModifications (fun _ => false)
        [⟨utf16 "a", utf16 "A", none, none, []⟩, ⟨utf16 "b", utf16 "\x7b\x7bc\x7d\x7d", none, none, []⟩]
        [⟨.renameStep, utf16 "a", some (utf16 "c"), none, none⟩]).steps.map fun s =>
          resolveTaskTemplate noBuiltins calm s.task
            (renamedKey (utf16 "a") (utf16 "c") [(utf16 "a", .string (utf16 "1"))])) ≠
      [⟨utf16 "a", utf16 "A", none, none, []⟩, ⟨utf16 "b", utf16 "\x7b\x7bc\x7d\x7d", none, none, []⟩].map
        fun s : InlineStep => resolveTaskTemplate noBuiltins calm s.task
          [(utf16 "a", .string (utf16 "1"))] := by
  constructor <;> decide

end Lynox.Workflow
