import Lynox.Text.Stringify

/-!
# A pattern read over a whole text

`parts` reads a text from its start as a global pattern is read : where the pattern matches, the
match is one part and reading goes on behind it, and elsewhere one unit is a part. `matchAll` lists
what the matches captured, `replace` puts another text in the place of each, and `split` cuts a text
at every unit of one kind.

What a text's matches are told decides the text `replace` makes (`replace_congr`). A pattern no match
of which crosses a unit `c` is read on the two sides of `c` apart (`matchAll_append`).
-/

namespace Lynox.Text

variable {α : Type*}

/-- A match at the head of a text : what it captures and how many units follow its first one. -/
abbrev Pattern (α : Type*) := JsString → Option (α × ℕ)

/-- A unit no match holds, or a match. -/
inductive Part (α : Type*)
  | unit (u : UInt16)
  | found (a : α)

def Part.captured : Part α → Option α
  | .unit _ => none
  | .found a => some a

/-- The text of a part, a match by `f`. -/
def Part.text (f : α → JsString) : Part α → JsString
  | .unit u => [u]
  | .found a => f a

/-- The parts of a text, after the units of a match that are still to be passed over. -/
def parts (pattern : Pattern α) : ℕ → JsString → List (Part α)
  | _, [] => []
  | n + 1, _ :: s => parts pattern n s
  | 0, u :: s =>
    match pattern (u :: s) with
    | some (a, n) => .found a :: parts pattern n s
    | none => .unit u :: parts pattern 0 s

def matchAll (pattern : Pattern α) (s : JsString) : List α :=
  (parts pattern 0 s).filterMap Part.captured

def replace (pattern : Pattern α) (f : α → JsString) (s : JsString) : JsString :=
  (parts pattern 0 s).flatMap (Part.text f)

variable {pattern : Pattern α} {a : α} {n : ℕ} {u c : UInt16} {s t : JsString}

theorem parts_drop : ∀ (n : ℕ) (s : JsString), parts pattern n s = parts pattern 0 (s.drop n)
  | 0, s => by rw [List.drop_zero]
  | n + 1, [] => by rw [List.drop_nil, parts, parts]
  | n + 1, u :: s => by rw [parts, List.drop_succ_cons, parts_drop n s]

@[simp] theorem matchAll_nil : matchAll pattern [] = [] := rfl

theorem matchAll_of_some (h : pattern (u :: s) = some (a, n)) :
    matchAll pattern (u :: s) = a :: matchAll pattern (s.drop n) := by
  unfold matchAll
  rw [parts, h]
  simp only
  rw [parts_drop n s]
  rfl

theorem matchAll_of_none (h : pattern (u :: s) = none) :
    matchAll pattern (u :: s) = matchAll pattern s := by
  unfold matchAll
  rw [parts, h]
  rfl

/-- A text is replaced by what its matches are told. -/
theorem replace_congr {f g : α → JsString} (h : ∀ a ∈ matchAll pattern s, f a = g a) :
    replace pattern f s = replace pattern g s := by
  refine List.flatMap_congr fun p hp => ?_
  cases p with
  | unit u => rfl
  | found a => exact h a (List.mem_filterMap.mpr ⟨_, hp, rfl⟩)

/-! ## A pattern that does not cross a unit -/

/-- No match holds `c`, and what follows `c` decides none. -/
structure Within (c : UInt16) (pattern : Pattern α) : Prop where
  head : ∀ t, pattern (c :: t) = none
  cut : ∀ u s t, pattern (u :: (s ++ c :: t)) = pattern (u :: s)
  short : ∀ {u s a n}, pattern (u :: s) = some (a, n) → n ≤ s.length

theorem matchAll_append (hp : Within c pattern) (s t : JsString) :
    matchAll pattern (s ++ c :: t) = matchAll pattern s ++ matchAll pattern t := by
  induction hlen : s.length using Nat.strong_induction_on generalizing s with
  | _ k ih =>
    cases s with
    | nil => exact matchAll_of_none (hp.head t)
    | cons u s =>
      have hcut := hp.cut u s t
      cases hmatch : pattern (u :: s) with
      | none =>
        rw [List.cons_append, matchAll_of_none (hcut.trans hmatch), matchAll_of_none hmatch]
        exact ih _ (by rw [← hlen]; simp) s rfl
      | some found =>
        obtain ⟨a, n⟩ := found
        have hn := hp.short hmatch
        rw [List.cons_append, matchAll_of_some (hcut.trans hmatch), matchAll_of_some hmatch,
          List.drop_append_of_le_length hn, List.cons_append]
        rw [ih _ (by rw [← hlen]; simp) (s.drop n) rfl]

/-! ## A text cut at a unit -/

/-- The pieces of a text between the units `c`. -/
def split (c : UInt16) : JsString → List JsString
  | [] => [[]]
  | u :: s =>
    if u = c then [] :: split c s
    else
      match split c s with
      | [] => [[u]]
      | piece :: pieces => (u :: piece) :: pieces

theorem split_ne_nil (c : UInt16) (s : JsString) : split c s ≠ [] := by
  cases s with
  | nil => exact List.cons_ne_nil _ _
  | cons u s =>
    rw [split]
    split_ifs with hu
    · exact List.cons_ne_nil _ _
    · split <;> exact List.cons_ne_nil _ _

/-- The first piece is the text up to the first `c`, and the others are those behind it. -/
theorem split_cons {piece : JsString} {pieces : List JsString} (h : split c s = piece :: pieces) :
    c ∉ piece ∧ (pieces = [] ∧ s = piece ∨ ∃ rest, s = piece ++ c :: rest ∧ split c rest = pieces) := by
  induction s generalizing piece pieces with
  | nil =>
    obtain ⟨rfl, rfl⟩ := List.cons.inj h
    exact ⟨List.not_mem_nil, Or.inl ⟨rfl, rfl⟩⟩
  | cons u s ih =>
    rw [split] at h
    split_ifs at h with hu
    · obtain ⟨rfl, rfl⟩ := List.cons.inj h
      exact ⟨List.not_mem_nil, Or.inr ⟨s, by rw [hu]; rfl, rfl⟩⟩
    · cases hs : split c s with
      | nil => exact absurd hs (split_ne_nil c s)
      | cons head tail =>
        rw [hs] at h
        obtain ⟨rfl, rfl⟩ := List.cons.inj h
        obtain ⟨hnot, hrest⟩ := ih hs
        refine ⟨by simp [hnot, Ne.symm hu], ?_⟩
        rcases hrest with ⟨rfl, rfl⟩ | ⟨rest, rfl, hpieces⟩
        · exact Or.inl ⟨rfl, rfl⟩
        · exact Or.inr ⟨rest, rfl, hpieces⟩

/-- The pieces with a `c` between each and the next. -/
def joinAt (c : UInt16) (pieces : List JsString) : JsString :=
  [c].intercalate pieces

@[simp] theorem joinAt_singleton (c : UInt16) (piece : JsString) : joinAt c [piece] = piece := by
  simp [joinAt]

theorem joinAt_cons {piece : JsString} {pieces : List JsString} (h : pieces ≠ []) :
    joinAt c (piece :: pieces) = piece ++ c :: joinAt c pieces := by
  obtain ⟨next, pieces, rfl⟩ := List.exists_cons_of_ne_nil h
  simp [joinAt, List.intercalate]

/-- A text is its pieces. -/
theorem joinAt_split : ∀ {pieces : List JsString} {s : JsString}, split c s = pieces → joinAt c pieces = s
  | [], s, h => absurd h (split_ne_nil c s)
  | piece :: pieces, s, h => by
    obtain ⟨-, ⟨rfl, rfl⟩ | ⟨rest, rfl, hrest⟩⟩ := split_cons h
    · exact joinAt_singleton c s
    · rw [joinAt_cons (hrest ▸ split_ne_nil c rest), joinAt_split hrest]

/-- A text with no `c` is one piece. -/
theorem split_of_notMem (h : c ∉ s) : split c s = [s] := by
  cases hs : split c s with
  | nil => exact absurd hs (split_ne_nil c s)
  | cons piece pieces =>
    obtain ⟨-, ⟨rfl, rfl⟩ | ⟨rest, rfl, -⟩⟩ := split_cons hs
    · rfl
    · exact absurd (by simp) h

/-- The text up to the first `c` is the first piece. -/
theorem split_piece {piece : JsString} (h : c ∉ piece) (rest : JsString) :
    split c (piece ++ c :: rest) = piece :: split c rest := by
  induction piece with
  | nil => simp [split]
  | cons u piece ih =>
    have hu : u ≠ c := fun heq => h (by simp [heq])
    rw [List.cons_append, split, if_neg hu, ih fun hmem => h (List.mem_cons_of_mem _ hmem)]

/-! ## A text cut at white space -/

/-- The pieces of a text between its runs of white space : `split(/\s+/)`. -/
def splitWhite : JsString → List JsString
  | [] => [[]]
  | c :: rest =>
    if isWhite c then
      if rest.head?.any isWhite then splitWhite rest else [] :: splitWhite rest
    else
      match splitWhite rest with
      | [] => [[c]]
      | word :: words => (c :: word) :: words

section SplitWhite

variable {word blank rest : JsString} {words : List (JsString × JsString)}

/-- A word in front is put in front of the first piece. -/
theorem splitWhite_append (h : ∀ c ∈ word, isWhite c = false) {piece : JsString} {pieces : List JsString}
    (hrest : splitWhite rest = piece :: pieces) :
    splitWhite (word ++ rest) = (word ++ piece) :: pieces := by
  induction word with
  | nil => exact hrest
  | cons c word ih =>
    rw [List.cons_append, splitWhite, h c List.mem_cons_self, ih fun d hd =>
      h d (List.mem_cons_of_mem _ hd)]
    rfl

theorem splitWhite_word (h : ∀ c ∈ word, isWhite c = false) : splitWhite word = [word] := by
  have hword : splitWhite (word ++ []) = [word ++ []] := splitWhite_append h rfl
  rwa [List.append_nil] at hword

/-- A run of white space in front of a word is one cut. -/
theorem splitWhite_blank (hne : blank ≠ []) (h : ∀ c ∈ blank, isWhite c = true)
    (hrest : rest.head?.any isWhite = false) : splitWhite (blank ++ rest) = [] :: splitWhite rest := by
  induction blank with
  | nil => exact absurd rfl hne
  | cons c blank ih =>
    rw [List.cons_append, splitWhite, h c List.mem_cons_self, if_pos rfl]
    cases blank with
    | nil => rw [List.nil_append, hrest, if_neg (by decide)]
    | cons d blank =>
      have hd : ((d :: blank) ++ rest).head?.any isWhite = true :=
        h d (List.mem_cons_of_mem _ List.mem_cons_self)
      rw [hd, if_pos rfl]
      exact ih (List.cons_ne_nil _ _) fun c hc => h c (List.mem_cons_of_mem _ hc)

/-- A text of words, with white space between them. -/
def joinWhite : JsString → List (JsString × JsString) → JsString
  | word, [] => word
  | word, (blank, next) :: words => word ++ (blank ++ joinWhite next words)

/-- A word that is cut out again. -/
def IsWord (word : JsString) : Prop :=
  word ≠ [] ∧ ∀ c ∈ word, isWhite c = false

/-- White space that cuts. -/
def IsBlank (blank : JsString) : Prop :=
  blank ≠ [] ∧ ∀ c ∈ blank, isWhite c = true

instance (blank : JsString) : Decidable (IsBlank blank) :=
  decidable_of_iff (blank ≠ [] ∧ blank.all isWhite = true) (and_congr_right' List.all_eq_true)

theorem head?_joinWhite (h : IsWord word) (words : List (JsString × JsString)) :
    (joinWhite word words).head?.any isWhite = false := by
  obtain ⟨c, tail, rfl⟩ := List.exists_cons_of_ne_nil h.1
  have hhead : (joinWhite (c :: tail) words).head? = some c := by
    cases words <;> rfl
  rw [hhead]
  exact h.2 c List.mem_cons_self

/-- The words of a text are its pieces. -/
theorem splitWhite_joinWhite (h : IsWord word) (hwords : ∀ p ∈ words, IsBlank p.1 ∧ IsWord p.2) :
    splitWhite (joinWhite word words) = word :: words.map Prod.snd := by
  induction words generalizing word with
  | nil => exact splitWhite_word h.2
  | cons p words ih =>
    obtain ⟨⟨hne, hblank⟩, hnext⟩ := hwords p List.mem_cons_self
    have hcut := splitWhite_blank hne hblank (head?_joinWhite hnext words)
    rw [ih hnext fun q hq => hwords q (List.mem_cons_of_mem _ hq)] at hcut
    have hword := splitWhite_append h.2 hcut
    rwa [List.append_nil] at hword

end SplitWhite

/-! ## White space is taken off -/

/-- The text without the white space it begins with. -/
theorem exists_white_append (s : JsString) : ∃ blank, (∀ u ∈ blank, isWhite u = true) ∧
    s = blank ++ s.dropWhile isWhite :=
  ⟨s.takeWhile isWhite, fun _ hu => List.mem_takeWhile_imp hu, (List.takeWhile_append_dropWhile).symm⟩

/-- A text is its trimmed form with white space behind it, once that in front is off. -/
theorem exists_trim_append (s : JsString) : ∃ blank, (∀ u ∈ blank, isWhite u = true) ∧
    s.dropWhile isWhite = trim s ++ blank := by
  obtain ⟨blank, hblank, heq⟩ := exists_white_append (s.dropWhile isWhite).reverse
  refine ⟨blank.reverse, fun u hu => hblank u (List.mem_reverse.mp hu), ?_⟩
  have h := congrArg List.reverse heq
  rw [List.reverse_reverse, List.reverse_append] at h
  exact h

/-- White space around a text that neither begins nor ends with it. -/
theorem trim_framed {lead trail : JsString} (hlead : ∀ u ∈ lead, isWhite u = true)
    (htrail : ∀ u ∈ trail, isWhite u = true) (hne : s ≠ []) (hhead : s.head?.any isWhite = false)
    (hlast : s.getLast?.any isWhite = false) : trim (lead ++ (s ++ trail)) = s := by
  obtain ⟨u, rest, hs⟩ := List.exists_cons_of_ne_nil hne
  have hfront : (s ++ trail).dropWhile isWhite = s ++ trail := by
    rw [hs] at hhead ⊢
    exact List.dropWhile_cons_of_neg (by simpa using hhead)
  obtain ⟨v, front, hrev⟩ := List.exists_cons_of_ne_nil (mt List.reverse_eq_nil_iff.1 hne)
  have hback : s.reverse.dropWhile isWhite = s.reverse := by
    rw [List.getLast?_eq_head?_reverse, hrev] at hlast
    rw [hrev]
    exact List.dropWhile_cons_of_neg (by simpa using hlast)
  rw [trim, List.dropWhile_append_of_pos hlead, hfront, List.reverse_append,
    List.dropWhile_append_of_pos fun u hu => htrail u (List.mem_reverse.1 hu), hback, List.reverse_reverse]

theorem getLast?_joinWhite {word : JsString} {words : List (JsString × JsString)} (h : IsWord word)
    (hwords : ∀ p ∈ words, IsWord p.2) : ∃ u, (joinWhite word words).getLast? = some u ∧
      (u ∈ ((word :: words.map Prod.snd).getLast (List.cons_ne_nil _ _))) ∧ isWhite u = false := by
  induction words generalizing word with
  | nil =>
    refine ⟨word.getLast h.1, List.getLast?_eq_some_getLast h.1, List.getLast_mem h.1, ?_⟩
    exact h.2 _ (List.getLast_mem h.1)
  | cons p words ih =>
    obtain ⟨u, hu, hmem, hwhite⟩ := ih (hwords p List.mem_cons_self) fun q hq =>
      hwords q (List.mem_cons_of_mem _ hq)
    refine ⟨u, ?_, ?_, hwhite⟩
    · rw [joinWhite, ← List.append_assoc, List.getLast?_append, hu]
      rfl
    · rwa [List.map_cons, List.getLast_cons (List.cons_ne_nil _ _)]

end Lynox.Text
