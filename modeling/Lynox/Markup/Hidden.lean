import Lynox.Markup.Tree
import Lynox.Data.Tally

/-!
# Characters a reader does not see

`hiddenCharIndexes` walks the characters of a text and lists those that are hidden. One that stands
where real text puts it is taken, up to `HIDDEN_ALLOWED_MAX` of them, unless none may be taken in any
place. What is hidden with some taken is hidden with none taken too (`hiddenIn_sublist`).

The texts of a tree are its text nodes, its comments and its attributes' values (`textsOf`), and
`hiddenCounts` counts the hidden characters of all of them.
-/

namespace Lynox.Markup

open Text

/-- The classes of code points that are read off the Unicode tables. -/
structure Unicode where
  hidden : ℕ → Bool
  pictograph : ℕ → Bool
  emojiModifier : ℕ → Bool
  emoji : ℕ → Bool
  letter : ℕ → Bool
  afterMark : ℕ → Bool

def TEXT_CONTROLS : List ℕ := [0x09, 0x0A, 0x0D]

def ZWJ : ℕ := 0x200D

def VS16 : ℕ := 0xFE0F

def KEYCAP : ℕ := 0x20E3

def BETWEEN_LETTERS : List ℕ := [0x200C, 0x00AD]

def DIRECTION_MARKS : List ℕ := [0x200E, 0x200F, 0x061C]

/-- The most hidden characters one text may carry in the places it may carry one. -/
def HIDDEN_ALLOWED_MAX : ℕ := 32

/-- A digit, a number sign or an asterisk. -/
def keycapBase (cp : ℕ) : Bool :=
  (0x30 ≤ cp && cp ≤ 0x39) || cp = 0x23 || cp = 0x2A

/-- The code point of a character, a lone surrogate's its own. -/
def codePoint : Piece → ℕ
  | .scalar n => n
  | .lone u => u.toNat

def characters (text : JsString) : List ℕ :=
  (pieces text).map codePoint

/-- What the loop over the characters has read : the verdict on each, the hidden ones and how many
were taken in their place. -/
structure Scan where
  hidden : List Bool
  out : List ℕ
  allowed : ℕ

namespace Unicode

variable (u : Unicode)

/-- Whether the hidden character at `i` stands where real text puts it. -/
def inPlace (chars : List ℕ) (hidden : List Bool) (i cp : ℕ) : Bool :=
  let prev := if 0 < i ∧ hidden[i - 1]? ≠ some true then chars[i - 1]? else none
  let next := chars[i + 1]?
  if cp = ZWJ then
    prev.any (fun p => u.pictograph p || u.emojiModifier p || p = VS16) && next.any u.pictograph
  else if cp = VS16 then
    match prev with
    | none => false
    | some p => if u.emoji p then if keycapBase p then next = some KEYCAP else true else false
  else if cp ∈ BETWEEN_LETTERS then prev.any u.letter && next.any u.letter
  else if cp ∈ DIRECTION_MARKS then prev.any u.letter && next.any u.afterMark
  else false

/-- One character of the loop, with its index. -/
def scanStep (takeInPlace : Bool) (chars : List ℕ) (s : Scan) (e : ℕ × ℕ) : Scan :=
  if e.1 ∈ TEXT_CONTROLS ∨ u.hidden e.1 = false then { s with hidden := s.hidden ++ [false] }
  else if takeInPlace ∧ u.inPlace chars s.hidden e.2 e.1 ∧ s.allowed < HIDDEN_ALLOWED_MAX then
    { s with hidden := s.hidden ++ [false], allowed := s.allowed + 1 }
  else { s with hidden := s.hidden ++ [true], out := s.out ++ [e.2] }

/-- The indexes of every hidden character of a text. -/
def hiddenCharIndexes (takeInPlace : Bool) (text : JsString) : List ℕ :=
  let chars := characters text
  (chars.zipIdx.foldl (u.scanStep takeInPlace chars) ⟨[], [], 0⟩).out

/-- The hidden characters of a text. -/
def hiddenIn (takeInPlace : Bool) (text : JsString) : List ℕ :=
  (u.hiddenCharIndexes takeInPlace text).map fun i => (characters text).getD i 0

end Unicode

/-- The texts of a node. -/
def textsAt : Node → List JsString
  | .text value => [value]
  | .comment data => [data]
  | .element tag _ _ => tag.attrs.map Attr.value

/-- Every text a tree carries. -/
def textsOf (fragment : Fragment) : List JsString :=
  (descendants fragment false).flatMap fun p => textsAt p.1

/-- The hidden characters of all texts of a tree. -/
def Unicode.hiddenOf (u : Unicode) (takeInPlace : Bool) (fragment : Fragment) : List ℕ :=
  (textsOf fragment).flatMap (u.hiddenIn takeInPlace)

/-- How often each character is hidden, and how often outside the places real text puts it. -/
structure HiddenCounts where
  all : List (ℕ × ℕ)
  out : List (ℕ × ℕ)

def Unicode.hiddenCounts (u : Unicode) (fragment : Fragment) : HiddenCounts where
  all := Tally.counts (u.hiddenOf false fragment)
  out := Tally.counts (u.hiddenOf true fragment)

namespace Unicode

variable {u : Unicode} {s s' : Scan}

/-- A step that takes none in its place hides what the other hides. -/
theorem scanStep_sublist {chars : List ℕ} (e : ℕ × ℕ) (h : s.out.Sublist s'.out) :
    (u.scanStep true chars s e).out.Sublist (u.scanStep false chars s' e).out := by
  unfold scanStep
  by_cases htext : e.1 ∈ TEXT_CONTROLS ∨ u.hidden e.1 = false
  · rw [if_pos htext, if_pos htext]
    exact h
  · rw [if_neg htext, if_neg htext]
    simp only [Bool.false_eq_true, false_and, if_false]
    split
    · exact h.trans (List.sublist_append_left _ _)
    · exact h.append (List.Sublist.refl _)

theorem foldl_scanStep_sublist {chars : List ℕ} : ∀ (es : List (ℕ × ℕ)) {s s' : Scan},
    s.out.Sublist s'.out → (es.foldl (u.scanStep true chars) s).out.Sublist
      (es.foldl (u.scanStep false chars) s').out
  | [], _, _, h => h
  | e :: es, _, _, h => foldl_scanStep_sublist es (scanStep_sublist e h)

theorem hiddenIn_sublist (u : Unicode) (text : JsString) :
    (u.hiddenIn true text).Sublist (u.hiddenIn false text) :=
  (foldl_scanStep_sublist _ (List.Sublist.refl _)).map _

theorem hiddenOf_sublist (u : Unicode) (fragment : Fragment) :
    (u.hiddenOf true fragment).Sublist (u.hiddenOf false fragment) := by
  unfold hiddenOf
  induction textsOf fragment with
  | nil => exact List.Sublist.refl _
  | cons text texts ih =>
    rw [List.flatMap_cons, List.flatMap_cons]
    exact (hiddenIn_sublist u text).append ih

end Unicode

end Lynox.Markup
