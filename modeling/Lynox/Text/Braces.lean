import Lynox.Text.Utf16

/-!
# Words with brace groups

A word whose brace groups are closed is a tree : units, and groups of choices that commas part
(`Braced`, `Choices`). A comma or a closing brace belongs to the innermost group, and outside of
every group it is a unit like any other. An expansion takes one choice of each group.

Every text whose groups are closed is the text of such a word (`exists_braced`).
-/

namespace Lynox.Text

/-- A unit that stands for itself, inside a group or outside of all. -/
def Literal (inside : Bool) (c : UInt16) : Prop :=
  c ≠ 0x7B ∧ (inside = true → c ≠ 0x2C ∧ c ≠ 0x7D)

mutual

/-- A word whose groups are closed. -/
inductive Braced : Bool → Type
  | nil {inside : Bool} : Braced inside
  | unit {inside : Bool} (c : UInt16) (hc : Literal inside c) (rest : Braced inside) : Braced inside
  | group {inside : Bool} (choices : Choices) (rest : Braced inside) : Braced inside

/-- The choices of a group. -/
inductive Choices : Type
  | last (w : Braced true) : Choices
  | more (w : Braced true) (rest : Choices) : Choices

end

mutual

/-- A word as it is written. -/
def Braced.text {inside : Bool} : Braced inside → JsString
  | .nil => []
  | .unit c _ rest => c :: rest.text
  | .group choices rest => 0x7B :: (choices.text ++ rest.text)

/-- The choices as they are written, up to the brace that closes the group. -/
def Choices.text : Choices → JsString
  | .last w => w.text ++ [0x7D]
  | .more w rest => w.text ++ 0x2C :: rest.text

end

mutual

/-- What a word can be read as. -/
def Braced.expansions {inside : Bool} : Braced inside → List JsString
  | .nil => [[]]
  | .unit c _ rest => rest.expansions.map (c :: ·)
  | .group choices rest => choices.expansions.flatMap fun chosen => rest.expansions.map (chosen ++ ·)

def Choices.expansions : Choices → List JsString
  | .last w => w.expansions
  | .more w rest => w.expansions ++ rest.expansions

end

/-- Every group of a text is closed, of which `depth` are open in front of it. -/
def closes : (depth : ℕ) → JsString → Bool
  | depth, [] => depth = 0
  | depth, c :: rest =>
    if c = 0x7B then closes (depth + 1) rest
    else if c = 0x7D then closes (depth - 1) rest
    else closes depth rest

/-! ## Every closed text is a word -/

section Closed

variable {text : JsString} {depth n : ℕ}

mutual

theorem Braced.expansions_ne_nil {inside : Bool} : (w : Braced inside) → w.expansions ≠ []
  | .nil => by simp [Braced.expansions]
  | .unit c hc rest => by simpa [Braced.expansions] using rest.expansions_ne_nil
  | .group choices rest => by
    obtain ⟨chosen, hchosen⟩ := List.exists_mem_of_ne_nil _ choices.expansions_ne_nil
    obtain ⟨e, he⟩ := List.exists_mem_of_ne_nil _ rest.expansions_ne_nil
    exact List.ne_nil_of_mem (List.mem_flatMap.2 ⟨chosen, hchosen, List.mem_map.2 ⟨e, he, rfl⟩⟩)

theorem Choices.expansions_ne_nil : (choices : Choices) → choices.expansions ≠ []
  | .last w => w.expansions_ne_nil
  | .more w rest => by simp [Choices.expansions, w.expansions_ne_nil]

end

/-- A word put in front of the first choice. -/
def Choices.mapFirst (f : Braced true → Braced true) : Choices → Choices
  | .last w => .last (f w)
  | .more w rest => .more (f w) rest

theorem Choices.text_mapFirst (front : JsString) {f : Braced true → Braced true}
    (hf : ∀ w, (f w).text = front ++ w.text) (choices : Choices) :
    (choices.mapFirst f).text = front ++ choices.text := by
  cases choices with
  | last w => rw [mapFirst, text, text, hf, List.append_assoc]
  | more w rest => rw [mapFirst, text, text, hf, List.append_assoc]

/-- Where a group is open, its choices are read up to its end. -/
theorem exists_choices (hlen : text.length ≤ n) (h : closes (depth + 1) text = true) :
    ∃ (choices : Choices) (rest : JsString), text = choices.text ++ rest ∧ closes depth rest = true := by
  induction n generalizing text depth with
  | zero =>
    obtain rfl := List.eq_nil_of_length_eq_zero (Nat.le_zero.1 hlen)
    simp [closes] at h
  | succ n ih =>
    match text with
    | [] => simp [closes] at h
    | c :: text =>
      rw [closes] at h
      replace hlen : text.length ≤ n := by simpa using hlen
      split at h
      · next hc =>
        obtain ⟨group, mid, htext, hmid⟩ := ih hlen h
        have hshort : mid.length ≤ n := by
          rw [htext, List.length_append] at hlen
          omega
        obtain ⟨choices, rest, rfl, hrest⟩ := ih hshort hmid
        refine ⟨choices.mapFirst (.group group), rest, ?_, hrest⟩
        rw [Choices.text_mapFirst (0x7B :: group.text) fun w => rfl, hc, htext, List.cons_append,
          List.cons_append, List.append_assoc]
      · next hopen =>
        split at h
        · next hc => exact ⟨.last .nil, text, by rw [hc]; rfl, h⟩
        · next hclose =>
          obtain ⟨choices, rest, rfl, hrest⟩ := ih hlen h
          by_cases hc : c = 0x2C
          · exact ⟨.more .nil choices, rest, by rw [hc]; rfl, hrest⟩
          · refine ⟨choices.mapFirst (.unit c ⟨hopen, fun _ => ⟨hc, hclose⟩⟩), rest, ?_, hrest⟩
            rw [Choices.text_mapFirst [c] fun w => rfl]
            rfl

/-- A text whose groups are closed is the text of a word. -/
theorem exists_braced (h : closes 0 text = true) : ∃ w : Braced false, w.text = text := by
  suffices hall : ∀ n, ∀ text : JsString, text.length ≤ n → closes 0 text = true →
      ∃ w : Braced false, w.text = text from hall _ text le_rfl h
  intro n
  induction n with
  | zero =>
    intro text hlen _
    exact ⟨.nil, (List.eq_nil_of_length_eq_zero (Nat.le_zero.1 hlen)).symm⟩
  | succ n ih =>
    intro text hlen h
    match text with
    | [] => exact ⟨.nil, rfl⟩
    | c :: text =>
      rw [closes] at h
      replace hlen : text.length ≤ n := by simpa using hlen
      split at h
      · next hc =>
        obtain ⟨choices, rest, rfl, hrest⟩ := exists_choices hlen h
        have hshort : rest.length ≤ n := by
          rw [List.length_append] at hlen
          omega
        obtain ⟨w, rfl⟩ := ih rest hshort hrest
        exact ⟨.group choices w, by rw [hc]; rfl⟩
      · next hopen =>
        have hrest : closes 0 text = true := by
          split at h <;> exact h
        obtain ⟨w, rfl⟩ := ih text hlen hrest
        exact ⟨.unit c ⟨hopen, fun hno => absurd hno (by decide)⟩ w, rfl⟩

/-- A text without an opening brace can be read in one way. -/
theorem exists_literal (h : 0x7B ∉ text) : ∃ w : Braced false, w.text = text ∧ w.expansions = [text] := by
  induction text with
  | nil => exact ⟨.nil, rfl, rfl⟩
  | cons c text ih =>
    obtain ⟨hc, htext⟩ := not_or.1 (mt List.mem_cons.2 h)
    obtain ⟨w, rfl, hw⟩ := ih htext
    refine ⟨.unit c ⟨Ne.symm hc, fun hno => absurd hno (by decide)⟩ w, rfl, ?_⟩
    exact congrArg (List.map (c :: ·)) hw

end Closed

end Lynox.Text
