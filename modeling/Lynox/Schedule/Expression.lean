import Lynox.Schedule.Cron

/-!
# What an expression denotes

A field is a list of items (`Item`) : `*`, a number, a range, and steps through either, with numbers
within the field's range. It denotes the numbers any of its items does (`Field.Denotes`), and an
expression of five fields the minutes whose parts each field denotes (`Expression.Matches`).

What `parse` reads of an expression's text are the sets of what its fields denote (`parse_text`).
-/

namespace Lynox.Cron

open Text

/-- Decimal digits, with any zeros in front. -/
structure Numeral where
  text : JsString
  ne_nil : text ≠ []
  all_digits : ∀ u ∈ text, isDigit u = true

def Numeral.value (n : Numeral) : ℤ :=
  digitsVal n.text

inductive Item
  | every
  | number (n : Numeral)
  | range (first last : Numeral)
  | everyStep (step : Numeral)
  | rangeStep (first last step : Numeral)

namespace Item

def text : Item → JsString
  | every => [0x2A]
  | number n => n.text
  | range first last => first.text ++ 0x2D :: last.text
  | everyStep step => [0x2A] ++ 0x2F :: step.text
  | rangeStep first last step => (first.text ++ 0x2D :: last.text) ++ 0x2F :: step.text

/-- The numbers of an item are within a range, and its steps at least one. -/
def Within (min max : ℤ) : Item → Prop
  | every => True
  | number n => min ≤ n.value ∧ n.value ≤ max
  | range first last => min ≤ first.value ∧ first.value ≤ last.value ∧ last.value ≤ max
  | everyStep step => 0 < step.value
  | rangeStep first last step => (min ≤ first.value ∧ first.value ≤ last.value ∧ last.value ≤ max) ∧
      0 < step.value

/-- The numbers of an item. -/
def Denotes (min max x : ℤ) : Item → Prop
  | every => min ≤ x ∧ x ≤ max
  | number n => x = n.value
  | range first last => first.value ≤ x ∧ x ≤ last.value
  | everyStep step => min ≤ x ∧ x ≤ max ∧ step.value ∣ x - min
  | rangeStep first last step => first.value ≤ x ∧ x ≤ last.value ∧ step.value ∣ x - first.value

instance (min max : ℤ) : (item : Item) → Decidable (item.Within min max)
  | every => inferInstanceAs (Decidable True)
  | number n => inferInstanceAs (Decidable (min ≤ n.value ∧ n.value ≤ max))
  | range first last => inferInstanceAs
      (Decidable (min ≤ first.value ∧ first.value ≤ last.value ∧ last.value ≤ max))
  | everyStep step => inferInstanceAs (Decidable (0 < step.value))
  | rangeStep first last step => inferInstanceAs
    (Decidable ((min ≤ first.value ∧ first.value ≤ last.value ∧ last.value ≤ max) ∧ 0 < step.value))

instance (min max x : ℤ) : (item : Item) → Decidable (item.Denotes min max x)
  | every => inferInstanceAs (Decidable (min ≤ x ∧ x ≤ max))
  | number n => inferInstanceAs (Decidable (x = n.value))
  | range first last => inferInstanceAs (Decidable (first.value ≤ x ∧ x ≤ last.value))
  | everyStep step => inferInstanceAs (Decidable (min ≤ x ∧ x ≤ max ∧ step.value ∣ x - min))
  | rangeStep first last step => inferInstanceAs
    (Decidable (first.value ≤ x ∧ x ≤ last.value ∧ step.value ∣ x - first.value))

end Item

/-- A list of items within a range. -/
structure Field (min max : ℤ) where
  first : Item
  rest : List Item
  within : ∀ item ∈ first :: rest, item.Within min max

namespace Field

variable {min max : ℤ}

def text (f : Field min max) : JsString :=
  f.first.text ++ f.rest.flatMap fun item => 0x2C :: item.text

def Denotes (f : Field min max) (x : ℤ) : Prop :=
  ∃ item ∈ f.first :: f.rest, item.Denotes min max x

instance (f : Field min max) (x : ℤ) : Decidable (f.Denotes x) :=
  List.decidableBEx _ _

end Field

structure Expression where
  minute : Field 0 59
  hour : Field 0 23
  dayOfMonth : Field 1 31
  month : Field 1 12
  dayOfWeek : Field 0 6

/-- The texts of an expression : its fields with white space between them, and around them or not. -/
def Expression.Writes (e : Expression) (text : JsString) : Prop :=
  ∃ lead b₁ b₂ b₃ b₄ trail, (∀ u ∈ lead, isWhite u = true) ∧ (∀ u ∈ trail, isWhite u = true) ∧
    IsBlank b₁ ∧ IsBlank b₂ ∧ IsBlank b₃ ∧ IsBlank b₄ ∧
      text = lead ++ (joinWhite e.minute.text
        [(b₁, e.hour.text), (b₂, e.dayOfMonth.text), (b₃, e.month.text),
        (b₄, e.dayOfWeek.text)] ++ trail)

/-- A minute whose parts the fields denote. -/
def Expression.Matches (e : Expression) (t : ℤ) : Prop :=
  e.minute.Denotes (minuteOf t) ∧ e.hour.Denotes (hourOf t) ∧
    e.dayOfMonth.Denotes (Calendar.dateOf (dayOf t)) ∧
    e.month.Denotes (Calendar.monthOf (dayOf t)) ∧ e.dayOfWeek.Denotes (Calendar.weekdayOf (dayOf t))

instance (e : Expression) (t : ℤ) : Decidable (e.Matches t) :=
  inferInstanceAs (Decidable (_ ∧ _))

/-! ## Numbers -/

section Numbers

variable {start stop step min max i x : ℤ} {rounds : ℕ} {u : UInt16} {n first last : Numeral}
  {part : JsString}

theorem mem_loop (hstep : 0 < step) (hrounds : (stop - i + 1).toNat ≤ rounds) :
    x ∈ loop step stop rounds i ↔ i ≤ x ∧ x ≤ stop ∧ step ∣ x - i := by
  induction rounds generalizing i with
  | zero => exact iff_of_false List.not_mem_nil fun h => by omega
  | succ rounds ih =>
    rw [loop]
    split
    · next hle =>
      rw [List.mem_cons, ih (by omega)]
      constructor
      · rintro (rfl | ⟨hi, hx, hdvd⟩)
        · exact ⟨le_rfl, hle, by simp⟩
        · refine ⟨by omega, hx, ?_⟩
          have hsum := Int.dvd_add hdvd (Int.dvd_refl step)
          rwa [show x - (i + step) + step = x - i by omega] at hsum
      · rintro ⟨hi, hx, hdvd⟩
        rcases Int.le_iff_eq_or_lt.1 hi with rfl | hlt
        · exact .inl rfl
        · have hle' := Int.le_of_dvd (by omega) hdvd
          refine .inr ⟨by omega, hx, ?_⟩
          have hdiff := Int.dvd_sub hdvd (Int.dvd_refl step)
          rwa [show x - i - step = x - (i + step) by omega] at hdiff
    · next hgt => exact iff_of_false List.not_mem_nil fun h => by omega

theorem mem_numbers (hstep : 0 < step) :
    x ∈ numbers start stop step ↔ start ≤ x ∧ x ≤ stop ∧ step ∣ x - start :=
  mem_loop hstep le_rfl

theorem isWhite_of_isDigit (h : isDigit u = true) : isWhite u = false := by
  rw [isDigit, Bool.and_eq_true, decide_eq_true_eq, decide_eq_true_eq] at h
  rw [isWhite]
  simp only [Bool.or_eq_false_iff, Bool.and_eq_false_iff, decide_eq_false_iff_not, ← UInt16.toNat_inj,
    UInt16.toNat_ofNat]
  omega

/-- Digits are not one of the signs. -/
theorem ne_of_isDigit {mark : UInt16} (h : isDigit u = true) (hmark : isDigit mark = false) : u ≠ mark := by
  rintro rfl
  exact absurd (h.symm.trans hmark) (by decide)

theorem Numeral.not_mem (n : Numeral) (mark : UInt16) (hmark : isDigit mark = false) : mark ∉ n.text :=
  fun hmem => ne_of_isDigit (n.all_digits mark hmem) hmark rfl

theorem takeWhile_digits {s : JsString} (h : ∀ u ∈ s, isDigit u = true) : s.takeWhile isDigit = s :=
  List.takeWhile_eq_self_iff.2 h

theorem parseInt_digits {s : JsString} (hne : s ≠ []) (h : ∀ u ∈ s, isDigit u = true) :
    parseInt s = some (digitsVal s : ℤ) := by
  obtain ⟨u, rest, rfl⟩ := List.exists_cons_of_ne_nil hne
  have hu := h u List.mem_cons_self
  have hdrop : (u :: rest).dropWhile isWhite = u :: rest :=
    List.dropWhile_cons_of_neg (by simp [isWhite_of_isDigit hu])
  unfold parseInt
  simp only [hdrop]
  rw [if_neg (ne_of_isDigit hu rfl), if_neg (ne_of_isDigit hu rfl), takeWhile_digits h, if_neg hne]

theorem Numeral.parseInt (n : Numeral) : parseInt n.text = some n.value :=
  parseInt_digits n.ne_nil n.all_digits

/-- A part without a slash has no step. -/
theorem stepMatch_none (h : 0x2F ∉ part) : stepMatch part = none := by
  unfold stepMatch
  simp only
  split
  · next base heq =>
    have hmem : 0x2F ∈ part.reverse.dropWhile isDigit := by
      rw [heq]
      exact List.mem_cons_self
    exact absurd (List.mem_reverse.1 ((List.dropWhile_sublist _).mem hmem)) h
  · rfl

theorem stepMatch_some (base : JsString) (hne : base ≠ [])
    (hbase : ∀ u ∈ base, u ≠ 0x0A ∧ u ≠ 0x0D ∧ u ≠ 0x2028 ∧ u ≠ 0x2029) (n : Numeral) :
    stepMatch (base ++ 0x2F :: n.text) = some (base, n.text) := by
  have hreverse : (base ++ 0x2F :: n.text).reverse = n.text.reverse ++ 0x2F :: base.reverse := by simp
  have hdigits : ∀ u ∈ n.text.reverse, isDigit u = true := fun u hu =>
    n.all_digits u (List.mem_reverse.1 hu)
  have htake : (n.text.reverse ++ 0x2F :: base.reverse).takeWhile isDigit = n.text.reverse := by
    rw [List.takeWhile_append_of_pos hdigits, List.takeWhile_cons_of_neg (by decide), List.append_nil]
  have hdrop : (n.text.reverse ++ 0x2F :: base.reverse).dropWhile isDigit = 0x2F :: base.reverse := by
    rw [List.dropWhile_append_of_pos hdigits, List.dropWhile_cons_of_neg (by decide)]
  unfold stepMatch
  simp only [hreverse, htake, hdrop, List.reverse_reverse]
  rw [if_pos ⟨n.ne_nil, mt List.reverse_eq_nil_iff.1 hne, fun u hu => hbase u (List.mem_reverse.1 hu)⟩]

theorem parseRange_text (h : min ≤ first.value ∧ first.value ≤ last.value ∧ last.value ≤ max) :
    parseRange (first.text ++ 0x2D :: last.text) min max = .ok (first.value, last.value) := by
  have hsplit : split 0x2D (first.text ++ 0x2D :: last.text) = [first.text, last.text] := by
    rw [split_piece (first.not_mem _ rfl), split_of_notMem (last.not_mem _ rfl)]
  unfold parseRange
  simp only [hsplit, Numeral.parseInt]
  rw [if_neg (by omega)]

/-- A part with a step. -/
theorem expandPart_step {base : JsString} (hmatch : stepMatch part = some (base, n.text))
    (hn : 0 < n.value) :
    expandPart part min max = if base = [0x2A] then .ok (numbers min max n.value)
      else (parseRange base min max).map fun range => numbers range.1 range.2 n.value := by
  unfold expandPart
  simp only [hmatch, n.parseInt]
  rw [if_neg (not_le.2 hn)]

theorem range_ne_star : first.text ++ 0x2D :: last.text ≠ [0x2A] := fun heq => by
  have hdash : (0x2D : UInt16) ∈ first.text ++ 0x2D :: last.text := by simp
  rw [heq] at hdash
  exact absurd hdash (by decide)

theorem expandPart_range (h : min ≤ first.value ∧ first.value ≤ last.value ∧ last.value ≤ max) :
    expandPart (first.text ++ 0x2D :: last.text) min max = .ok (numbers first.value last.value 1) := by
  have hslash : (0x2F : UInt16) ∉ first.text ++ 0x2D :: last.text := fun hmem =>
    (List.mem_append.1 hmem).elim (first.not_mem _ rfl) fun hmem =>
      (List.mem_cons.1 hmem).elim (by decide) (last.not_mem _ rfl)
  have hdash : (0x2D : UInt16) ∈ first.text ++ 0x2D :: last.text := by simp
  unfold expandPart
  simp only [stepMatch_none hslash]
  rw [if_neg range_ne_star, if_pos hdash, parseRange_text h]
  rfl

theorem expandPart_number (h : min ≤ n.value ∧ n.value ≤ max) :
    expandPart n.text min max = .ok [n.value] := by
  have hstar : n.text ≠ [0x2A] := fun heq => n.not_mem 0x2A rfl (heq ▸ List.mem_singleton_self _)
  unfold expandPart
  simp only [stepMatch_none (n.not_mem 0x2F rfl), n.parseInt]
  rw [if_neg hstar, if_neg (n.not_mem _ rfl), if_neg (by omega)]

end Numbers

/-! ## Items and fields -/

section Fields

variable {min max x : ℤ} {u : UInt16}

/-- The units of an item's text are digits, stars, signs of a range and slashes. -/
theorem Item.mem_text {item : Item} (h : u ∈ item.text) :
    isDigit u = true ∨ u = 0x2A ∨ u = 0x2D ∨ u = 0x2F := by
  have hnumeral : ∀ {n : Numeral}, u ∈ n.text → isDigit u = true ∨ u = 0x2A ∨ u = 0x2D ∨ u = 0x2F :=
    fun {n} hmem => .inl (n.all_digits u hmem)
  cases item with
  | every => exact .inr (.inl (List.mem_singleton.1 h))
  | number n => exact hnumeral h
  | range first last =>
    rcases List.mem_append.1 h with h | h
    · exact hnumeral h
    · rcases List.mem_cons.1 h with rfl | h
      · exact .inr (.inr (.inl rfl))
      · exact hnumeral h
  | everyStep step =>
    rcases List.mem_append.1 h with h | h
    · exact .inr (.inl (List.mem_singleton.1 h))
    · rcases List.mem_cons.1 h with rfl | h
      · exact .inr (.inr (.inr rfl))
      · exact hnumeral h
  | rangeStep first last step =>
    rcases List.mem_append.1 h with h | h
    · rcases List.mem_append.1 h with h | h
      · exact hnumeral h
      · rcases List.mem_cons.1 h with rfl | h
        · exact .inr (.inr (.inl rfl))
        · exact hnumeral h
    · rcases List.mem_cons.1 h with rfl | h
      · exact .inr (.inr (.inr rfl))
      · exact hnumeral h

theorem Item.text_ne_nil (item : Item) : item.text ≠ [] := by
  cases item with
  | every => exact List.cons_ne_nil _ _
  | number n => exact n.ne_nil
  | range first last => simp [Item.text]
  | everyStep step => simp [Item.text]
  | rangeStep first last step => simp [Item.text]

/-- The set of an item's text is what it denotes. -/
theorem expandPart_text (item : Item) (h : item.Within min max) :
    ∃ set, expandPart item.text min max = .ok set ∧ ∀ x, x ∈ set ↔ item.Denotes min max x := by
  have hterminator : ∀ {s : JsString}, (∀ u ∈ s, isDigit u = true ∨ u = 0x2A ∨ u = 0x2D) →
      ∀ u ∈ s, u ≠ 0x0A ∧ u ≠ 0x0D ∧ u ≠ 0x2028 ∧ u ≠ 0x2029 := by
    intro s hs u hu
    rcases hs u hu with hdigit | rfl | rfl
    · exact ⟨ne_of_isDigit hdigit rfl, ne_of_isDigit hdigit rfl, ne_of_isDigit hdigit rfl,
        ne_of_isDigit hdigit rfl⟩
    · decide
    · decide
  cases item with
  | every =>
    refine ⟨numbers min max 1, rfl, fun x => ?_⟩
    rw [mem_numbers (by decide)]
    simp [Item.Denotes]
  | number n => exact ⟨[n.value], expandPart_number h, fun x => by simp [Item.Denotes]⟩
  | range first last =>
    refine ⟨numbers first.value last.value 1, expandPart_range h, fun x => ?_⟩
    rw [mem_numbers (by decide)]
    simp [Item.Denotes]
  | everyStep step =>
    refine ⟨numbers min max step.value, ?_, fun x => mem_numbers h⟩
    have hmatch := stepMatch_some [0x2A] (List.cons_ne_nil _ _)
      (hterminator fun u hu => .inr (.inl (List.mem_singleton.1 hu))) step
    exact (expandPart_step hmatch h).trans (if_pos rfl)
  | rangeStep first last step =>
    obtain ⟨hrange, hstep⟩ := h
    refine ⟨numbers first.value last.value step.value, ?_, fun x => mem_numbers hstep⟩
    have hmatch := stepMatch_some (first.text ++ 0x2D :: last.text) (by simp)
      (hterminator fun u hu => (List.mem_append.1 hu).elim
        (fun hu => .inl (first.all_digits u hu)) fun hu =>
        (List.mem_cons.1 hu).elim (fun heq => .inr (.inr heq)) fun hu => .inl (last.all_digits u hu)) step
    refine (expandPart_step hmatch hstep).trans ?_
    rw [if_neg range_ne_star, parseRange_text hrange]
    rfl

/-- The set of a field's text is what it denotes. -/
theorem expandField_text (f : Field min max) :
    ∃ set, expandField f.text min max = .ok set ∧ ∀ x, x ∈ set ↔ f.Denotes x := by
  obtain ⟨first, rest, hwithin⟩ := f
  have hcomma : ∀ item : Item, (0x2C : UInt16) ∉ item.text := fun item hmem => by
    rcases Item.mem_text hmem with h | h | h | h
    · exact absurd h (by decide)
    · exact absurd h (by decide)
    · exact absurd h (by decide)
    · exact absurd h (by decide)
  unfold expandField Field.text Field.Denotes
  simp only
  induction rest generalizing first with
  | nil =>
    obtain ⟨set, hset, hmem⟩ := expandPart_text first (hwithin first List.mem_cons_self)
    refine ⟨set ++ [], ?_, fun x => ?_⟩
    · rw [List.flatMap_nil, List.append_nil, split_of_notMem (hcomma first), expandParts, hset]
      rfl
    · rw [List.append_nil, hmem]
      simp
  | cons next rest ih =>
    obtain ⟨set, hset, hmem⟩ := expandPart_text first (hwithin first List.mem_cons_self)
    obtain ⟨sets, hsets, hmems⟩ := ih next fun item hitem => hwithin item (List.mem_cons_of_mem _ hitem)
    refine ⟨set ++ sets, ?_, fun x => ?_⟩
    · rw [List.flatMap_cons, List.cons_append, split_piece (hcomma first), expandParts, hset]
      simp only [Except.bind, hsets]
      rfl
    · rw [List.mem_append, hmem, hmems]
      simp

/-- The units of a field's text. -/
theorem Field.mem_text {f : Field min max} (h : u ∈ f.text) :
    (isDigit u = true ∨ u = 0x2A ∨ u = 0x2D ∨ u = 0x2F) ∨ u = 0x2C := by
  rcases List.mem_append.1 h with h | h
  · exact .inl (Item.mem_text h)
  · obtain ⟨item, -, h⟩ := List.mem_flatMap.1 h
    exact (List.mem_cons.1 h).elim .inr fun h => .inl (Item.mem_text h)

theorem Field.isWord_text (f : Field min max) : IsWord f.text := by
  refine ⟨List.append_ne_nil_of_left_ne_nil f.first.text_ne_nil _, fun u hu => ?_⟩
  rcases Field.mem_text hu with (h | rfl | rfl | rfl) | rfl
  · exact isWhite_of_isDigit h
  · rfl
  · rfl
  · rfl
  · rfl

/-- An interval ends with the letter of its unit. -/
theorem shorthand_last {s : JsString} {p : JsString × ℤ} (h : shorthand s = some p) :
    ∃ u ∈ ([0x73, 0x53, 0x6D, 0x4D, 0x68, 0x48, 0x64, 0x44] : JsString), s.getLast? = some u := by
  unfold shorthand at h
  simp only at h
  split at h
  · cases h
  · split at h
    · next u hrest =>
      have hlast : s.getLast? = some u := by
        rw [← List.takeWhile_append_dropWhile (p := isDigit) (l := s),
          ← List.takeWhile_append_dropWhile (p := isWhite) (l := s.dropWhile isDigit), hrest,
            ← List.append_assoc,
          List.getLast?_append]
        rfl
      refine ⟨u, ?_, hlast⟩
      split at h
      · next hu => rcases hu with rfl | rfl <;> decide
      · split at h
        · next hu => rcases hu with rfl | rfl <;> decide
        · split at h
          · next hu => rcases hu with rfl | rfl <;> decide
          · split at h
            · next hu => rcases hu with rfl | rfl <;> decide
            · cases h
    · cases h

end Fields

/-! ## Expressions -/

/-- Sets that are what the fields of an expression denote. -/
structure Expression.Reads (e : Expression) (fields : CronFields) : Prop where
  minute : ∀ x, x ∈ fields.minute ↔ e.minute.Denotes x
  hour : ∀ x, x ∈ fields.hour ↔ e.hour.Denotes x
  dayOfMonth : ∀ x, x ∈ fields.dayOfMonth ↔ e.dayOfMonth.Denotes x
  month : ∀ x, x ∈ fields.month ↔ e.month.Denotes x
  dayOfWeek : ∀ x, x ∈ fields.dayOfWeek ↔ e.dayOfWeek.Denotes x

section Expressions

variable {e : Expression} {fields : CronFields} {text : JsString} {t : ℤ}

theorem Expression.Reads.fires_iff (h : e.Reads fields) : fields.fires t = true ↔ e.Matches t := by
  simp only [CronFields.fires, Expression.Matches, Bool.and_eq_true, decide_eq_true_eq, h.minute, h.hour,
    h.dayOfMonth, h.month, h.dayOfWeek, and_assoc]

/-- An expression is read as the sets its fields denote. -/
theorem parse_text (h : e.Writes text) : ∃ fields, parse text = .ok (.fields fields) ∧ e.Reads fields := by
  obtain ⟨lead, b₁, b₂, b₃, b₄, trail, hlead, htrail, h₁, h₂, h₃, h₄, rfl⟩ := h
  have hwords : ∀ p ∈ [(b₁, e.hour.text), (b₂, e.dayOfMonth.text), (b₃, e.month.text),
      (b₄, e.dayOfWeek.text)],
      IsBlank p.1 ∧ IsWord p.2 := by
    simp only [List.forall_mem_cons]
    exact ⟨⟨h₁, e.hour.isWord_text⟩, ⟨h₂, e.dayOfMonth.isWord_text⟩, ⟨h₃, e.month.isWord_text⟩,
      ⟨h₄, e.dayOfWeek.isWord_text⟩, fun p hp => absurd hp List.not_mem_nil⟩
  have hword := e.minute.isWord_text
  obtain ⟨u, hlast, humem, huwhite⟩ := getLast?_joinWhite hword fun p hp => (hwords p hp).2
  have hpieces := splitWhite_joinWhite hword hwords
  have hhead := head?_joinWhite hword [(b₁, e.hour.text), (b₂, e.dayOfMonth.text), (b₃, e.month.text),
    (b₄, e.dayOfWeek.text)]
  generalize joinWhite e.minute.text [(b₁, e.hour.text), (b₂, e.dayOfMonth.text), (b₃, e.month.text),
    (b₄, e.dayOfWeek.text)] = words at *
  have hne : words ≠ [] := by
    rintro rfl
    cases hlast
  have htrim : trim (lead ++ (words ++ trail)) = words :=
    trim_framed hlead htrail hne hhead (by rw [hlast]; exact huwhite)
  have hshorthand : shorthand words = none := by
    cases hs : shorthand words with
    | none => rfl
    | some p =>
      obtain ⟨v, hv, hlast'⟩ := shorthand_last hs
      obtain rfl := Option.some.inj (hlast.symm.trans hlast')
      have hnot : ∀ v ∈ ([0x73, 0x53, 0x6D, 0x4D, 0x68, 0x48, 0x64, 0x44] : JsString),
          ¬ ((isDigit v = true ∨ v = 0x2A ∨ v = 0x2D ∨ v = 0x2F) ∨ v = 0x2C) :=
        List.forall_iff_forall_mem.1 (by decide)
      exact absurd (Field.mem_text (f := e.dayOfWeek) humem) (hnot u hv)
  obtain ⟨minute, hminute, hminute'⟩ := expandField_text e.minute
  obtain ⟨hour, hhour, hhour'⟩ := expandField_text e.hour
  obtain ⟨dayOfMonth, hdayOfMonth, hdayOfMonth'⟩ := expandField_text e.dayOfMonth
  obtain ⟨month, hmonth, hmonth'⟩ := expandField_text e.month
  obtain ⟨dayOfWeek, hdayOfWeek, hdayOfWeek'⟩ := expandField_text e.dayOfWeek
  refine ⟨⟨minute, hour, dayOfMonth, month, dayOfWeek⟩, ?_,
    ⟨hminute', hhour', hdayOfMonth', hmonth', hdayOfWeek'⟩⟩
  unfold parse
  simp only [htrim, hshorthand, hpieces, List.map_cons, List.map_nil]
  rw [parseFields, hminute, hhour, hdayOfMonth, hmonth, hdayOfWeek]
  rfl

end Expressions

end Lynox.Cron
