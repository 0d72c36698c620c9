import Lynox.Schedule.Next

/-!
# Which expressions have a next occurrence

A field that is accepted denotes some number, and numbers within its range only
(`expandField_within`). So where every weekday is in the sets and a date that every year has, one of
the minutes of any 366 days matches (`exists_fires`).

An accepted expression has a next occurrence where its interval ends within the range of dates, or
where one of the next 366 days' minutes matches (`nextOccurrence_scheduled`). An expression that only
leap days match has none in a year without one (`not_scheduled_leapDay`).
-/

namespace Lynox.Cron

open Text Calendar

section Within

variable {part base digits field token : JsString} {min max start stop step : ℤ} {range : ℤ × ℤ}
  {set : NumberSet}

theorem stepMatch_digits (h : stepMatch part = some (base, digits)) : digits ≠ [] ∧ ∀ u ∈ digits,
    isDigit u = true := by
  unfold stepMatch at h
  simp only at h
  split at h
  · split at h
    · next hfound =>
      obtain ⟨-, rfl⟩ := Prod.mk.inj (Option.some.inj h)
      exact ⟨hfound.1, fun u hu => List.mem_takeWhile_imp (List.mem_reverse.1 hu)⟩
    · cases h
  · cases h

theorem parseRange_ok (h : parseRange token min max = .ok range) :
    min ≤ range.1 ∧ range.1 ≤ range.2 ∧ range.2 ≤ max := by
  unfold parseRange at h
  split at h
  · split at h
    · split at h
      · cases h
      · next hin =>
        injection h with h
        rw [← h]
        push Not at hin
        exact ⟨hin.1, hin.2.2, hin.2.1⟩
    · cases h
  · cases h

/-- A set with a number, and none but within a range. -/
def SomeWithin (min max : ℤ) (set : NumberSet) : Prop :=
  (∃ x, x ∈ set) ∧ ∀ x ∈ set, min ≤ x ∧ x ≤ max

theorem someWithin_numbers (hmin : min ≤ start) (hle : start ≤ stop) (hmax : stop ≤ max)
    (hstep : 0 < step) :
    SomeWithin min max (numbers start stop step) := by
  refine ⟨⟨start, (mem_numbers hstep).2 ⟨le_rfl, hle, by simp⟩⟩, fun x hx => ?_⟩
  obtain ⟨hstart, hstop, -⟩ := (mem_numbers hstep).1 hx
  exact ⟨hmin.trans hstart, hstop.trans hmax⟩

theorem map_parseRange_ok (hstep : 0 < step)
    (h : (parseRange token min max).map (fun range => numbers range.1 range.2 step) = .ok set) :
    SomeWithin min max set := by
  cases hrange : parseRange token min max with
  | error error => rw [hrange] at h; cases h
  | ok range =>
    rw [hrange] at h
    injection h with h
    obtain ⟨hmin, hle, hmax⟩ := parseRange_ok hrange
    rw [← h]
    exact someWithin_numbers hmin hle hmax hstep

theorem expandPart_within (hle : min ≤ max) (h : expandPart part min max = .ok set) :
    SomeWithin min max set := by
  unfold expandPart at h
  split at h
  · next base digits hmatch =>
    obtain ⟨hne, hall⟩ := stepMatch_digits hmatch
    rw [parseInt_digits hne hall] at h
    simp only at h
    split at h
    · cases h
    · next hstep =>
      split at h
      · injection h with h
        rw [← h]
        exact someWithin_numbers le_rfl hle le_rfl (not_le.1 hstep)
      · exact map_parseRange_ok (not_le.1 hstep) h
  · split at h
    · injection h with h
      rw [← h]
      exact someWithin_numbers le_rfl hle le_rfl (by decide)
    · split at h
      · exact map_parseRange_ok (by decide) h
      · split at h
        · cases h
        · next n _ =>
          split at h
          · cases h
          · next hin =>
            injection h with h
            rw [← h]
            push Not at hin
            exact ⟨⟨n, List.mem_singleton_self n⟩, fun x hx => by rw [List.mem_singleton.1 hx]; exact hin⟩

theorem expandParts_within (hle : min ≤ max) {parts : List JsString} (hne : parts ≠ [])
    (h : expandParts min max parts = .ok set) : SomeWithin min max set := by
  induction parts generalizing set with
  | nil => exact absurd rfl hne
  | cons part parts ih =>
    rw [expandParts] at h
    cases hpart : expandPart part min max with
    | error error => rw [hpart] at h; cases h
    | ok first =>
      cases hparts : expandParts min max parts with
      | error error => rw [hpart, hparts] at h; cases h
      | ok rest =>
        rw [hpart, hparts] at h
        injection h with h
        obtain ⟨⟨x, hx⟩, hfirst⟩ := expandPart_within hle hpart
        rw [← h]
        refine ⟨⟨x, List.mem_append_left _ hx⟩, fun y hy => ?_⟩
        rcases List.mem_append.1 hy with hy | hy
        · exact hfirst y hy
        · cases parts with
          | nil =>
            injection hparts with hparts
            rw [← hparts] at hy
            cases hy
          | cons next parts => exact (ih (List.cons_ne_nil _ _) hparts).2 y hy

/-- A field that is accepted denotes some number, and numbers within its range only. -/
theorem expandField_within (hle : min ≤ max) (h : expandField field min max = .ok set) :
    SomeWithin min max set :=
  expandParts_within hle (split_ne_nil _ _) h

end Within

section Scheduled

variable {expression minute hour dayOfMonth month dayOfWeek : JsString} {parsed : CronFields} {t ms : ℤ}

theorem bind_ok {α β : Type} {x : Except JsString α} {f : α → Except JsString β} {b : β}
    (h : (x >>= f) = .ok b) : ∃ a, x = .ok a ∧ f a = .ok b := by
  cases x with
  | error error => cases h
  | ok a => exact ⟨a, rfl, h⟩

theorem parseFields_within (h : parseFields minute hour dayOfMonth month dayOfWeek = .ok parsed) :
    SomeWithin 0 59 parsed.minute ∧ SomeWithin 0 23 parsed.hour := by
  unfold parseFields at h
  obtain ⟨minute, hminute, h⟩ := bind_ok h
  obtain ⟨hour, hhour, h⟩ := bind_ok h
  obtain ⟨dayOfMonth, -, h⟩ := bind_ok h
  obtain ⟨month, -, h⟩ := bind_ok h
  obtain ⟨dayOfWeek, -, h⟩ := bind_ok h
  injection h with h
  rw [← h]
  exact ⟨expandField_within (by decide) hminute, expandField_within (by decide) hhour⟩

/-- What an accepted expression is read as : an interval of at least a minute, or five fields. -/
theorem parse_ok {result : ParsedExpression} (h : parse expression = .ok result) :
    (∃ ms, result = .interval ms ∧ MIN_INTERVAL_MS ≤ ms) ∨
      ∃ parsed, result = .fields parsed ∧ SomeWithin 0 59 parsed.minute ∧ SomeWithin 0 23 parsed.hour := by
  unfold parse at h
  simp only at h
  split at h
  · split at h
    · cases h
    · injection h with h
      exact .inl ⟨_, h.symm, le_max_left _ _⟩
  · split at h
    · next minute hour dayOfMonth month dayOfWeek _ =>
      cases hfields : parseFields minute hour dayOfMonth month dayOfWeek with
      | error error => rw [hfields] at h; cases h
      | ok parsed =>
        rw [hfields] at h
        injection h with h
        exact .inr ⟨parsed, h.symm, parseFields_within hfields⟩
    · cases h

/-- Some date of the sets is one that every year has. -/
def CronFields.Yearly (parsed : CronFields) : Prop :=
  (∀ weekday, 0 ≤ weekday → weekday ≤ 6 → weekday ∈ parsed.dayOfWeek) ∧
    ∃ month ∈ parsed.month, ∃ date ∈ parsed.dayOfMonth, InEveryYear month date

/-- Within 366 days one minute matches, where every weekday is in the sets and a date that every
year has. -/
theorem exists_fires (hminute : SomeWithin 0 59 parsed.minute) (hhour : SomeWithin 0 23 parsed.hour)
    (hyearly : parsed.Yearly) (ht : Instant t) (hend : Instant (t + 60000 * MAX_MINUTES_SCAN)) :
    ∃ u, (Minute u ∧ t < u ∧ u ≤ t + 60000 * MAX_MINUTES_SCAN) ∧ parsed.fires u = true := by
  obtain ⟨⟨m, hm⟩, hminutes⟩ := hminute
  obtain ⟨⟨h, hh⟩, hhours⟩ := hhour
  obtain ⟨hweekday, month, hmonth, date, hdate, hevery⟩ := hyearly
  have hm' := hminutes m hm
  have hh' := hhours h hh
  -- The first day on which this time of the day is behind the instant.
  obtain ⟨day, hle, hlt, hday, hday'⟩ :=
    exists_date hevery ((t - (h * 3600000 + m * 60000)) / 86400000 + 1)
  have hcap : (60000 : ℤ) * (MAX_MINUTES_SCAN : ℤ) = 366 * 86400000 := by decide
  rw [hcap] at hend ⊢
  refine ⟨day * 86400000 + h * 3600000 + m * 60000,
    ⟨⟨⟨day * 1440 + h * 60 + m, by omega⟩, ?_⟩, by omega, by omega⟩, ?_⟩
  · unfold Instant at ht hend ⊢
    omega
  · have hdayOf : dayOf (day * 86400000 + h * 3600000 + m * 60000) = day := by
      unfold dayOf
      omega
    have hhourOf : hourOf (day * 86400000 + h * 3600000 + m * 60000) = h := by
      unfold hourOf
      omega
    have hminuteOf : minuteOf (day * 86400000 + h * 3600000 + m * 60000) = m := by
      unfold minuteOf
      omega
    have hweekdayOf : weekdayOf day ∈ parsed.dayOfWeek := by
      refine hweekday _ ?_ ?_
      · unfold weekdayOf
        omega
      · unfold weekdayOf
        omega
    simp only [CronFields.fires, hdayOf, hhourOf, hminuteOf, hday, hday', hm, hh, hdate, hmonth, hweekdayOf,
      decide_true, Bool.and_self]

end Scheduled

/-- Every accepted expression is scheduled : an interval that ends within the range of dates, and
five fields of which one of the next 366 days' minutes matches. Where the fields have every weekday
and a date that every year has, one of them does. -/
theorem nextOccurrence_scheduled (now : Date) (expression : JsString)
    (hvalid : isValidCron expression = true) (t : ℤ)
    (ht : Instant t) :
    (∃ ms, parse expression = .ok (.interval ms) ∧
      (Instant (t + ms) → ∃ u, nextOccurrence now expression (some (some t)) = .ok (some u) ∧
        Instant u ∧ t < u)) ∨
    ∃ parsed, parse expression = .ok (.fields parsed) ∧
      (((∃ u, Minute u ∧ t < u ∧ u ≤ t + 60000 * (366 * 1440) ∧ parsed.fires u = true) ∨
          (parsed.Yearly ∧ Instant (t + 60000 * (366 * 1440)))) →
        ∃ u, nextOccurrence now expression (some (some t)) = .ok (some u) ∧ Instant u ∧ t < u) := by
  unfold isValidCron at hvalid
  split at hvalid
  · next result hparse =>
    rcases parse_ok hparse with ⟨ms, rfl, hms⟩ | ⟨parsed, rfl, hminute, hhour⟩
    · refine .inl ⟨ms, hparse, fun hend => ⟨t + ms, ?_, hend, ?_⟩⟩
      · rw [nextOccurrence, hparse]
        exact congrArg Except.ok (if_pos hend)
      · unfold MIN_INTERVAL_MS at hms
        omega
    · refine .inr ⟨parsed, hparse, fun hmatch => ?_⟩
      obtain ⟨u, hu, hfires⟩ : ∃ u, (Minute u ∧ t < u ∧ u ≤ t + 60000 * (MAX_MINUTES_SCAN : ℤ)) ∧
          parsed.fires u = true := by
        rcases hmatch with ⟨u, hu, hlt, hle, hfires⟩ | ⟨hyearly, hend⟩
        · exact ⟨u, ⟨hu, hlt, hle⟩, hfires⟩
        · exact exists_fires hminute hhour hyearly ht hend
      obtain ⟨date, hok⟩ := nextOccurrence_of_fires now hparse ht hu hfires
      obtain ⟨v, rfl, ⟨hminute, hlt, -⟩, -, -⟩ := nextOccurrence_ok now hparse ht hok
      exact ⟨v, hok, hminute.2, hlt⟩
  · cases hvalid

/-- `0 8 * * *` is scheduled from any instant that 366 days come after. -/
theorem nextOccurrence_scheduled_daily : ∃ u,
    nextOccurrence none [0x30, 0x20, 0x38, 0x20, 0x2A, 0x20, 0x2A, 0x20, 0x2A] (some (some 28799999)) =
      .ok (some u) ∧ Instant u ∧ 28799999 < u := by
  rcases nextOccurrence_scheduled none [0x30, 0x20, 0x38, 0x20, 0x2A, 0x20, 0x2A, 0x20, 0x2A] rfl 28799999
    (by decide) with ⟨ms, hms, -⟩ | ⟨parsed, hparse, hnext⟩
  · have hfields : parse [0x30, 0x20, 0x38, 0x20, 0x2A, 0x20, 0x2A, 0x20, 0x2A] =
      .ok (.fields ⟨[0], [8], numbers 1 31 1, numbers 1 12 1, numbers 0 6 1⟩) := rfl
    cases hfields.symm.trans hms
  · have hfields : parse [0x30, 0x20, 0x38, 0x20, 0x2A, 0x20, 0x2A, 0x20, 0x2A] =
      .ok (.fields ⟨[0], [8], numbers 1 31 1, numbers 1 12 1, numbers 0 6 1⟩) := rfl
    cases hfields.symm.trans hparse
    exact hnext (.inl ⟨28800000, by decide, by decide, by decide, by decide +kernel⟩)

/-- `0 0 29 2 *` -/
def leapDay : Expression :=
  { daily with
    hour := ⟨.number zero, [], by decide⟩
    dayOfMonth := ⟨.number ⟨[0x32, 0x39], by decide, List.all_eq_true.1 rfl⟩, [], by decide⟩
    month := ⟨.number ⟨[0x32], by decide, List.all_eq_true.1 rfl⟩, [], by decide⟩ }

theorem leapDay_writes : leapDay.Writes [0x30, 0x20, 0x30, 0x20, 0x32, 0x39, 0x20, 0x32, 0x20, 0x2A] :=
  ⟨[], [0x20], [0x20], [0x20], [0x20], [], List.forall_mem_nil _, List.forall_mem_nil _, by decide⟩

theorem leapDay_date {u : ℤ} (h : leapDay.Matches u) : dateOf (dayOf u) = 29 ∧ monthOf (dayOf u) = 2 := by
  obtain ⟨-, -, ⟨item, hitem, hdate⟩, ⟨item', hitem', hmonth⟩, -⟩ := h
  obtain rfl := List.mem_singleton.1 hitem
  obtain rfl := List.mem_singleton.1 hitem'
  exact ⟨hdate, hmonth⟩

/-- From the first of March 2025 on, a leap day is further away than the search goes. -/
theorem not_scheduled_leapDay :
    isValidCron [0x30, 0x20, 0x30, 0x20, 0x32, 0x39, 0x20, 0x32, 0x20, 0x2A] = true ∧
      (∃ u, Minute u ∧ leapDay.Matches u) ∧ Instant 1740787200000 ∧
        ∃ error, nextOccurrence none [0x30, 0x20, 0x30, 0x20, 0x32, 0x39, 0x20, 0x32, 0x20, 0x2A]
          (some (some 1740787200000)) = .error error := by
  refine ⟨rfl, ⟨1709164800000, by decide +kernel, by decide +kernel⟩, by decide, ?_⟩
  obtain ⟨parsed, hparse, hreads⟩ := parse_text leapDay_writes
  cases hnext : nextOccurrence none [0x30, 0x20, 0x30, 0x20, 0x32, 0x39, 0x20, 0x32, 0x20, 0x2A]
      (some (some 1740787200000)) with
  | error error => exact ⟨error, rfl⟩
  | ok date =>
    obtain ⟨u, -, ⟨-, hlt, hle⟩, hfires, -⟩ := nextOccurrence_ok none hparse (by decide) hnext
    have hdays : ∀ k ∈ List.range 367,
        ¬ (dateOf (20148 + k) = 29 ∧ monthOf (20148 + k) = 2) := by decide +kernel
    have hcap : (60000 : ℤ) * (MAX_MINUTES_SCAN : ℤ) = 366 * 86400000 := by decide
    rw [hcap] at hle
    have hday : dayOf u = 20148 + ((dayOf u - 20148).toNat : ℤ) := by
      unfold dayOf
      omega
    have hleap := leapDay_date (hreads.fires_iff.1 hfires)
    rw [hday] at hleap
    refine absurd hleap (hdays (dayOf u - 20148).toNat (List.mem_range.2 ?_))
    unfold dayOf
    omega

end Lynox.Cron
