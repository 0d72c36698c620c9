import Mathlib.Data.Int.Basic
import Mathlib.Data.List.Range
import Mathlib.Tactic.Linarith

/-!
# The calendar

Days are counted from the first of January 1970. A year is the one a day is in (`yearOf_spec`), and
the day has a month, a date and a weekday.

A date that every year has comes back within 366 days (`exists_date`).
-/

namespace Lynox.Calendar

/-- The first day of a year. -/
def dayFromYear (y : ℤ) : ℤ :=
  365 * (y - 1970) + (y - 1969) / 4 - (y - 1901) / 100 + (y - 1601) / 400

def isLeap (y : ℤ) : Bool :=
  y % 4 = 0 ∧ (y % 100 ≠ 0 ∨ y % 400 = 0)

/-- The year of a day : 400 years have 146097 days, and the year counted so is off by one at most. -/
def yearOf (d : ℤ) : ℤ :=
  let y := 1970 + d * 400 / 146097
  if d < dayFromYear y then y - 1 else if dayFromYear (y + 1) ≤ d then y + 1 else y

/-- The days of each month. -/
def monthLengths (leap : Bool) : List ℤ :=
  [31, if leap then 29 else 28, 31, 30, 31, 30, 31, 31, 30, 31, 30, 31]

/-- The month and the date of a day, counted in the months from one on. -/
def monthDate : (month : ℤ) → List ℤ → ℤ → ℤ × ℤ
  | month, [], k => (month, k + 1)
  | month, length :: lengths, k =>
    if k < length then (month, k + 1) else monthDate (month + 1) lengths (k - length)

/-- The month and the date of a day. -/
def monthDateOf (d : ℤ) : ℤ × ℤ :=
  monthDate 1 (monthLengths (isLeap (yearOf d))) (d - dayFromYear (yearOf d))

def monthOf (d : ℤ) : ℤ :=
  (monthDateOf d).1

def dateOf (d : ℤ) : ℤ :=
  (monthDateOf d).2

/-- The day of the week, zero a Sunday. -/
def weekdayOf (d : ℤ) : ℤ :=
  (d + 4) % 7

section Years

variable {y y' d : ℤ}

theorem dayFromYear_succ (y : ℤ) : dayFromYear (y + 1) = dayFromYear y + if isLeap y then 366 else 365 := by
  unfold dayFromYear isLeap
  simp only [decide_eq_true_eq]
  split <;> omega

theorem dayFromYear_mono (h : y ≤ y') : dayFromYear y ≤ dayFromYear y' := by
  unfold dayFromYear
  omega

/-- A day is in its year. -/
theorem yearOf_spec (d : ℤ) : dayFromYear (yearOf d) ≤ d ∧ d < dayFromYear (yearOf d + 1) := by
  unfold yearOf
  simp only
  generalize hy : 1970 + d * 400 / 146097 = y
  have hbelow : dayFromYear (y - 1) ≤ d := by
    unfold dayFromYear
    omega
  have habove : d < dayFromYear (y + 1 + 1) := by
    unfold dayFromYear
    omega
  split
  · next h => exact ⟨hbelow, by rwa [Int.sub_add_cancel]⟩
  · next h =>
    split
    · next h' => exact ⟨h', habove⟩
    · next h' => exact ⟨by omega, by omega⟩

theorem yearOf_eq (h : dayFromYear y ≤ d) (h' : d < dayFromYear (y + 1)) : yearOf d = y := by
  obtain ⟨hle, hlt⟩ := yearOf_spec d
  rcases lt_trichotomy (yearOf d) y with hbefore | heq | hafter
  · have := dayFromYear_mono (show yearOf d + 1 ≤ y by omega)
    omega
  · exact heq
  · have := dayFromYear_mono (show y + 1 ≤ yearOf d by omega)
    omega

end Years

/-! ## Dates -/

/-- The day of a year that a date is, from zero on. -/
def dayInYear (leap : Bool) (month date : ℤ) : ℤ :=
  ((monthLengths leap).take (month - 1).toNat).sum + date - 1

/-- A date that every year has. -/
def InEveryYear (month date : ℤ) : Prop :=
  1 ≤ month ∧ month ≤ 12 ∧ 1 ≤ date ∧ date ≤ (monthLengths false).getD (month - 1).toNat 0

instance (month date : ℤ) : Decidable (InEveryYear month date) :=
  inferInstanceAs (Decidable (_ ∧ _))

section Dates

variable {month date y d : ℤ}

/-- A date is the month and date of its day, which a leap day in front of it moves by one. -/
theorem dayInYear_spec (leap : Bool) (h : InEveryYear month date) :
    monthDate 1 (monthLengths leap) (dayInYear leap month date) = (month, date) ∧
      0 ≤ dayInYear leap month date ∧ dayInYear leap month date < 365 + (if leap then 1 else 0) ∧
        dayInYear false month date ≤ dayInYear leap month date ∧
          dayInYear leap month date ≤ dayInYear false month date + if leap then 1 else 0 := by
  have hall : ∀ leap : Bool, ∀ m ∈ List.range 12, ∀ n ∈ List.range 31, InEveryYear (m + 1) (n + 1) →
      monthDate 1 (monthLengths leap) (dayInYear leap (m + 1) (n + 1)) = ((m : ℤ) + 1, (n : ℤ) + 1) ∧
        0 ≤ dayInYear leap (m + 1) (n + 1) ∧
        dayInYear leap (m + 1) (n + 1) < 365 + (if leap then 1 else 0) ∧
          dayInYear false (m + 1) (n + 1) ≤ dayInYear leap (m + 1) (n + 1) ∧
            dayInYear leap (m + 1) (n + 1) ≤ dayInYear false (m + 1) (n + 1) + if leap then 1 else 0 := by
    decide +kernel
  have hlengths : ∀ length ∈ monthLengths false, length ≤ 31 := by decide
  obtain ⟨hm, hm', hd, hd'⟩ := id h
  have hdate : date ≤ 31 := by
    rw [List.getD_eq_getElem?_getD] at hd'
    cases hlength : (monthLengths false)[(month - 1).toNat]? with
    | none =>
      rw [hlength] at hd'
      exact hd'.trans (by decide)
    | some length =>
      rw [hlength] at hd'
      exact hd'.trans (hlengths length (List.mem_of_getElem? hlength))
  have hmonth : ((month - 1).toNat : ℤ) + 1 = month := by omega
  have hdate' : ((date - 1).toNat : ℤ) + 1 = date := by omega
  have hspec := hall leap (month - 1).toNat (List.mem_range.2 (by omega)) (date - 1).toNat
    (List.mem_range.2 (by omega)) (by rwa [hmonth, hdate'])
  rwa [hmonth, hdate'] at hspec

theorem monthDateOf_eq (h : InEveryYear month date) :
    monthDateOf (dayFromYear y + dayInYear (isLeap y) month date) = (month, date) := by
  obtain ⟨hplace, hnonneg, hlt, -⟩ := dayInYear_spec (isLeap y) h
  have hyear : yearOf (dayFromYear y + dayInYear (isLeap y) month date) = y := by
    refine yearOf_eq (by omega) ?_
    rw [dayFromYear_succ]
    cases hleap : isLeap y with
    | false => rw [hleap] at hlt; simp at hlt ⊢; omega
    | true => rw [hleap] at hlt; simp at hlt ⊢; omega
  rw [monthDateOf, hyear, add_sub_cancel_left, hplace]

theorem not_isLeap_succ (h : isLeap y = true) : isLeap (y + 1) = false := by
  unfold isLeap at h ⊢
  rw [decide_eq_true_eq] at h
  rw [decide_eq_false_iff_not]
  omega

/-- From any day on, a date that every year has comes within 366 days. -/
theorem exists_date (h : InEveryYear month date) (d : ℤ) :
    ∃ d', d ≤ d' ∧ d' < d + 366 ∧ monthOf d' = month ∧ dateOf d' = date := by
  obtain ⟨hle, hlt⟩ := yearOf_spec d
  generalize yearOf d = y at hle hlt
  have hfields : ∀ y, monthOf (dayFromYear y + dayInYear (isLeap y) month date) = month ∧
      dateOf (dayFromYear y + dayInYear (isLeap y) month date) = date := fun y =>
    ⟨congrArg Prod.fst (monthDateOf_eq h), congrArg Prod.snd (monthDateOf_eq h)⟩
  obtain ⟨-, hnonneg, hbound, hplain, hleapday⟩ := dayInYear_spec (isLeap y) h
  obtain ⟨-, hnonneg', hbound', hplain', hleapday'⟩ := dayInYear_spec (isLeap (y + 1)) h
  have hsucc := dayFromYear_succ y
  rcases lt_or_ge (dayFromYear y + dayInYear (isLeap y) month date) d with hpast | hahead
  · -- This year it is over : a year is 366 days long only where the next one has no leap day.
    refine ⟨_, ?_, ?_, hfields (y + 1)⟩
    · omega
    · cases hleap : isLeap y with
      | false =>
        rw [hleap, if_neg (by decide)] at hsucc
        rw [hleap] at hpast
        split at hleapday' <;> omega
      | true =>
        rw [hleap, if_pos rfl] at hsucc
        rw [not_isLeap_succ hleap, if_neg (by decide)] at hleapday'
        rw [not_isLeap_succ hleap]
        omega
  · refine ⟨_, hahead, ?_, hfields y⟩
    split at hbound <;> omega

end Dates

end Lynox.Calendar
