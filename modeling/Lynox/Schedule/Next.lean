import Lynox.Schedule.Expression
import Mathlib.Order.Bounds.Basic

/-!
# The next occurrence

From an instant on the search goes through the whole minutes behind it, to the first that matches
(`scan_eq_some_iff`). So the next occurrence of an expression is the earliest minute it denotes, and
there is none exactly if none of the next 366 days' minutes is one (`nextOccurrence_isLeast`).
-/

namespace Lynox.Cron

open Text

/-- A whole minute that is the instant of a date. -/
def Minute (u : ℤ) : Prop :=
  60000 ∣ u ∧ Instant u

instance (u : ℤ) : Decidable (Minute u) :=
  inferInstanceAs (Decidable (_ ∧ _))

section Scan

variable {parsed : CronFields} {rounds : ℕ} {c t u : ℤ} {date : Date}

theorem scan_none : scan parsed rounds none = none := by
  induction rounds with
  | zero => rfl
  | succ rounds ih =>
    rw [scan]
    exact ih

/-- The search ends at the first of the minutes it goes through that matches. -/
theorem scan_eq_some_iff (hc : Instant c) : scan parsed rounds (some c) = some date ↔
    ∃ k < rounds, Instant (c + 60000 * k) ∧ date = some (c + 60000 * k) ∧
      parsed.fires (c + 60000 * k) = true ∧
      ∀ j < k, parsed.fires (c + 60000 * j) = false := by
  induction rounds generalizing c with
  | zero => simp [scan]
  | succ rounds ih =>
    have hshift : ∀ k : ℕ, c + 60000 * ((k + 1 : ℕ) : ℤ) = c + 60000 + 60000 * (k : ℤ) := fun k => by
      rw [Nat.cast_add, Nat.cast_one]
      omega
    rw [scan, Nat.exists_lt_succ_left]
    simp only [Nat.forall_lt_succ_left, hshift, Nat.cast_zero, mul_zero, add_zero]
    by_cases hfires : parsed.fires c = true
    · rw [if_pos (by simpa using hfires)]
      simp [hfires, hc, @eq_comm _ _ date]
    · rw [if_neg (by simpa using hfires)]
      have hpass : parsed.fires c = false := by simpa using hfires
      by_cases hnext : Instant (c + 60000)
      · have hadd : addTime (some c) 60000 = some (c + 60000) := if_pos hnext
        rw [hadd, ih hnext]
        simp [hpass]
      · have hadd : addTime (some c) 60000 = none := if_neg hnext
        have hend : ∀ k : ℕ, ¬ Instant (c + 60000 + 60000 * (k : ℤ)) := by
          unfold Instant at hc hnext ⊢
          omega
        rw [hadd, scan_none]
        simp [hpass, hend]

/-- The minutes behind an instant, up to one that many minutes on. -/
theorem minute_iff (n : ℕ) : (Minute u ∧ t < u ∧ u ≤ t + 60000 * n) ↔
    ∃ k < n, u = t / 60000 * 60000 + 60000 + 60000 * (k : ℤ) ∧ Instant u := by
  constructor
  · rintro ⟨⟨⟨q, rfl⟩, hinstant⟩, hlt, hle⟩
    exact ⟨(q - t / 60000 - 1).toNat, by omega, by omega, hinstant⟩
  · rintro ⟨k, hk, rfl, hinstant⟩
    exact ⟨⟨⟨t / 60000 + 1 + k, by omega⟩, hinstant⟩, by omega, by omega⟩

theorem wholeMinute_some (ht : Instant t) : wholeMinute (some t) = some (t / 60000 * 60000) := by
  refine if_pos ?_
  unfold Instant at ht ⊢
  omega

/-- Where the search ends, it is at the first minute behind the instant that matches. -/
theorem search_some (ht : Instant t)
    (h : scan parsed rounds (addTime (wholeMinute (some t)) 60000) = some date) :
    ∃ u, date = some u ∧ (Minute u ∧ t < u ∧ u ≤ t + 60000 * rounds) ∧ parsed.fires u = true ∧
      ∀ v, Minute v → t < v → v < u → parsed.fires v = false := by
  rw [wholeMinute_some ht] at h
  by_cases hfirst : Instant (t / 60000 * 60000 + 60000)
  · have hadd : addTime (some (t / 60000 * 60000)) 60000 = some (t / 60000 * 60000 + 60000) := if_pos hfirst
    rw [hadd, scan_eq_some_iff hfirst] at h
    obtain ⟨k, hk, hinstant, hdate, hmatch, hbefore⟩ := h
    refine ⟨_, hdate, (minute_iff rounds).2 ⟨k, hk, rfl, hinstant⟩, hmatch, fun v hv hlt hlt' => ?_⟩
    obtain ⟨j, -, rfl, -⟩ := (minute_iff rounds).1 ⟨hv, hlt, by omega⟩
    exact hbefore j (by omega)
  · have hadd : addTime (some (t / 60000 * 60000)) 60000 = none := if_neg hfirst
    rw [hadd, scan_none] at h
    cases h

/-- Where a minute matches, the search ends. -/
theorem search_of_fires (ht : Instant t) (hu : Minute u ∧ t < u ∧ u ≤ t + 60000 * rounds)
    (hfires : parsed.fires u = true) :
    ∃ date, scan parsed rounds (addTime (wholeMinute (some t)) 60000) = some date := by
  rw [wholeMinute_some ht]
  obtain ⟨k, hk, rfl, hinstant⟩ := (minute_iff rounds).1 hu
  have hfirst : Instant (t / 60000 * 60000 + 60000) := by
    unfold Instant at ht hinstant ⊢
    omega
  have hadd : addTime (some (t / 60000 * 60000)) 60000 = some (t / 60000 * 60000 + 60000) := if_pos hfirst
  have hexists : ∃ k : ℕ, parsed.fires (t / 60000 * 60000 + 60000 + 60000 * (k : ℤ)) = true := ⟨k, hfires⟩
  have hleast := Nat.find_min' hexists hfires
  rw [hadd]
  refine ⟨_, (scan_eq_some_iff hfirst).2 ⟨Nat.find hexists, lt_of_le_of_lt hleast hk, ?_, rfl,
    Nat.find_spec hexists, fun j hj => by simpa using Nat.find_min hexists hj⟩⟩
  unfold Instant at hfirst hinstant ⊢
  omega

end Scan

section Occurrence

variable (now : Date) {expression : JsString} {parsed : CronFields} {t u : ℤ} {date : Date}

theorem nextOccurrence_fields (h : parse expression = .ok (.fields parsed)) :
    nextOccurrence now expression (some (some t)) =
      match scan parsed MAX_MINUTES_SCAN (addTime (wholeMinute (some t)) 60000) with
      | some candidate => .ok candidate
      | none => .error (utf16 "No matching occurrence within 366 days for: " ++ expression) := by
  rw [nextOccurrence, h]
  rfl

/-- The next occurrence of five fields is the first minute that matches. -/
theorem nextOccurrence_ok (h : parse expression = .ok (.fields parsed)) (ht : Instant t)
    (hok : nextOccurrence now expression (some (some t)) = .ok date) :
    ∃ u, date = some u ∧ (Minute u ∧ t < u ∧ u ≤ t + 60000 * MAX_MINUTES_SCAN) ∧ parsed.fires u = true ∧
      ∀ v, Minute v → t < v → v < u → parsed.fires v = false := by
  rw [nextOccurrence_fields now h] at hok
  split at hok
  · next candidate hscan =>
    injection hok with hok
    rw [← hok]
    exact search_some ht hscan
  · cases hok

/-- There is one where a minute within 366 days matches. -/
theorem nextOccurrence_of_fires (h : parse expression = .ok (.fields parsed)) (ht : Instant t)
    (hu : Minute u ∧ t < u ∧ u ≤ t + 60000 * MAX_MINUTES_SCAN) (hfires : parsed.fires u = true) :
    ∃ date, nextOccurrence now expression (some (some t)) = .ok date := by
  obtain ⟨date, hscan⟩ := search_of_fires ht hu hfires
  exact ⟨date, by rw [nextOccurrence_fields now h, hscan]⟩

end Occurrence

/-- The next occurrence of a well-formed expression of five fields is the earliest whole minute
after the instant whose parts are in the sets of the fields, and there is none exactly if none of
the next 366 days' minutes is one. -/
theorem nextOccurrence_isLeast (e : Expression) (text : JsString) (h : e.Writes text) (now : Date) (t : ℤ)
    (ht : Instant t) :
    (∀ date, nextOccurrence now text (some (some t)) = .ok date →
      ∃ u, date = some u ∧ IsLeast {u | Minute u ∧ t < u ∧ e.Matches u} u) ∧
    ((∃ error, nextOccurrence now text (some (some t)) = .error error) ↔
      ∀ u, Minute u → t < u → u ≤ t + 60000 * (366 * 1440) → ¬ e.Matches u) := by
  obtain ⟨parsed, hparse, hreads⟩ := parse_text h
  refine ⟨fun date hok => ?_, fun ⟨error, herror⟩ u hminute hlt hle hmatches => ?_, fun hnone => ?_⟩
  · obtain ⟨u, rfl, ⟨hminute, hlt, -⟩, hfires, hbefore⟩ := nextOccurrence_ok now hparse ht hok
    refine ⟨u, rfl, ⟨hminute, hlt, hreads.fires_iff.1 hfires⟩, fun v ⟨hv, hltv, hmatches⟩ => ?_⟩
    by_contra hgt
    exact absurd ((hbefore v hv hltv (not_le.1 hgt)).symm.trans (hreads.fires_iff.2 hmatches)) (by decide)
  · obtain ⟨date, hok⟩ := nextOccurrence_of_fires now hparse ht ⟨hminute, hlt, hle⟩
      (hreads.fires_iff.2 hmatches)
    rw [hok] at herror
    cases herror
  · cases hnext : nextOccurrence now text (some (some t)) with
    | error error => exact ⟨error, rfl⟩
    | ok date =>
      obtain ⟨u, -, ⟨hminute, hlt, hle⟩, hfires, -⟩ := nextOccurrence_ok now hparse ht hnext
      exact absurd (hreads.fires_iff.1 hfires) (hnone u hminute hlt hle)

def zero : Numeral :=
  ⟨[0x30], by decide, List.all_eq_true.1 rfl⟩

/-- `0 8 * * *` -/
def daily : Expression where
  minute := ⟨.number zero, [], by decide⟩
  hour := ⟨.number ⟨[0x38], by decide, List.all_eq_true.1 rfl⟩, [], by decide⟩
  dayOfMonth := ⟨.every, [], by decide⟩
  month := ⟨.every, [], by decide⟩
  dayOfWeek := ⟨.every, [], by decide⟩

/-- Every day at eight. -/
theorem daily_writes : daily.Writes
    [0x30, 0x20, 0x38, 0x20, 0x2A, 0x20, 0x2A, 0x20, 0x2A] :=
  ⟨[], [0x20], [0x20], [0x20], [0x20], [], List.forall_mem_nil _, List.forall_mem_nil _, by decide⟩

/-- At eight, from one millisecond before it on. -/
theorem nextOccurrence_isLeast_daily :
    IsLeast {u | Minute u ∧ 28799999 < u ∧ daily.Matches u} 28800000 := by
  obtain ⟨u, hu, hleast⟩ := (nextOccurrence_isLeast daily _ daily_writes none 28799999 (by decide)).1
    (some 28800000) rfl
  obtain rfl := Option.some.inj hu
  exact hleast

end Lynox.Cron
