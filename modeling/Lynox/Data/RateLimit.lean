import Mathlib.Algebra.Order.Group.Defs
import Mathlib.Data.List.Basic

/-!
# Sliding windows

A limit of `n` requests in every span of time and of a gap between any two is kept by a history of the
times that were granted. `recent` are the times of a history that still count, and `wait` is how long a
request has to wait at a time, not positive where it may go now.

Where the gap is no longer than the span, a history that only grows by times that need not wait stays
spaced and within the limit (`Kept.grant`), and the wait is exact : a later request goes where it comes
when the wait is over, and not before (`Kept.wait_nonpos_iff`).
-/

set_option linter.unusedSectionVars false

namespace Lynox.RateLimit

variable {T : Type*} [AddCommGroup T] [LinearOrder T] [IsOrderedAddMonoid T]

/-- The times that still count. -/
def recent (span now : T) (times : List T) : List T :=
  times.filter fun t => now - span < t

/-- How long to wait for the gap after the last time. -/
def gapWait (gap now : T) (log : List T) : T :=
  match log.getLast? with
  | some last => if now - last < gap then gap - (now - last) else 0
  | none => 0

/-- How long to wait, by the times that still count. -/
def logWait (n : ℕ) (gap span now : T) (log : List T) : T :=
  if n ≤ log.length then
    match log.head? with
    | some first => max (gapWait gap now log) (first + span - now)
    | none => gapWait gap now log
  else gapWait gap now log

/-- How long to wait, by the history. -/
def wait (n : ℕ) (gap span now : T) (times : List T) : T :=
  logWait n gap span now (recent span now times)

/-- No two times are closer than the gap, and no span holds more than `n`. -/
structure Kept (n : ℕ) (gap span : T) (times : List T) : Prop where
  spaced : times.Pairwise fun t u => gap ≤ u - t
  starting : ∀ a, (times.filter fun t => a ≤ t ∧ t < a + span).length ≤ n
  ending : ∀ a, (times.filter fun t => a < t ∧ t ≤ a + span).length ≤ n

section Wait

variable {n : ℕ} {gap span now : T} {log : List T}

theorem gapWait_nonneg : 0 ≤ gapWait gap now log := by
  unfold gapWait
  split
  · split
    · next h => exact sub_nonneg.2 h.le
    · exact le_rfl
  · exact le_rfl

theorem logWait_nonneg : 0 ≤ logWait n gap span now log := by
  unfold logWait
  split
  · split
    · exact gapWait_nonneg.trans (le_max_left _ _)
    · exact gapWait_nonneg
  · exact gapWait_nonneg

theorem gapWait_pos : 0 < gapWait gap now log ↔ ∃ last, log.getLast? = some last ∧ now - last < gap := by
  unfold gapWait
  cases log.getLast? with
  | none => simp
  | some last =>
    simp only [Option.some.injEq, exists_eq_left']
    split
    · next h => exact iff_of_true (sub_pos.2 h) h
    · next h => exact iff_of_false (lt_irrefl _) h

/-- A request goes where the last time is a gap away and fewer than `n` times still count. -/
theorem logWait_nonpos (hn : 0 < n) (hlog : ∀ u ∈ log, now - span < u) : logWait n gap span now log ≤ 0 ↔
    (∀ last, log.getLast? = some last → gap ≤ now - last) ∧ log.length < n := by
  have hgap : gapWait gap now log ≤ 0 ↔ ∀ last, log.getLast? = some last → gap ≤ now - last := by
    rw [← not_lt, gapWait_pos]
    push Not
    rfl
  unfold logWait
  split
  · next hle =>
    have hne : log ≠ [] := fun h => absurd (h ▸ hle) (by simp; omega)
    obtain ⟨first, rest, rfl⟩ := List.exists_cons_of_ne_nil hne
    refine iff_of_false (fun h => ?_) fun h => absurd hle (not_le.2 h.2)
    have hfirst := (le_max_right _ _).trans h
    exact absurd (sub_nonpos.1 hfirst) (not_le.2 (sub_lt_iff_lt_add.1 (hlog first List.mem_cons_self)))
  · next hlt => rw [hgap, and_iff_left (not_le.1 hlt)]

end Wait

/-! ## A history in order -/

section History

variable {n : ℕ} {gap span now t u : T} {times times' : List T}

theorem mem_recent : t ∈ recent span now times ↔ t ∈ times ∧ now - span < t := by
  simp [recent]

theorem recent_recent (h : now ≤ t) : recent span t (recent span now times) = recent span t times := by
  unfold recent
  rw [List.filter_filter]
  refine List.filter_congr fun u _ => ?_
  rw [← Bool.decide_and, decide_eq_decide, and_iff_left_iff_imp]
  exact (sub_le_sub_right h span).trans_lt

theorem recent_append : recent span now (times ++ times') = recent span now times ++
    recent span now times' :=
  List.filter_append ..

theorem le_of_getLast? (h : times.Pairwise (· ≤ ·)) (ht : t ∈ times) (hu : times.getLast? = some u) :
    t ≤ u := by
  obtain ⟨front, rfl⟩ := List.getLast?_eq_some_iff.1 hu
  rcases List.mem_append.1 ht with ht | ht
  · exact (List.pairwise_append.1 h).2.2 t ht u (List.mem_singleton.2 rfl)
  · exact (List.mem_singleton.1 ht).le

/-- The last time that counts is a gap away exactly where every time is. -/
theorem last_gap_iff (hgap : gap ≤ span) (h : times.Pairwise (· ≤ ·)) (hnow : now ≤ t) :
    (∀ last, (recent span now times).getLast? = some last → gap ≤ t - last) ↔
      ∀ u ∈ times, gap ≤ t - u := by
  have hsorted : (recent span now times).Pairwise (· ≤ ·) := h.filter _
  refine ⟨fun hlast u hu => ?_, fun hall last hlast => ?_⟩
  · by_cases hrecent : now - span < u
    · have hmem : u ∈ recent span now times := mem_recent.2 ⟨hu, hrecent⟩
      obtain ⟨last, hl⟩ := Option.isSome_iff_exists.1
        (List.getLast?_isSome.2 (List.ne_nil_of_mem hmem))
      exact (hlast last hl).trans (sub_le_sub_left (le_of_getLast? hsorted hmem hl) t)
    · calc gap ≤ span := hgap
        _ ≤ now - u := le_sub_comm.1 (not_lt.1 hrecent)
        _ ≤ t - u := sub_le_sub_right hnow u
  · exact hall last (mem_recent.1 (List.mem_of_getLast? hlast)).1

theorem wait_nonpos (hn : 0 < n) (hgap : gap ≤ span) (h : times.Pairwise (· ≤ ·)) :
    wait n gap span now times ≤ 0 ↔
      (∀ u ∈ times, gap ≤ now - u) ∧ (recent span now times).length < n := by
  rw [wait, logWait_nonpos hn fun u hu => (mem_recent.1 hu).2, last_gap_iff hgap h le_rfl]

/-- How long the gap makes wait, from now on. -/
theorem gapWait_le (hgap : gap ≤ span) (h : times.Pairwise (· ≤ ·)) (hnow : now ≤ t) :
    gapWait gap now (recent span now times) ≤ t - now ↔ ∀ u ∈ times, gap ≤ t - u := by
  rw [← last_gap_iff hgap h hnow]
  unfold gapWait
  cases (recent span now times).getLast? with
  | none => simpa using hnow
  | some last =>
    simp only [Option.some.injEq, forall_eq']
    split
    · rw [sub_le_iff_le_add, sub_add_sub_cancel]
    · next hfar =>
      exact iff_of_true (sub_nonneg.2 hnow) ((not_lt.1 hfar).trans (sub_le_sub_right hnow last))

/-- No time after now, and no span with more than `n`. -/
theorem length_recent_le (h : Kept n gap span times) (hnow : ∀ u ∈ times, u ≤ now) :
    (recent span now times).length ≤ n := by
  have heq : recent span now times = times.filter fun u => now - span < u ∧ u ≤ now - span + span := by
    refine List.filter_congr fun u hu => ?_
    rw [decide_eq_decide, sub_add_cancel, and_iff_left (hnow u hu)]
  rw [heq]
  exact h.ending (now - span)

/-- The first of `n` times that count makes wait until it counts no more. -/
theorem first_le_iff {first : T} {rest : List T} (hsorted : times.Pairwise (· ≤ ·)) (hnow : now ≤ t)
    (hlog : recent span now times = first :: rest) (hlen : rest.length + 1 = n) :
    first + span - now ≤ t - now ↔ (recent span t times).length < n := by
  rw [sub_le_sub_iff_right, ← le_sub_iff_add_le, ← recent_recent hnow, hlog]
  have hpair : (first :: rest).Pairwise (· ≤ ·) := hlog ▸ hsorted.filter _
  constructor
  · intro hgone
    have hdrop : recent span t (first :: rest) = recent span t rest :=
      List.filter_cons_of_neg (by simpa using hgone)
    rw [hdrop, ← hlen]
    exact Nat.lt_succ_of_le (List.length_filter_le ..)
  · intro hlt
    by_contra hstays
    rw [recent, List.filter_eq_self.2, List.length_cons, hlen] at hlt
    · exact lt_irrefl n hlt
    · intro u hu
      rw [decide_eq_true_eq]
      rcases List.mem_cons.1 hu with rfl | hu
      · exact not_le.1 hstays
      · exact (not_le.1 hstays).trans_le ((List.pairwise_cons.1 hpair).1 u hu)

theorem Kept.pairwise (h : Kept n gap span times) (hpos : 0 ≤ gap) : times.Pairwise (· ≤ ·) :=
  h.spaced.imp fun hle => sub_nonneg.1 (hpos.trans hle)

/-- The wait is exact : a request goes when it is over, and not before. -/
theorem Kept.wait_nonpos_iff (h : Kept n gap span times) (hn : 0 < n) (hpos : 0 ≤ gap)
    (hgap : gap ≤ span) (hpast : ∀ u ∈ times, u ≤ now) (hnow : now ≤ t) :
    wait n gap span t times ≤ 0 ↔ now + wait n gap span now times ≤ t := by
  have hsorted := h.pairwise hpos
  rw [wait_nonpos hn hgap hsorted, ← gapWait_le hgap hsorted hnow, ← le_sub_iff_add_le', wait, logWait]
  split
  · next hle =>
    have hne : recent span now times ≠ [] := fun hnil => absurd (hnil ▸ hle) (by simp; omega)
    obtain ⟨first, rest, hlog⟩ := List.exists_cons_of_ne_nil hne
    have hlen : rest.length + 1 = n := by
      have hmost := length_recent_le h hpast
      rw [hlog, List.length_cons] at hmost hle
      omega
    rw [← first_le_iff hsorted hnow hlog hlen, hlog, List.head?_cons]
    exact max_le_iff.symm
  · next hlt =>
    refine and_iff_left ?_
    rw [← recent_recent hnow]
    exact (List.length_filter_le ..).trans_lt (not_le.1 hlt)

/-- A time that need not wait keeps the history spaced and within the limit. -/
theorem Kept.grant (h : Kept n gap span times) (hn : 0 < n) (hpos : 0 ≤ gap) (hgap : gap ≤ span)
    (hwait : wait n gap span now times ≤ 0) : Kept n gap span (times ++ [now]) := by
  obtain ⟨hspaced, hlen⟩ := (wait_nonpos hn hgap (h.pairwise hpos)).1 hwait
  -- a window with the new time in it holds of the others only times that count
  have hwindow : ∀ p : T → Prop, [DecidablePred p] → (times.filter fun u => p u).length ≤ n →
      (p now → ∀ u, p u → now - span < u) → ((times ++ [now]).filter fun u => p u).length ≤ n := by
    intro p _ hle hp
    rw [List.filter_append, List.length_append]
    by_cases hnow : p now
    · have hsub : (times.filter fun u => p u).length ≤ (recent span now times).length :=
        (List.monotone_filter_right times fun u hu => by
          simp only [decide_eq_true_eq] at hu ⊢
          exact hp hnow u hu).length_le
      rw [List.filter_cons_of_pos (by simpa using hnow), List.filter_nil, List.length_singleton]
      omega
    · rw [List.filter_cons_of_neg (by simpa using hnow), List.filter_nil, List.length_nil]
      exact hle
  refine ⟨?_, fun a => ?_, fun a => ?_⟩
  · refine List.pairwise_append.2 ⟨h.spaced, List.pairwise_singleton .., fun u hu v hv => ?_⟩
    rw [List.mem_singleton.1 hv]
    exact hspaced u hu
  · exact hwindow _ (h.starting a) fun hnow u hu => (sub_lt_iff_lt_add.2 hnow.2).trans_le hu.1
  · exact hwindow _ (h.ending a) fun hnow u hu => (sub_le_iff_le_add.2 hnow.2).trans_lt hu.1

end History

end Lynox.RateLimit
