import Mathlib.Logic.Function.Basic
import Mathlib.Order.Lattice
import Mathlib.Data.List.Basic

/-!
# Occurrences that are started under a lease

A schedule has the time of its next occurrence. Whoever holds its lease starts the occurrence, and
the end of the run is recorded by moving that time on, or by closing the schedule. A lease that is
taken over with the time not moved since it was taken is that of a run which was lost : its end is
recorded in its place.

A start is of the occurrence that is next, under a lease nobody lives by, and not of one that was
lost. So no occurrence is started twice, and one that was started and not recorded is neither past
nor ever claimed as new (`Sound`, `Step.sound`).
The lease also tells a run that goes on from one that has ended (`Held`, `Step.held`).
-/

set_option linter.unusedSectionVars false

namespace Lynox

variable {η τ : Type*} [DecidableEq η] [LinearOrder τ]

/-- What a holder does with the schedule : it runs an occurrence, has recorded its end, or records
the end of a run that was lost. -/
inductive Mode (τ : Type*)
  | idle
  | running (v : τ)
  | ran
  | recording (v : τ)
  | releasing
  deriving DecidableEq

/-- A schedule, its lease and what each holder does with it. `live` : it can fire. -/
@[ext] structure Occurrences (η τ : Type*) where
  now : τ
  next : Option τ
  live : Bool
  holder : Option η
  since : Option τ
  mode : η → Mode τ
  started : List τ
  recorded : List τ

namespace Occurrences

/-- The occurrence the lease was taken for is still the next one. -/
def Unsettled (o : Occurrences η τ) : Prop :=
  o.holder.isSome ∧ ∃ t v, o.since = some t ∧ o.next = some v ∧ v ≤ t

/-- A holder runs an occurrence or has just ended one. -/
def Runs (o : Occurrences η τ) (h : η) : Prop :=
  (∃ v, o.mode h = .running v) ∨ o.mode h = .ran

/-- The lease is taken, for `mode`. -/
def take (o : Occurrences η τ) (h : η) (mode : Mode τ) : Occurrences η τ :=
  { o with holder := some h, since := some o.now, mode := Function.update o.mode h mode }

def setMode (o : Occurrences η τ) (h : η) (mode : Mode τ) : Occurrences η τ :=
  { o with mode := Function.update o.mode h mode }

/-- The end of `v` is recorded. -/
def settle (o : Occurrences η τ) (h : η) (v : τ) (mode : Mode τ) (next : Option τ) (live : Bool) :
    Occurrences η τ :=
  { o with
    next := next, live := live, mode := Function.update o.mode h mode, recorded := v :: o.recorded }

/-- The lease is given up where it is still the holder's. -/
def giveUp (o : Occurrences η τ) (h : η) : Occurrences η τ :=
  if o.holder = some h then
    { o with holder := none, since := none, mode := Function.update o.mode h .idle }
  else o.setMode h .idle

/-- What can happen to a schedule. -/
inductive Step (o : Occurrences η τ) : Occurrences η τ → Prop
  | pass {now : τ} : o.now ≤ now → Step o { o with now := now }
  | start {h : η} {v : τ} : (∀ h', ¬ o.Runs h') → o.next = some v → o.live = true → v ≤ o.now →
      ¬ o.Unsettled → Step o { o.take h (.running v) with started := v :: o.started }
  | interrupt {h : η} {v : τ} : (∀ h', ¬ o.Runs h') → o.next = some v → o.live = true → v ≤ o.now →
      Step o (o.take h (.recording v))
  | record {h : η} {v : τ} {next : Option τ} {live : Bool} : o.mode h = .running v →
      (o.live = true → ∀ n ∈ next, o.now < n ∨ live = false) → Step o (o.settle h v .ran next live)
  | recordLost {h : η} {v : τ} {next : Option τ} {live : Bool} : o.mode h = .recording v →
      o.holder = some h → (o.live = true → ∀ n ∈ next, o.now < n ∨ live = false) →
      Step o (o.settle h v .releasing next live)
  | giveUp {h : η} : o.mode h = .ran ∨ o.mode h = .releasing → Step o (o.giveUp h)
  | leave {h : η} : Step o (o.setMode h .idle)

/-- No occurrence is started twice; one whose end is recorded is past, and one whose end is not is
the next one, under a lease taken when it was due. -/
structure Sound (o : Occurrences η τ) : Prop where
  nodup : o.started.Nodup
  past : ∀ v ∈ o.recorded, ∀ n ∈ o.next, v < n ∨ o.live = false
  lost : ∀ v ∈ o.started, v ∉ o.recorded → o.live = true ∧ o.next = some v ∧ o.Unsettled
  running : ∀ h v, o.mode h = .running v →
    o.holder = some h ∧ o.next = some v ∧ o.live = true ∧ v ≤ o.now
  ran : ∀ h, o.mode h = .ran → o.holder = some h ∧ ∀ v ∈ o.started, v ∈ o.recorded
  recording : ∀ h v, o.mode h = .recording v → o.holder = some h →
    o.next = some v ∧ o.live = true ∧ v ≤ o.now
  releasing : ∀ h, o.mode h = .releasing → o.holder = some h → ∀ v ∈ o.started, v ∈ o.recorded

variable {o o' : Occurrences η τ} {h h' : η} {v : τ} {mode : Mode τ}

theorem update_mode (m : η → Mode τ) : Function.update m h mode h' = if h' = h then mode else m h' := by
  rw [Function.update_apply]

/-- The mode of a holder other than the one that moves. -/
theorem mode_of_update {m : η → Mode τ} {mode' : Mode τ} (hne : mode' ≠ mode)
    (hm : Function.update m h mode h' = mode') : h' ≠ h ∧ m h' = mode' := by
  rw [update_mode] at hm
  split_ifs at hm with hh
  · exact absurd hm.symm hne
  · exact ⟨hh, hm⟩

theorem mode_of_update_self {m : η → Mode τ} {mode' : Mode τ}
    (hm : Function.update m h mode h = mode') : mode = mode' := by
  rw [update_mode, if_pos rfl] at hm
  exact hm

theorem mode_of_update_ne {m : η → Mode τ} {mode' : Mode τ} (hne : h' ≠ h)
    (hm : Function.update m h mode h' = mode') : m h' = mode' := by
  rw [update_mode, if_neg hne] at hm
  exact hm

theorem Sound.setIdle (s : Sound o) (h : η) : Sound (o.setMode h .idle) where
  nodup := s.nodup
  past := s.past
  lost := s.lost
  running h' v hm := s.running h' v (mode_of_update (by simp) hm).2
  ran h' hm := s.ran h' (mode_of_update (by simp) hm).2
  recording h' v hm := s.recording h' v (mode_of_update (by simp) hm).2
  releasing h' hm := s.releasing h' (mode_of_update (by simp) hm).2

/-- With no occurrence lost, everything that was started is recorded. -/
theorem Sound.settled (s : Sound o) (h : ¬ o.Unsettled) : ∀ v ∈ o.started, v ∈ o.recorded := by
  intro v hv
  by_contra hnot
  exact h (s.lost v hv hnot).2.2

/-- What a lease taken over by a holder that records leaves of the others. -/
theorem Sound.take_idle (s : Sound o) (hfree : ∀ h', ¬ o.Runs h') (hnext : o.next = some v)
    (hlive : o.live = true) (hdue : v ≤ o.now) : Sound (o.take h (.recording v)) where
  nodup := s.nodup
  past := s.past
  lost w hw hnot := by
    obtain ⟨-, hn, -⟩ := s.lost w hw hnot
    refine ⟨hlive, hn, rfl, o.now, v, rfl, hnext, hdue⟩
  running h' w hm := absurd (Or.inl ⟨w, (mode_of_update (by simp) hm).2⟩) (hfree h')
  ran h' hm := absurd (Or.inr (mode_of_update (by simp) hm).2) (hfree h')
  recording h' w hm _ := by
    by_cases hh : h' = h
    · rw [hh] at hm
      rw [← Mode.recording.inj (mode_of_update_self hm)]
      exact ⟨hnext, hlive, hdue⟩
    · rename_i hholder
      exact absurd (Option.some.inj hholder).symm hh
  releasing h' hm hholder := by
    obtain ⟨hh, -⟩ := mode_of_update (by simp) hm
    exact absurd (Option.some.inj hholder).symm hh

theorem Sound.start (s : Sound o) (hfree : ∀ h', ¬ o.Runs h') (hnext : o.next = some v)
    (hlive : o.live = true) (hdue : v ≤ o.now) (hsettled : ¬ o.Unsettled) :
    Sound { o.take h (.running v) with started := v :: o.started } := by
  have hrecorded := s.settled hsettled
  have hv : v ∉ o.recorded := by
    intro hmem
    rcases s.past v hmem v hnext with hlt | hdead
    · exact lt_irrefl v hlt
    · rw [hlive] at hdead
      exact absurd hdead (by decide)
  refine ⟨List.nodup_cons.mpr ⟨fun hmem => hv (hrecorded v hmem), s.nodup⟩, s.past, ?_, ?_, ?_, ?_, ?_⟩
  · intro w hw hnot
    rcases List.mem_cons.mp hw with rfl | hw
    · exact ⟨hlive, hnext, rfl, o.now, w, rfl, hnext, hdue⟩
    · exact absurd (hrecorded w hw) hnot
  · intro h' w hm
    by_cases hh : h' = h
    · rw [hh] at hm ⊢
      rw [← Mode.running.inj (mode_of_update_self hm)]
      exact ⟨rfl, hnext, hlive, hdue⟩
    · exact absurd (Or.inl ⟨w, mode_of_update_ne hh hm⟩) (hfree h')
  · intro h' hm
    exact absurd (Or.inr (mode_of_update (by simp) hm).2) (hfree h')
  · intro h' w hm hholder
    obtain ⟨hh, -⟩ := mode_of_update (by simp) hm
    exact absurd (Option.some.inj hholder).symm hh
  · intro h' hm hholder
    obtain ⟨hh, -⟩ := mode_of_update (by simp) hm
    exact absurd (Option.some.inj hholder).symm hh

/-- The end of the next occurrence is recorded under the lease. -/
theorem Sound.settle {next : Option τ} {live : Bool} (s : Sound o) (hholder : o.holder = some h)
    (hnext : o.next = some v) (hlive : o.live = true) (hdue : v ≤ o.now)
    (hmoves : ∀ n ∈ next, o.now < n ∨ live = false) (hmode : mode = .ran ∨ mode = .releasing) :
    Sound (o.settle h v mode next live) := by
  have hother : ∀ {h'}, h' ≠ h → o.holder ≠ some h' := fun hne heq =>
    hne (Option.some.inj (heq.symm.trans hholder))
  have hrecorded : ∀ w ∈ o.started, w ∈ v :: o.recorded := by
    intro w hw
    by_cases hmem : w ∈ o.recorded
    · exact List.mem_cons_of_mem v hmem
    · obtain ⟨-, hn, -⟩ := s.lost w hw hmem
      rw [hnext] at hn
      rw [Option.some.inj hn]
      exact List.mem_cons_self
  refine ⟨s.nodup, ?_, ?_, ?_, ?_, ?_, ?_⟩
  · intro w hw n hn
    rcases hmoves n hn with hlt | hdead
    · left
      rcases List.mem_cons.mp hw with rfl | hw
      · exact lt_of_le_of_lt hdue hlt
      · rcases s.past w hw v hnext with hwv | hdead
        · exact lt_trans hwv (lt_of_le_of_lt hdue hlt)
        · rw [hlive] at hdead
          exact absurd hdead (by decide)
    · exact Or.inr hdead
  · intro w hw hnot
    exact absurd (hrecorded w hw) hnot
  · intro h' w hm
    obtain ⟨hh, hm⟩ := mode_of_update (by rcases hmode with rfl | rfl <;> simp) hm
    exact absurd (s.running h' w hm).1 (hother hh)
  · intro h' hm
    by_cases hh : h' = h
    · rw [hh]
      exact ⟨hholder, hrecorded⟩
    · exact absurd (s.ran h' (mode_of_update_ne hh hm)).1 (hother hh)
  · intro h' w hm hheld
    obtain ⟨hh, -⟩ := mode_of_update (by rcases hmode with rfl | rfl <;> simp) hm
    exact absurd hheld (hother hh)
  · intro h' hm hheld
    exact hrecorded

/-- Every step keeps the schedule sound. -/
theorem Step.sound (step : Step o o') (s : Sound o) : Sound o' := by
  cases step with
  | pass hle =>
    refine ⟨s.nodup, s.past, s.lost, fun h v hm => ?_, s.ran, fun h v hm hh => ?_, s.releasing⟩
    · obtain ⟨hholder, hnext, hlive, hdue⟩ := s.running h v hm
      exact ⟨hholder, hnext, hlive, le_trans hdue hle⟩
    · obtain ⟨hnext, hlive, hdue⟩ := s.recording h v hm hh
      exact ⟨hnext, hlive, le_trans hdue hle⟩
  | start hfree hnext hlive hdue hsettled => exact s.start hfree hnext hlive hdue hsettled
  | interrupt hfree hnext hlive hdue => exact s.take_idle hfree hnext hlive hdue
  | record hm hmoves =>
    obtain ⟨hholder, hnext, hlive, hdue⟩ := s.running _ _ hm
    exact s.settle hholder hnext hlive hdue (hmoves hlive) (Or.inl rfl)
  | recordLost hm hholder hmoves =>
    obtain ⟨hnext, hlive, hdue⟩ := s.recording _ _ hm hholder
    exact s.settle hholder hnext hlive hdue (hmoves hlive) (Or.inr rfl)
  | @giveUp h hm =>
    unfold Occurrences.giveUp
    split_ifs with hheld
    · have hrecorded : ∀ v ∈ o.started, v ∈ o.recorded := by
        rcases hm with hm | hm
        · exact (s.ran h hm).2
        · exact s.releasing h hm hheld
      have hother : ∀ {h'}, h' ≠ h → o.holder ≠ some h' := fun hne heq =>
        hne (Option.some.inj (heq.symm.trans hheld))
      refine ⟨s.nodup, s.past, fun v hv hnot => absurd (hrecorded v hv) hnot, fun h' v hm' => ?_,
        fun h' hm' => ?_, fun h' v _ hh => absurd hh (by simp), fun h' _ hh => absurd hh (by simp)⟩
      · obtain ⟨hh, hm'⟩ := mode_of_update (by simp) hm'
        exact absurd (s.running h' v hm').1 (hother hh)
      · obtain ⟨hh, hm'⟩ := mode_of_update (by simp) hm'
        exact absurd (s.ran h' hm').1 (hother hh)
    · exact s.setIdle h
  | leave => exact s.setIdle _

/-! ## What the lease says of its holder -/

/-- The lease was taken in the past. It is unsettled while its holder runs an occurrence or is to
record one that was lost, and no more once its holder has recorded it. -/
structure Held (o : Occurrences η τ) : Prop where
  since : ∀ t ∈ o.since, t ≤ o.now
  unsettled : ∀ h v, o.mode h = .running v ∨ o.mode h = .recording v ∧ o.holder = some h → o.Unsettled
  settled : ∀ h, o.mode h = .ran ∨ o.mode h = .releasing ∧ o.holder = some h → o.live = true →
    ¬ o.Unsettled

theorem Held.setIdle (l : Held o) (h : η) : Held (o.setMode h .idle) where
  since := l.since
  unsettled h' v hm := by
    rcases hm with hm | ⟨hm, hholder⟩
    · exact l.unsettled h' v (Or.inl (mode_of_update (by simp) hm).2)
    · exact l.unsettled h' v (Or.inr ⟨(mode_of_update (by simp) hm).2, hholder⟩)
  settled h' hm := by
    rcases hm with hm | ⟨hm, hholder⟩
    · exact l.settled h' (Or.inl (mode_of_update (by simp) hm).2)
    · exact l.settled h' (Or.inr ⟨(mode_of_update (by simp) hm).2, hholder⟩)

theorem held_take (hfree : ∀ h', ¬ o.Runs h') (hnext : o.next = some v) (hdue : v ≤ o.now)
    (hmode : mode = .running v ∨ mode = .recording v) : Held (o.take h mode) where
  since t ht := (Option.some.inj ht).ge
  unsettled _ _ _ := ⟨rfl, o.now, v, rfl, hnext, hdue⟩
  settled h' hm := by
    by_cases hh : h' = h
    · rw [hh] at hm
      rcases hm with hm | ⟨hm, -⟩
      all_goals
        rw [mode_of_update_self hm] at hmode
        simp at hmode
    · rcases hm with hm | ⟨-, hholder⟩
      · exact absurd (Or.inr (mode_of_update_ne hh hm)) (hfree h')
      · exact absurd (Option.some.inj hholder).symm hh

theorem Held.settle {next : Option τ} {live : Bool} (l : Held o) (s : Sound o)
    (hholder : o.holder = some h) (hmoves : ∀ n ∈ next, o.now < n ∨ live = false)
    (hmode : mode = .ran ∨ mode = .releasing) : Held (o.settle h v mode next live) where
  since := l.since
  unsettled h' w hm := by
    have hheld : o.holder = some h' ∧ h' ≠ h := by
      rcases hm with hm | ⟨hm, hheld⟩
      · obtain ⟨hh, hm⟩ := mode_of_update (by rcases hmode with rfl | rfl <;> simp) hm
        exact ⟨(s.running h' w hm).1, hh⟩
      · exact ⟨hheld, (mode_of_update (by rcases hmode with rfl | rfl <;> simp) hm).1⟩
    exact absurd (Option.some.inj (hheld.1.symm.trans hholder)) hheld.2
  settled h' _ hlive := by
    rintro ⟨-, t, n, ht, hn, hle⟩
    rcases hmoves n hn with hlt | hdead
    · exact absurd (lt_of_le_of_lt (hle.trans (l.since t ht)) hlt) (lt_irrefl n)
    · exact absurd (hdead.symm.trans hlive) (by decide)

/-- Every step keeps what the lease says. -/
theorem Step.held (step : Step o o') (s : Sound o) (l : Held o) : Held o' := by
  cases step with
  | pass hle => exact ⟨fun t ht => (l.since t ht).trans hle, l.unsettled, l.settled⟩
  | @start h v hfree hnext hlive hdue hsettled =>
    have htaken := @held_take _ _ _ _ o h v (.running v) hfree hnext hdue (Or.inl rfl)
    exact ⟨htaken.since, htaken.unsettled, htaken.settled⟩
  | interrupt hfree hnext hlive hdue => exact held_take hfree hnext hdue (Or.inr rfl)
  | record hm hmoves =>
    obtain ⟨hholder, -, hlive, -⟩ := s.running _ _ hm
    exact l.settle s hholder (hmoves hlive) (Or.inl rfl)
  | recordLost hm hholder hmoves =>
    obtain ⟨-, hlive, -⟩ := s.recording _ _ hm hholder
    exact l.settle s hholder (hmoves hlive) (Or.inr rfl)
  | @giveUp h hm =>
    unfold Occurrences.giveUp
    split_ifs with hheld
    · refine ⟨fun t ht => absurd ht (by simp), fun h' w hm' => ?_, fun _ _ _ hu => absurd hu.1 (by simp)⟩
      rcases hm' with hm' | ⟨-, hholder⟩
      · obtain ⟨hh, hm'⟩ := mode_of_update (by simp) hm'
        exact absurd (Option.some.inj ((s.running h' w hm').1.symm.trans hheld)) hh
      · cases hholder
    · exact l.setIdle h
  | leave => exact l.setIdle _

end Occurrences

end Lynox
