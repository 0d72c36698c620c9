import Lynox.Data.Assoc
import Lynox.Data.RateLimit
import Lynox.Process.Run
import Lynox.Text.Utf16
import Mathlib.Algebra.Order.Ring.Rat
import Mathlib.Data.Finset.Order
import Mathlib.Tactic.NormNum

/-!
# The budget of reads per host

`BulkHostBudget` keeps, for each host, the times of the requests it granted in the last hour. The history
of all the grants answers as the trimmed log does, as long as time does not go back (`Follows.take_eq`).

The budget keeps both its limits over every run, a refused request changes no later answer and the wait is
exact, if and only if the interval is no longer than the hour the log goes back (`exactBudget_iff`) : a longer
one is forgotten with the log.
-/

namespace Lynox.Bulk

open Text

/-- An hour, in milliseconds. -/
def hourMs : ℚ := 3600000

/-- The budget : at most `perHour` requests in any hour, and one every `minIntervalMs`. -/
structure BulkHostBudget where
  perHour : ℕ
  minIntervalMs : ℚ
  sent : List (JsString × List ℚ) := []

/-- A request for a host, at a time. -/
structure HostRequest where
  host : JsString
  now : ℚ

namespace BulkHostBudget

/-- 0 where the request is granted, otherwise how many milliseconds until one would be. -/
def take (b : BulkHostBudget) (r : HostRequest) : ℚ × BulkHostBudget :=
  let log := ((Assoc.get b.sent r.host).getD []).filter fun t => r.now - hourMs < t
  let interval := match log.getLast? with
    | some last => if r.now - last < b.minIntervalMs then b.minIntervalMs - (r.now - last) else 0
    | none => 0
  let wait :=
    if b.perHour ≤ log.length then
      match log.head? with
      | some first => max interval (first + hourMs - r.now)
      | none => interval
    else interval
  if 0 < wait then (wait, { b with sent := Assoc.set b.sent r.host log })
  else (0, { b with sent := Assoc.set b.sent r.host (log ++ [r.now]) })

/-- The log of a host. -/
def log (b : BulkHostBudget) (host : JsString) : List ℚ :=
  (Assoc.get b.sent host).getD []

/-- The budget after the requests. -/
abbrev after (b : BulkHostBudget) (requests : List HostRequest) : BulkHostBudget :=
  Run.after (fun b r => (b.take r).2) b requests

/-- The answers to the requests. -/
def answers : BulkHostBudget → List HostRequest → List ℚ
  | _, [] => []
  | b, r :: requests => (b.take r).1 :: answers (b.take r).2 requests

/-- The times granted to a host. -/
def grants (host : JsString) : BulkHostBudget → List HostRequest → List ℚ
  | _, [] => []
  | b, r :: requests =>
    (if r.host = host ∧ (b.take r).1 = 0 then [r.now] else []) ++ grants host (b.take r).2 requests

end BulkHostBudget

/-- What a budget is for, over every run of requests in the order of time. -/
structure ExactBudget (perHour : ℕ) (minIntervalMs : ℚ) : Prop where
  /-- Two grants of a host are an interval apart. -/
  apart : ∀ requests : List HostRequest, (requests.map HostRequest.now).Pairwise (· ≤ ·) → ∀ host,
    (BulkHostBudget.grants host { perHour, minIntervalMs } requests).Pairwise
      fun t u => minIntervalMs ≤ u - t
  /-- No hour holds more grants of a host, with its start or with its end. -/
  within : ∀ requests : List HostRequest, (requests.map HostRequest.now).Pairwise (· ≤ ·) → ∀ host start,
    let granted := BulkHostBudget.grants host { perHour, minIntervalMs } requests
    (granted.filter fun t => start ≤ t ∧ t < start + hourMs).length ≤ perHour ∧
      (granted.filter fun t => start < t ∧ t ≤ start + hourMs).length ≤ perHour
  /-- A refused request changes no answer behind it. -/
  refused : ∀ (before : List HostRequest) (r : HostRequest) (behind : List HostRequest),
    ((before ++ r :: behind).map HostRequest.now).Pairwise (· ≤ ·) →
    let b := ({ perHour, minIntervalMs } : BulkHostBudget).after before
    (b.take r).1 ≠ 0 → (b.take r).2.answers behind = b.answers behind
  /-- A host that is granted nothing meanwhile is granted the request that comes when the wait is over,
  and none that comes before. -/
  wait : ∀ (before : List HostRequest) (r : HostRequest) (between : List HostRequest) (t : ℚ),
    ((before ++ r :: between ++ [HostRequest.mk r.host t]).map HostRequest.now).Pairwise (· ≤ ·) →
    let b := ({ perHour, minIntervalMs } : BulkHostBudget).after before
    let w := (b.take r).1
    w ≠ 0 → BulkHostBudget.grants r.host (b.take r).2 between = [] →
    (t = r.now + w → (((b.take r).2.after between).take ⟨r.host, t⟩).1 = 0) ∧
      (t < r.now + w → (((b.take r).2.after between).take ⟨r.host, t⟩).1 ≠ 0)

/-! ## The log and the history -/

namespace BulkHostBudget

section Take

variable (b : BulkHostBudget) (r : HostRequest)

/-- The wait by the log. -/
def logWait : ℚ :=
  RateLimit.logWait b.perHour b.minIntervalMs hourMs r.now (RateLimit.recent hourMs r.now (b.log r.host))

theorem take_eq_ite : b.take r =
    if 0 < b.logWait r then
      (b.logWait r, { b with
        sent := Assoc.set b.sent r.host (RateLimit.recent hourMs r.now (b.log r.host)) })
    else
      (0, { b with
        sent := Assoc.set b.sent r.host (RateLimit.recent hourMs r.now (b.log r.host) ++ [r.now]) }) := by
  unfold take logWait RateLimit.logWait RateLimit.gapWait RateLimit.recent log
  simp only
  generalize List.filter _ _ = times
  cases times.getLast? with
  | none => cases times.head? <;> rfl
  | some last => cases times.head? <;> rfl

theorem take_fst : (b.take r).1 = b.logWait r := by
  rw [take_eq_ite]
  split
  · rfl
  · next h => exact le_antisymm RateLimit.logWait_nonneg (not_lt.1 h)

theorem log_take (host : JsString) : (b.take r).2.log host =
    if host = r.host then
      RateLimit.recent hourMs r.now (b.log r.host) ++ if (b.take r).1 = 0 then [r.now] else []
    else b.log host := by
  rw [take_fst, take_eq_ite]
  split
  · next h =>
    rw [if_neg h.ne', List.append_nil, log, Assoc.get_set]
    split <;> rfl
  · next h =>
    rw [if_pos (le_antisymm (not_lt.1 h) RateLimit.logWait_nonneg), log, Assoc.get_set]
    split <;> rfl

theorem take_perHour : (b.take r).2.perHour = b.perHour := by
  rw [take_eq_ite]
  split <;> rfl

theorem take_minIntervalMs : (b.take r).2.minIntervalMs = b.minIntervalMs := by
  rw [take_eq_ite]
  split <;> rfl

end Take

/-- The log of each host answers as its history from a time on, and the history is within the limits. -/
structure Follows (perHour : ℕ) (minIntervalMs : ℚ) (b : BulkHostBudget) (history : JsString → List ℚ)
    (now : ℚ) : Prop where
  sameLimit : b.perHour = perHour
  sameInterval : b.minIntervalMs = minIntervalMs
  log : ∀ host t, now ≤ t →
    RateLimit.recent hourMs t (b.log host) = RateLimit.recent hourMs t (history host)
  kept : ∀ host, RateLimit.Kept perHour minIntervalMs hourMs (history host)
  past : ∀ host, ∀ t ∈ history host, t ≤ now

/-- The history with the request, where it need not wait. -/
def granted (perHour : ℕ) (minIntervalMs : ℚ) (history : JsString → List ℚ) (r : HostRequest)
    (host : JsString) : List ℚ :=
  history host ++
    if host = r.host ∧ RateLimit.wait perHour minIntervalMs hourMs r.now (history r.host) = 0 then [r.now]
    else []

section Follows

variable {perHour : ℕ} {minIntervalMs now t : ℚ} {b b' : BulkHostBudget} {r : HostRequest}
  {requests : List HostRequest} {history : JsString → List ℚ}

theorem Follows.mono (h : Follows perHour minIntervalMs b history now) (hle : now ≤ t) :
    Follows perHour minIntervalMs b history t :=
  ⟨h.sameLimit, h.sameInterval, fun host u hu => h.log host u (hle.trans hu), h.kept,
    fun host u hu => (h.past host u hu).trans hle⟩

theorem Follows.take_eq (h : Follows perHour minIntervalMs b history now) (hnow : now ≤ r.now) :
    (b.take r).1 = RateLimit.wait perHour minIntervalMs hourMs r.now (history r.host) := by
  rw [take_fst, logWait, h.log r.host r.now hnow, h.sameLimit, h.sameInterval]
  rfl

/-- A request moves the history as it moves the log. -/
theorem Follows.take (h : Follows perHour minIntervalMs b history now) (hhour : 0 < perHour)
    (hpos : 0 ≤ minIntervalMs) (hshort : minIntervalMs ≤ hourMs) (hnow : now ≤ r.now) :
    Follows perHour minIntervalMs (b.take r).2 (granted perHour minIntervalMs history r) r.now := by
  have heq := h.take_eq hnow
  refine ⟨(take_perHour b r).trans h.sameLimit, (take_minIntervalMs b r).trans h.sameInterval,
    fun host t ht => ?_, fun host => ?_, fun host u hu => ?_⟩
  · rw [log_take, granted, heq]
    by_cases hhost : host = r.host
    · subst hhost
      rw [if_pos rfl, RateLimit.recent_append, RateLimit.recent_append, RateLimit.recent_recent ht,
        h.log _ t (hnow.trans ht)]
      simp only [true_and]
    · rw [if_neg hhost, if_neg fun hand => hhost hand.1, List.append_nil]
      exact h.log host t (hnow.trans ht)
  · unfold granted
    split
    · next hgo =>
      rw [hgo.1]
      exact (h.kept r.host).grant hhour hpos hshort hgo.2.le
    · rw [List.append_nil]
      exact h.kept host
  · rcases List.mem_append.1 hu with hu | hu
    · exact (h.past host u hu).trans hnow
    · split at hu
      · exact (List.mem_singleton.1 hu).le
      · exact absurd hu List.not_mem_nil

/-- A run moves the history by what it grants. -/
theorem Follows.run (hhour : 0 < perHour) (hpos : 0 ≤ minIntervalMs) (hshort : minIntervalMs ≤ hourMs) :
    ∀ {requests : List HostRequest} {b : BulkHostBudget} {history : JsString → List ℚ} {now t : ℚ},
      Follows perHour minIntervalMs b history now →
      (now :: requests.map HostRequest.now).Pairwise (· ≤ ·) → (∀ r ∈ requests, r.now ≤ t) → now ≤ t →
      Follows perHour minIntervalMs (b.after requests)
        (fun host => history host ++ grants host b requests) t
  | [], b, history, now, t, h, _, _, hle => by
    simp only [grants, List.append_nil]
    exact h.mono hle
  | r :: requests, b, history, now, t, h, hsorted, hall, hle => by
    obtain ⟨hfirst, hrest⟩ := List.pairwise_cons.1 hsorted
    have hnow := hfirst r.now List.mem_cons_self
    have hrun := Follows.run hhour hpos hshort (h.take hhour hpos hshort hnow) hrest
      (fun r' hr' => hall r' (List.mem_cons_of_mem r hr')) (hall r List.mem_cons_self)
    simp only [granted, ← h.take_eq hnow, List.append_assoc] at hrun
    simp only [grants, eq_comm (a := r.host)]
    exact hrun

/-- Two budgets that follow one history give the same answers. -/
theorem Follows.answers_eq (hhour : 0 < perHour) (hpos : 0 ≤ minIntervalMs)
    (hshort : minIntervalMs ≤ hourMs) : ∀ {requests : List HostRequest} {b b' : BulkHostBudget}
      {history : JsString → List ℚ} {now : ℚ}, Follows perHour minIntervalMs b history now →
      Follows perHour minIntervalMs b' history now →
      (now :: requests.map HostRequest.now).Pairwise (· ≤ ·) → b.answers requests = b'.answers requests
  | [], _, _, _, _, _, _, _ => rfl
  | r :: requests, b, b', history, now, h, h', hsorted => by
    obtain ⟨hfirst, hrest⟩ := List.pairwise_cons.1 hsorted
    have hnow := hfirst r.now List.mem_cons_self
    rw [answers, answers, h.take_eq hnow, h'.take_eq hnow,
      Follows.answers_eq hhour hpos hshort (h.take hhour hpos hshort hnow)
        (h'.take hhour hpos hshort hnow) hrest]

/-- Nothing was granted yet. -/
theorem follows_new (perHour : ℕ) (minIntervalMs now : ℚ) :
    Follows perHour minIntervalMs { perHour, minIntervalMs } (fun _ => []) now :=
  ⟨rfl, rfl, fun _ _ _ => rfl, fun _ => ⟨.nil, fun _ => Nat.zero_le _, fun _ => Nat.zero_le _⟩,
    fun _ _ h => absurd h List.not_mem_nil⟩

/-- A run from nothing. -/
theorem follows_after (hhour : 0 < perHour) (hpos : 0 ≤ minIntervalMs) (hshort : minIntervalMs ≤ hourMs)
    (hsorted : (requests.map HostRequest.now).Pairwise (· ≤ ·)) (hall : ∀ r ∈ requests, r.now ≤ t) :
    Follows perHour minIntervalMs (({ perHour, minIntervalMs } : BulkHostBudget).after requests)
      (fun host => grants host { perHour, minIntervalMs } requests) t := by
  cases requests with
  | nil => exact follows_new perHour minIntervalMs t
  | cons r requests =>
    have hcons : (r.now :: (r :: requests).map HostRequest.now).Pairwise (· ≤ ·) := by
      refine List.pairwise_cons.2 ⟨fun u hu => ?_, hsorted⟩
      rcases List.mem_cons.1 hu with rfl | hu
      · exact le_rfl
      · exact (List.pairwise_cons.1 hsorted).1 u hu
    exact (follows_new perHour minIntervalMs r.now).run hhour hpos hshort hcons hall
      (hall r List.mem_cons_self)

/-- The history of a run is within the limits. -/
theorem kept_grants (hhour : 0 < perHour) (hpos : 0 ≤ minIntervalMs) (hshort : minIntervalMs ≤ hourMs)
    (hsorted : (requests.map HostRequest.now).Pairwise (· ≤ ·)) (host : JsString) :
    RateLimit.Kept perHour minIntervalMs hourMs (grants host { perHour, minIntervalMs } requests) := by
  obtain ⟨t, ht⟩ := (requests.map HostRequest.now).toFinset.exists_le
  refine (follows_after (t := t) hhour hpos hshort hsorted fun r hr => ?_).kept host
  exact ht r.now (List.mem_toFinset.2 (List.mem_map_of_mem hr))

/-- A refused request leaves the history as it is. -/
theorem Follows.refused (h : Follows perHour minIntervalMs b history now) (hhour : 0 < perHour)
    (hpos : 0 ≤ minIntervalMs) (hshort : minIntervalMs ≤ hourMs) (hnow : now ≤ r.now)
    (hwait : (b.take r).1 ≠ 0) : Follows perHour minIntervalMs (b.take r).2 history r.now := by
  have heq : granted perHour minIntervalMs history r = history := by
    funext host
    rw [granted, ← h.take_eq hnow, if_neg fun hand => hwait hand.2, List.append_nil]
  exact heq ▸ h.take hhour hpos hshort hnow

end Follows

end BulkHostBudget

open BulkHostBudget in
theorem exactBudget {perHour : ℕ} {minIntervalMs : ℚ} (hhour : 0 < perHour) (hpos : 0 < minIntervalMs)
    (hshort : minIntervalMs ≤ hourMs) : ExactBudget perHour minIntervalMs := by
  refine ⟨fun requests hsorted host => (kept_grants hhour hpos.le hshort hsorted host).spaced,
    fun requests hsorted host start => ?_, fun before r behind hsorted hwait => ?_,
    fun before r between t hsorted hwait hnone => ?_⟩
  · have hkept := kept_grants hhour hpos.le hshort hsorted host
    exact ⟨hkept.starting start, hkept.ending start⟩
  · rw [List.map_append] at hsorted
    obtain ⟨hbefore, hbehind, hle⟩ := List.pairwise_append.1 hsorted
    have hfollows := follows_after (t := r.now) hhour hpos.le hshort hbefore fun r' hr' =>
      hle r'.now (List.mem_map_of_mem hr') r.now List.mem_cons_self
    exact (hfollows.refused hhour hpos.le hshort le_rfl hwait).answers_eq hhour hpos.le hshort
      (hfollows.mono le_rfl) hbehind
  · rw [List.append_assoc, List.map_append] at hsorted
    obtain ⟨hbefore, hbehind, hle⟩ := List.pairwise_append.1 hsorted
    have hfollows := follows_after (t := r.now) hhour hpos.le hshort hbefore fun r' hr' =>
      hle r'.now (List.mem_map_of_mem hr') r.now List.mem_cons_self
    rw [List.cons_append, List.map_cons, List.map_append, List.map_singleton, ← List.cons_append]
      at hbehind
    obtain ⟨hbetween, -, hlast⟩ := List.pairwise_append.1 hbehind
    have hlast' : ∀ u ∈ r.now :: between.map HostRequest.now, u ≤ t := fun u hu =>
      hlast u hu t (List.mem_singleton.2 rfl)
    have hthen := (hfollows.refused hhour hpos.le hshort le_rfl hwait).run hhour hpos.le hshort hbetween
      (fun r' hr' => hlast' r'.now (List.mem_cons_of_mem _ (List.mem_map_of_mem hr')))
      (hlast' r.now List.mem_cons_self)
    have hfirst := hfollows.take_eq (r := r) le_rfl
    have hagain := hthen.take_eq (r := ⟨r.host, t⟩) le_rfl
    simp only [hnone, List.append_nil] at hagain
    have hiff := (hfollows.kept r.host).wait_nonpos_iff hhour hpos.le hshort (hfollows.past r.host)
      (hlast' r.now List.mem_cons_self)
    rw [← hfirst, ← hagain] at hiff
    refine ⟨fun hthen' => ?_, fun hbefore' hzero => ?_⟩
    · refine le_antisymm (hiff.2 hthen'.ge) ?_
      rw [take_fst]
      exact RateLimit.logWait_nonneg
    · exact absurd (hiff.1 hzero.le) (not_le.2 hbefore')

/-- Two requests an hour apart are both granted, whatever the interval. -/
theorem not_exactBudget {perHour : ℕ} {minIntervalMs : ℚ} (hhour : 0 < perHour)
    (hlong : hourMs < minIntervalMs) : ¬ ExactBudget perHour minIntervalMs := by
  intro h
  have hapart := h.apart [⟨[], 0⟩, ⟨[], hourMs⟩] (by norm_num [hourMs]) []
  set b : BulkHostBudget := { perHour, minIntervalMs }
  have hfirst : (b.take ⟨[], 0⟩).1 = 0 := by
    rw [BulkHostBudget.take_fst, BulkHostBudget.logWait]
    exact if_neg (not_le.2 hhour)
  have hlog : (b.take ⟨[], 0⟩).2.log [] = [0] := by
    rw [BulkHostBudget.log_take, if_pos rfl, if_pos hfirst]
    rfl
  have hsecond : ((b.take ⟨[], 0⟩).2.take ⟨[], hourMs⟩).1 = 0 := by
    have hgone : RateLimit.recent hourMs hourMs [0] = [] := by simp [RateLimit.recent]
    rw [BulkHostBudget.take_fst, BulkHostBudget.logWait, BulkHostBudget.take_perHour, hlog, hgone]
    exact if_neg (not_le.2 hhour)
  simp only [BulkHostBudget.grants, hfirst, hsecond, and_self, if_true, List.append_nil, List.cons_append,
    List.nil_append, List.pairwise_cons, List.mem_singleton, forall_eq] at hapart
  exact absurd hapart.1 (by simpa using hlong)

/-- The budget is an exact sliding window exactly where the interval is within the hour of the log. -/
theorem exactBudget_iff {perHour : ℕ} {minIntervalMs : ℚ} (hhour : 0 < perHour) (hpos : 0 < minIntervalMs) :
    ExactBudget perHour minIntervalMs ↔ minIntervalMs ≤ hourMs :=
  ⟨fun h => not_lt.1 fun hlong => not_exactBudget hhour hlong h, exactBudget hhour hpos⟩

/-- The budget of the process. -/
theorem exactBudget_default : 0 < 5000 ∧ (0 : ℚ) < 200 ∧ (ExactBudget 5000 200 ↔ (200 : ℚ) ≤ hourMs) :=
  ⟨by decide, by norm_num, exactBudget_iff (by decide) (by norm_num)⟩

/-- An interval of two hours is forgotten after one. -/
theorem not_exactBudget_two_hours : ¬ ExactBudget 5 7200000 :=
  not_exactBudget (by decide) (by norm_num [hourMs])

end Lynox.Bulk
