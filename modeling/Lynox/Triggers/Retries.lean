import Lynox.Triggers.StartedOnce

/-!
# Retries of a one-shot trigger

A one-shot trigger is armed once, with a number of retries. Every end of a run that is not a success
raises its count and gives it a next run, until the count has reached that number; then it is failed,
and after its first success it is completed. So the ticks start it until it succeeds, or once and as
often again as it has retries (`retries_are_exact`).

It takes that every run is recorded once. `executeBackup` records a backup that failed and then throws,
and the catch around the run records it again : the one run takes two retries
(`a_failed_backup_takes_two`).
-/

namespace Lynox.Triggers

/-! ## Runs that are recorded -/

/-- What happens to the triggers : an event of the ticks, or the executor of a run records its end and
then throws, as `executeBackup` does, with the run still to be recorded by the catch around it. -/
inductive RunEvent
  | tick (e : TickEvent)
  | recordAndThrow (holder id result : String) (status : RunStatus) (noRetry : Bool)

/-- What a run that ends with the event is recorded as. -/
def RunEvent.status : RunEvent → Option RunStatus
  | .tick (.record _ _ _ status _) => some status
  | .tick (.recordInterrupted _ _) => some .interrupted
  | .tick _ => none
  | .recordAndThrow _ _ _ status _ => some status

namespace World

/-- The run is recorded and goes on, to throw. -/
def recordAndThrow (c : Calendar) (w : World) (holder id result : String) (status : RunStatus)
    (noRetry : Bool) : World :=
  (w.record c holder id result status noRetry).setTask holder id ((w.engines holder).tasks id)

def happen (c : Calendar) (w : World) : RunEvent → World
  | .tick e => w.step c e
  | .recordAndThrow holder id result status noRetry => w.recordAndThrow c holder id result status noRetry

/-- How many runs of a trigger were started. -/
def starts (w : World) (id : String) : ℕ :=
  w.started.countP (·.1 = id)

/-- How many ends of runs of a trigger were recorded. -/
def records (w : World) (id : String) : ℕ :=
  w.recorded.countP (·.1 = id)

end World

/-- The processes, and what the runs of one trigger ended as, the last one first. -/
structure Watched where
  world : World
  ends : List RunStatus

/-- The ends after an event that led from one world to another. -/
def endsAfter (id : String) (w w' : World) (status : Option RunStatus) (ends : List RunStatus) :
    List RunStatus :=
  if w'.records id = w.records id then ends else status.toList ++ ends

namespace Watched

def initial (store : Store) (now : String) : Watched :=
  ⟨World.initial store now, []⟩

def step (c : Calendar) (id : String) (w : Watched) (e : RunEvent) : Watched :=
  ⟨w.world.happen c e, endsAfter id w.world (w.world.happen c e) e.status w.ends⟩

end Watched

/-! ## What is promised, and when -/

/-- A trigger with neither a cron expression nor a watch, and its retries. -/
structure OneShot (retries : ℕ) (row : Trigger) : Prop where
  cron : orNull (row.condition.scheduleCron.getD "") = none
  watch : orNull (row.condition.watchConfig.getD "") = none
  retries : row.maxRetries.getD 0 = retries

/-- A trigger that was armed and has not run yet : no webhook, and of no bulk effect. -/
structure JustArmed (planPauseOn : Bool) (row : Trigger) : Prop where
  source : row.source ≠ .webhook
  effect : resumesAfterLoss row.effect = false
  armed : armed planPauseOn row = true
  count : row.retryCount = 0
  lease : row.leaseHolder = none ∧ row.leaseSince = none

/-- Neither the owner's stop nor a start by hand ends a run of the trigger. -/
def Untouched (id : String) : TickEvent → Prop
  | .record _ id' _ status noRetry =>
    id' = id → status ≠ .stopped ∧ status ≠ .halted ∧ noRetry = false
  | _ => True

/-- No lease of a live run lapses, a claim finds the trigger as the tick listed it, and nobody stops
the trigger or starts it by hand. -/
def Undisturbed (c : Calendar) (id : String) (w : Watched) : RunEvent → Prop
  | .tick e => World.Fair id w.world e ∧ World.Kept c id w.world e ∧ Untouched id e
  | .recordAndThrow _ _ _ _ _ => True

/-- No run of the trigger throws after its executor has recorded its end. -/
def EndsOnce (id : String) : RunEvent → Prop
  | .tick _ => True
  | .recordAndThrow _ id' _ _ _ => id' ≠ id

/-- The trigger is started until its first success, and otherwise once and as often again as it has
retries : a run has one end, recorded before the next one starts, and an end raises the count by at
most one. While it has runs to come it is due as soon as its time has come and its lease is free, and
after its last one it is never due. -/
structure RetriesExact (id : String) (retries : ℕ) (w : Watched) : Prop where
  once : w.ends.length ≤ w.world.starts id ∧ w.world.starts id ≤ w.ends.length + 1
  most : w.world.starts id ≤ retries + 1
  first : RunStatus.success ∉ w.ends.tail
  raised : (w.world.row id).map Trigger.retryCount = some (min (w.ends.countP (· ≠ .success)) retries)
  due : RunStatus.success ∉ w.ends → w.ends.length ≤ retries →
    ∃ row v, row.id = id ∧ ∀ now, v ≤ now → row.leaseUntil.all (· ≤ now) = true →
      row ∈ getDue w.world.store now
  exact : (∀ now, ∀ t ∈ getDue w.world.store now, t.id ≠ id) → RunStatus.success ∉ w.ends →
    w.world.starts id = retries + 1
  last : RunStatus.success ∈ w.ends ∨ w.ends.length = retries + 1 →
    w.world.starts id = w.ends.length ∧ ∀ now, ∀ t ∈ getDue w.world.store now, t.id ≠ id

/-! ## The stages of a trigger -/

/-- Where a trigger stands after its runs ended so : it has runs to come, and one that was started and
not recorded is the one its lease was taken for; its retries are used up; or it has succeeded. -/
inductive Stage (planPauseOn : Bool) (retries : ℕ) (row : Trigger) (starts : ℕ)
    (ends : List RunStatus) : Prop
  | going : RunStatus.success ∉ ends → ends.length ≤ retries → armed planPauseOn row = true →
      row.retryCount = ends.length → starts = ends.length + (lostRun row).toNat →
      Stage planPauseOn retries row starts ends
  | failed : RunStatus.success ∉ ends → ends.length = retries + 1 → row.nextRunAt = none →
      row.retryCount = retries → starts = ends.length → Stage planPauseOn retries row starts ends
  | completed {fails : List RunStatus} : ends = .success :: fails → RunStatus.success ∉ fails →
      fails.length ≤ retries → row.status = .completed → row.retryCount = fails.length →
      starts = ends.length → Stage planPauseOn retries row starts ends

section Stages

variable {on : Bool} {r n n' : ℕ} {row row' : Trigger} {ends : List RunStatus}

theorem not_armed_of_next (h : row.nextRunAt = none) : armed on row = false := by
  simp [armed, h]

theorem not_armed_of_completed (h : row.status = .completed) : armed on row = false := by
  by_contra harmed
  have hlive := World.canFire_of_armed (Bool.not_eq_false _ ▸ harmed)
  simp [canFire, h] at hlive

/-- A change of the lease : of a trigger that is armed, it goes with a start or with neither. -/
theorem Stage.lease (h : Stage on r row n ends) {holder until' since : Option String}
    (hrow : row' = { row with leaseHolder := holder, leaseUntil := until', leaseSince := since })
    (hgoing : armed on row = true → n' + (lostRun row).toNat = n + (lostRun row').toNat)
    (hover : armed on row = false → n' = n) : Stage on r row' n' ends := by
  subst hrow
  cases h with
  | going hfail hle harmed hcount hstarts =>
    have hnew := hgoing harmed
    exact .going hfail hle harmed hcount (by omega)
  | failed hfail hlen hnext hcount hstarts =>
    exact .failed hfail hlen hnext hcount ((hover (not_armed_of_next hnext)).trans hstarts)
  | completed hends hfail hlen hstatus hcount hstarts =>
    exact .completed hends hfail hlen hstatus hcount
      ((hover (not_armed_of_completed hstatus)).trans hstarts)

end Stages

/-! ## The end of a run -/

section Settle

variable {c : Calendar} {s : Store} {id result now : String} {status : RunStatus} {row : Trigger}
  {out : Bool × Store} {noRetry : Bool}

theorem planPauseOn_writeStatus {st : Option TriggerStatus} :
    (writeStatus s id st now).planPauseOn = s.planPauseOn := by
  cases st <;> rfl

theorem planPauseOn_recordTaskRun
    (h : recordTaskRun c s id result status false false noRetry now = some out) :
    out.2.planPauseOn = s.planPauseOn := by
  unfold recordTaskRun at h
  split at h
  · rw [← Option.some.inj h]
  · split_ifs at h
    · rw [← Option.some.inj h]
      rfl
    · obtain ⟨e, -, rfl⟩ := Option.map_eq_some_iff.mp h
      exact planPauseOn_writeStatus

/-- The columns the end of a run leaves the row with. -/
theorem find_recordedRow (hrow : Table.find Trigger.id s.rows id = some row)
    (hsource : row.source ≠ .webhook)
    (h : recordTaskRun c s id result status false false noRetry now = some out) :
    ∃ e row', runEnd c row status noRetry now = some e ∧
      Table.find Trigger.id out.2.rows id = some row' ∧ row'.status = e.status.getD row.status ∧
      row'.nextRunAt = e.nextRunAt.getD row.nextRunAt ∧
      row'.retryCount = e.retryCount.getD row.retryCount ∧ row'.condition = row.condition ∧
      row'.maxRetries = row.maxRetries ∧ row'.leaseSince = row.leaseSince ∧
      (e.status = none → ∀ on, accepts on row' = accepts on row) := by
  unfold recordTaskRun at h
  rw [hrow] at h
  simp only [hsource, decide_false, Bool.or_self, Bool.false_eq_true, if_false] at h
  obtain ⟨e, he, rfl⟩ := Option.map_eq_some_iff.mp h
  refine ⟨e, _, he, find_update_self (fun _ => rfl) (@find_writeStatus s id row e.status now hrow), ?_⟩
  cases e.status
  · exact ⟨rfl, rfl, rfl, rfl, rfl, rfl, fun _ _ => rfl⟩
  · exact ⟨rfl, rfl, rfl, rfl, rfl, rfl, fun hnone => absurd hnone (Option.some_ne_none _)⟩

/-- The end of a run completes a one-shot trigger, raises its count for a retry, or clears its next
run. -/
theorem runEnd_cases {r : ℕ} {e : RunEnd} (hone : OneShot r row) (hlive : canFire row = true)
    (hstatus : status ≠ .stopped ∧ status ≠ .halted ∧ noRetry = false)
    (he : runEnd c row status noRetry now = some e) :
    (status = .success ∧ e.status = some .completed ∧ e.retryCount = none) ∨
      status ≠ .success ∧ (row.retryCount < r ∧ e.status = none ∧
          e.nextRunAt = some (some (c.afterBackoff (row.retryCount + 1) now)) ∧
          e.retryCount = some (row.retryCount + 1) ∨
        r ≤ row.retryCount ∧ e.nextRunAt = some none ∧ e.retryCount = none) := by
  obtain ⟨hstop, hhalt, hretry⟩ := hstatus
  rw [runEnd, hone.cron, hone.watch, hone.retries] at he
  have he := Option.some.inj he
  by_cases hsuccess : status = .success
  · have hwrite : mayWriteStatus row status = true := by
      simp only [canFire, Bool.and_eq_true] at hlive
      simpa [mayWriteStatus, hstop, hhalt] using hlive.2
    rw [if_neg (by simp [hsuccess]), if_pos hsuccess, if_pos hwrite] at he
    rw [← he]
    exact Or.inl ⟨hsuccess, rfl, rfl⟩
  · have hfails : status = .failed ∨ status = .timeout ∨ status = .interrupted := by
      cases status <;> simp_all
    refine Or.inr ⟨hsuccess, ?_⟩
    by_cases hmore : row.retryCount < r
    · rw [if_pos ⟨hfails, hmore, hretry⟩] at he
      rw [← he]
      exact Or.inl ⟨hmore, rfl, rfl, rfl⟩
    · rw [if_neg fun h => hmore h.2.1, if_neg hsuccess] at he
      rw [← he]
      exact Or.inr ⟨not_lt.mp hmore, rfl, rfl⟩

/-- The end of a run that was started and not recorded is the next stage. -/
theorem Stage.settle {on : Bool} {r n : ℕ} {ends : List RunStatus} (h : Stage on r row n ends)
    (hone : OneShot r row) (hsource : row.source ≠ .webhook) (hlive : canFire row = true)
    (hnext : row.nextRunAt.isSome) (hlost : lostRun row = true) (hsince : ∀ t ∈ row.leaseSince, t ≤ now)
    (hstatus : status ≠ .stopped ∧ status ≠ .halted ∧ noRetry = false)
    (hrow : Table.find Trigger.id s.rows id = some row)
    (hout : recordTaskRun c s id result status false false noRetry now = some out) :
    ∃ row', Table.find Trigger.id out.2.rows id = some row' ∧ OneShot r row' ∧
      Stage on r row' n (status :: ends) := by
  obtain ⟨e, row', he, hrow', hst, hn, hc, hcond, hmax, hsn, haccepts⟩ :=
    find_recordedRow hrow hsource hout
  refine ⟨row', hrow', ⟨hcond ▸ hone.cron, hcond ▸ hone.watch, hmax ▸ hone.retries⟩, ?_⟩
  cases h with
  | failed _ _ hnone => simp [hnone] at hnext
  | completed _ _ _ hcompleted => simp [canFire, hcompleted] at hlive
  | going hfail hle harmed hcount hstarts =>
    rw [hlost, Bool.toNat_true] at hstarts
    rcases runEnd_cases hone hlive hstatus he with ⟨rfl, hcompleted, hkept⟩ |
        ⟨hne, ⟨hmore, hnone, hlater, hraised⟩ | ⟨hused, hcleared, hkept⟩⟩
    · rw [hcompleted] at hst
      rw [hkept] at hc
      exact .completed rfl hfail hle hst (hc.trans hcount) hstarts
    all_goals have hfail' : RunStatus.success ∉ status :: ends := fun hmem =>
      (List.mem_cons.mp hmem).elim (fun he => hne he.symm) hfail
    · -- a retry comes, later than the lease was taken
      rw [hlater] at hn
      rw [hraised] at hc
      have hmoved : lostRun row' = false := by
        rw [lostRun, hsn, hn, Bool.and_eq_false_iff]
        refine Or.inr (Bool.eq_false_iff.mpr fun hany => ?_)
        obtain ⟨t, ht, hle'⟩ := (Option.any_eq_true _ _).mp hany
        have hafter := c.lt_afterBackoff (row.retryCount + 1) now
        exact absurd (lt_of_lt_of_le hafter ((of_decide_eq_true hle').trans (hsince t ht))) (lt_irrefl _)
      refine .going hfail' (by rw [List.length_cons]; omega) ?_ (hc.trans (congrArg (· + 1) hcount)) ?_
      · rw [armed, haccepts hnone, hn]
        exact (Bool.and_eq_true _ _ ▸ harmed).2
      · rw [hmoved, hstarts]
        rfl
    · rw [hcleared] at hn
      rw [hkept] at hc
      exact .failed hfail' (by rw [List.length_cons]; omega) hn
        (hc.trans (show row.retryCount = r by omega)) hstarts

end Settle

/-! ## What an event does to the stage -/

namespace World

section Staged

variable {w w' : World} {c : Calendar} {h id : String} {r : ℕ} {ends : List RunStatus}
  {effect : TriggerEffect} {status : Option RunStatus}

/-- The stage of a trigger. -/
def Staged (id : String) (r : ℕ) (ends : List RunStatus) (w : World) : Prop :=
  ∃ row, w.row id = some row ∧ OneShot r row ∧ Stage w.store.planPauseOn r row (w.starts id) ends

theorem Staged.same (s : Staged id r ends w) (hrow : w'.row id = w.row id)
    (hon : w'.store.planPauseOn = w.store.planPauseOn) (hstarts : w'.starts id = w.starts id) :
    Staged id r ends w' := by
  obtain ⟨row, hfind, hone, hstage⟩ := s
  refine ⟨row, hrow.trans hfind, hone, ?_⟩
  rw [hon, hstarts]
  exact hstage

theorem endsAfter_of_eq (h : w'.recorded = w.recorded) : endsAfter id w w' status ends = ends :=
  if_pos (congrArg (List.countP fun run : String × String => run.1 = id) h)

theorem endsAfter_none : endsAfter id w w' none ends = ends := by
  unfold endsAfter
  split_ifs <;> rfl

theorem planPauseOn_claimLease {s : Store} {holder until' now : String} :
    (claimLease s id holder until' now).2.planPauseOn = s.planPauseOn := by
  unfold claimLease
  split
  · rfl
  · split_ifs <;> rfl

/-- A start is counted where no run was lost; else the lost one is to be recorded. -/
theorem staged_take (s : Staged id r ends w) (heffect : resumesAfterLoss effect = false) {t : Trigger}
    {until' : String}
    (hlisted : t.id = id → t.effect = effect ∧ ∃ v, t.nextRunAt = some v ∧ v ≤ w.now)
    (hkept : t.id = id → ∀ row, w.row id = some row → row.leaseUntil.any (w.now < ·) = false →
      armed w.store.planPauseOn row = true ∧ row.nextRunAt = t.nextRunAt) :
    Staged id r ends (w.take h t (claimLease w.store t.id h until' w.now)) := by
  unfold World.take
  by_cases hid : t.id = id
  · obtain ⟨row, hrow, hone, hstage⟩ := s
    obtain ⟨heff, v, hv, hle⟩ := hlisted hid
    rw [hid, heff, heffect]
    rcases @claimLease_of_find w.store id row h until' w.now hrow with ⟨-, hheld⟩ | ⟨hfree, hclaim, hrow'⟩
    · rw [hheld, if_pos (Or.inl rfl)]
      exact ⟨row, hrow, hone, hstage⟩
    · obtain ⟨harmed, hnext⟩ := hkept hid row hrow hfree
      have hleased : ∀ n', n' + (lostRun row).toNat = w.starts id + 1 →
          Stage (claimLease w.store id h until' w.now).2.planPauseOn r { row with
            leaseHolder := some h, leaseUntil := some until', leaseSince := some w.now } n' ends := by
        intro n' hn
        rw [planPauseOn_claimLease]
        refine hstage.lease rfl (fun _ => hn.trans ?_) fun hnot => absurd (harmed.symm.trans hnot) (by decide)
        simp [lostRun, hnext, hv, hle]
      rw [if_neg (by rw [hclaim]; split_ifs <;> simp), hclaim]
      cases hwas : lostRun row with
      | true =>
        rw [if_pos rfl, if_pos ⟨rfl, rfl⟩]
        exact ⟨_, hrow', ⟨hone.cron, hone.watch, hone.retries⟩, hleased _ (by rw [hwas]; rfl)⟩
      | false =>
        rw [if_neg (by decide)]
        refine ⟨_, hrow', ⟨hone.cron, hone.watch, hone.retries⟩, hleased _ ?_⟩
        rw [hwas]
        exact @List.countP_cons_of_pos _ (·.1 = id) (id, occurrence t) w.started (decide_eq_true rfl)
  · have hsame : Table.find Trigger.id (claimLease w.store t.id h until' w.now).2.rows id = w.row id :=
      find_claimLease_of_ne (Ne.symm hid)
    split_ifs
    · exact s
    · exact s.same hsame planPauseOn_claimLease rfl
    · exact s.same hsame planPauseOn_claimLease (List.countP_cons_of_neg (by simpa using hid))

theorem staged_pick (b : Bound id effect w) (heffect : resumesAfterLoss effect = false)
    (s : Staged id r ends w) {budget : Bool} {until' : String}
    (hkept : Kept c id w (.pick h budget until')) : Staged id r ends (w.pick h budget until') := by
  unfold World.pick
  simp only
  split
  · exact s
  · rename_i t due hdue
    split_ifs
    · exact s.same rfl rfl rfl
    · exact staged_take (w := w.update h fun e => { e with due := due }) (s.same rfl rfl rfl) heffect
        (b.due h t (by rw [hdue]; exact List.mem_cons_self)) (hkept t due hdue)
    · exact s

/-- The end of a run is recorded. -/
theorem staged_settle (inv : Inv id effect w) (held : (w.view id).Held) (s : Staged id r ends w)
    {id' result v : String} {status : RunStatus} {noRetry : Bool} {out : Bool × Store} {m : Mode String}
    (hout : recordTaskRun c w.store id' result status false false noRetry w.now = some out)
    (hmode : id' = id → (w.view id).mode h = .running v ∨
      (w.view id).mode h = .recording v ∧ (w.view id).holder = some h)
    (hstatus : id' = id → status ≠ .stopped ∧ status ≠ .halted ∧ noRetry = false) :
    let w' : World := { { w with store := out.2 }.setTask h id' m with recorded := (id', v) :: w.recorded }
    Staged id r (endsAfter id w w' (some status) ends) w' := by
  intro w'
  by_cases hid : id' = id
  · have hrecords : w'.records id = w.records id + 1 := List.countP_cons_of_pos (by simpa using hid)
    rw [endsAfter, if_neg (by omega)]
    rw [hid] at hout
    obtain ⟨row, hrow, hone, hstage⟩ := s
    obtain ⟨row₀, hrow₀, -, hsource⟩ := inv.1.row
    obtain rfl := Option.some.inj (hrow.symm.trans hrow₀)
    have hthere : (w.view id).next = some v ∧ (w.view id).live = true := by
      rcases hmode hid with hm | ⟨hm, hholder⟩
      · obtain ⟨-, hnext, hlive, -⟩ := inv.2.running h v hm
        exact ⟨hnext, hlive⟩
      · obtain ⟨hnext, hlive, -⟩ := inv.2.recording h v hm hholder
        exact ⟨hnext, hlive⟩
    rw [next_view hrow, live_view hrow] at hthere
    have hlost := (unsettled_iff hrow).mp (held.unsettled h v (hmode hid))
    obtain ⟨row', hrow', hone', hstage'⟩ := hstage.settle hone hsource hthere.2 (by rw [hthere.1]; rfl)
      hlost (fun t ht => held.since t (by rw [since_view hrow]; exact ht)) (hstatus hid) hrow hout
    refine ⟨row', hrow', hone', ?_⟩
    show Stage out.2.planPauseOn r row' (w.starts id) (status :: ends)
    rw [planPauseOn_recordTaskRun hout]
    exact hstage'
  · rw [endsAfter, if_pos (show w'.records id = w.records id from
      List.countP_cons_of_neg (by simpa using hid))]
    exact s.same (find_recordTaskRun_of_ne (Ne.symm hid) hout) (planPauseOn_recordTaskRun hout) rfl

/-- A lease is given up by a run that has ended. -/
theorem staged_giveUp (held : (w.view id).Held) (s : Staged id r ends w) {id' : String}
    (halive : (w.engines h).alive = true)
    (hmode : (w.engines h).tasks id' = .ran ∨ (w.engines h).tasks id' = .releasing) :
    Staged id r ends { w with store := releaseLease w.store id' h } := by
  by_cases hid : id' = id
  · rw [hid] at hmode ⊢
    obtain ⟨row, hrow, hone, hstage⟩ := s
    have hrow' : Table.find Trigger.id (releaseLease w.store id h).rows id = _ :=
      find_update_self (fun _ => rfl) hrow
    refine ⟨_, hrow', ?_⟩
    split_ifs with hheld
    · refine ⟨⟨hone.cron, hone.watch, hone.retries⟩, hstage.lease rfl (fun harmed => ?_) fun _ => rfl⟩
      have hsettled : lostRun row = false := by
        refine Bool.eq_false_iff.mpr fun hlost => ?_
        refine held.settled h ?_ ?_ ((unsettled_iff hrow).mpr hlost)
        · rw [mode_view halive, holder_view hrow]
          exact hmode.imp_right fun hm => ⟨hm, of_decide_eq_true hheld⟩
        · rw [live_view hrow]
          exact canFire_of_armed harmed
      rw [hsettled]
      rfl
    · exact ⟨hone, hstage⟩
  · exact s.same (find_update_of_ne (fun _ => rfl) (Ne.symm hid)) rfl rfl

theorem staged_renew (s : Staged id r ends w) {id' until' : String} :
    Staged id r ends (w.renew h id' until') := by
  unfold World.renew
  split_ifs
  · by_cases hid : id' = id
    · rw [hid]
      obtain ⟨row, hrow, hone, hstage⟩ := s
      have hrow' : Table.find Trigger.id (renewLease w.store id h until').2.rows id = _ :=
        find_update_self (fun _ => rfl) hrow
      refine ⟨_, hrow', ?_⟩
      split_ifs
      · exact ⟨⟨hone.cron, hone.watch, hone.retries⟩, hstage.lease rfl (fun _ => rfl) fun _ => rfl⟩
      · exact ⟨hone, hstage⟩
    · exact s.same (find_update_of_ne (fun _ => rfl) (Ne.symm hid)) rfl rfl
  · exact s

/-- Every event of a tick leads to the stage that follows. -/
theorem staged_step (heffect : resumesAfterLoss effect = false) (inv : Inv id effect w)
    (held : (w.view id).Held) (s : Staged id r ends w) {e : TickEvent} (hkept : Kept c id w e)
    (huntouched : Untouched id e) :
    Staged id r (endsAfter id w (w.step c e) (RunEvent.tick e).status ends) (w.step c e) := by
  cases e
  case recordInterrupted holder result =>
    unfold World.step World.recordInterrupted
    simp only
    split
    · rwa [endsAfter_of_eq (by rfl)]
    · rename_i t hpending
      split
      · rename_i v halive hmode
        split
        · rw [endsAfter_of_eq (by rfl)]
          exact s.same rfl rfl rfl
        · rename_i out hout
          refine staged_settle inv held s hout (fun hid => Or.inr ?_) fun _ => ⟨by simp, by simp, rfl⟩
          obtain ⟨row, hrow, -⟩ := s
          rw [mode_view halive, holder_view hrow, ← hid]
          exact ⟨hmode, hkept t hpending hid row hrow⟩
      · rwa [endsAfter_of_eq (by rfl)]
  case record holder id' result status noRetry =>
    show Staged id r (endsAfter id w (w.record c holder id' result status noRetry) (some status) ends)
      (w.record c holder id' result status noRetry)
    unfold World.record
    split
    · rename_i v halive hmode
      split
      · rw [endsAfter_of_eq (by rfl)]
        exact s.same rfl rfl rfl
      · rename_i out hout
        refine staged_settle inv held s hout (fun hid => Or.inl ?_) huntouched
        rw [mode_view halive, ← hid]
        exact hmode
    · rwa [endsAfter_of_eq (by rfl)]
  -- no other event ends a run
  all_goals
    show Staged id r (endsAfter id w _ none ends) _
    rw [endsAfter_none]
  case advance now => exact s.same rfl rfl rfl
  case list holder =>
    unfold World.step World.list
    simp only
    split_ifs
    · exact s.same rfl rfl rfl
    · exact s
  case pick holder budget until' => exact staged_pick inv.1 heffect s hkept
  case releaseInterrupted holder =>
    unfold World.step World.releaseInterrupted
    simp only
    split
    · exact s
    · split
      · rename_i halive hmode
        exact (staged_giveUp held s halive (Or.inr hmode)).same rfl rfl rfl
      · exact s
  case release holder id' =>
    show Staged id r ends (w.release holder id')
    unfold World.release
    split
    · rename_i halive hmode
      exact (staged_giveUp held s halive (Or.inl hmode)).same rfl rfl rfl
    · exact s
  case renew holder id' until' => exact staged_renew s
  case die holder => exact s.same rfl rfl rfl

end Staged

end World

/-! ## Runs -/

/-- What is known of a one-shot trigger in every state of a run. -/
structure Known (id : String) (effect : TriggerEffect) (r : ℕ) (w : Watched) : Prop where
  inv : World.Inv id effect w.world
  held : (w.world.view id).Held
  staged : World.Staged id r w.ends w.world

section Runs

variable {c : Calendar} {id : String} {effect : TriggerEffect} {r : ℕ}

theorem Known.move {w : Watched} {w' : World} {ends' : List RunStatus} (k : Known id effect r w)
    (h : World.Moves id effect w.world w') (s : World.Staged id r ends' w') :
    Known id effect r ⟨w', ends'⟩ := by
  obtain ⟨b, hsame | hstep⟩ := h
  · exact ⟨⟨b, hsame ▸ k.inv.2⟩, (hsame ▸ k.held :), s⟩
  · exact ⟨⟨b, hstep.sound k.inv.2⟩, hstep.held k.inv.2 k.held, s⟩

theorem Known.step (heffect : resumesAfterLoss effect = false) (w : Watched) (e : RunEvent)
    (k : Known id effect r w) (ha : Undisturbed c id w e ∧ EndsOnce id e) :
    Known id effect r (w.step c id e) := by
  cases e with
  | tick e =>
    obtain ⟨⟨hfair, hkept, huntouched⟩, -⟩ := ha
    exact k.move (World.moves_step heffect k.inv.1 hfair hkept)
      (World.staged_step heffect k.inv k.held k.staged hkept huntouched)
  | recordAndThrow holder id' result status noRetry =>
    have hne : id' ≠ id := ha.2
    have hkept : World.Kept c id w.world (.record holder id' result status noRetry) :=
      fun he => absurd he hne
    have hrecorded := k.move (World.moves_record k.inv.1 hkept)
      (World.staged_step heffect k.inv k.held k.staged hkept fun he => absurd he hne)
    refine hrecorded.move ⟨hrecorded.inv.1.of_same hrecorded.inv.1.keyed le_rfl rfl fun h' t ht =>
      (congrArg (t ∈ ·) (World.due_setTask h')).mp ht, Or.inl (World.view_setTask_of_ne hne.symm)⟩
      (hrecorded.staged.same rfl rfl rfl)

theorem known_initial {store : Store} {now : String} {row : Trigger} (hkeyed : store.Keyed)
    (hrow : Table.find Trigger.id store.rows id = some row) (hone : OneShot r row)
    (harmed : JustArmed store.planPauseOn row) : Known id row.effect r (.initial store now) where
  inv := World.inv_initial hkeyed hrow harmed.source
  held := by
    have hview : ((World.initial store now).view id).since = none := by
      rw [World.since_view (show (World.initial store now).row id = some row from hrow)]
      exact harmed.lease.2
    refine ⟨fun t ht => ?_, fun h v hm => ?_, fun h hm => ?_⟩
    · rw [show ((Watched.initial store now).world.view id).since = none from hview] at ht
      cases ht
    · rcases hm with hm | ⟨hm, -⟩ <;> cases hm
    · rcases hm with hm | ⟨hm, -⟩ <;> cases hm
  staged := by
    refine ⟨row, hrow, hone, .going (by simp [Watched.initial]) (Nat.zero_le r) harmed.armed
      harmed.count ?_⟩
    rw [lostRun, harmed.lease.1]
    rfl

theorem mem_getDue_of {s : Store} {row : Trigger} {v now : String} (hmem : row ∈ s.rows)
    (harmed : armed s.planPauseOn row = true) (hv : row.nextRunAt = some v) (hle : v ≤ now)
    (hfree : row.leaseUntil.all (· ≤ now) = true) : row ∈ getDue s now := by
  rw [getDue, List.mem_insertionSort, List.mem_filter, harmed, hfree, hv]
  exact ⟨hmem, by simpa using hle⟩

theorem not_due {w : World} {row : Trigger} (hkeyed : w.store.Keyed) (hrow : w.row id = some row)
    (hnot : armed w.store.planPauseOn row = false) : ∀ now, ∀ t ∈ getDue w.store now, t.id ≠ id := by
  rintro now t ht rfl
  obtain ⟨hmem, harmed, -⟩ := World.mem_getDue ht
  obtain rfl := Option.some.inj (hrow.symm.trans (Table.find_of_mem hkeyed hmem))
  exact absurd (harmed.symm.trans hnot) (by decide)

theorem countP_failures {fails : List RunStatus} (h : RunStatus.success ∉ fails) :
    fails.countP (· ≠ .success) = fails.length :=
  List.countP_eq_length.mpr fun _ hmem => decide_eq_true fun he => h (he ▸ hmem)

theorem Known.exact {w : Watched} (k : Known id effect r w) : RetriesExact id r w := by
  obtain ⟨row, hrow, hone, hstage⟩ := k.staged
  have hmem : row ∈ w.world.store.rows := Table.mem_of_find hrow
  cases hstage with
  | going hfail hle harmed hcount hstarts =>
    have hlost := Bool.toNat_le (lostRun row)
    obtain ⟨v, hv⟩ := Option.isSome_iff_exists.mp (Bool.and_eq_true _ _ ▸ harmed).1
    have hdue : ∀ now, v ≤ now → row.leaseUntil.all (· ≤ now) = true →
        row ∈ getDue w.world.store now := fun now => mem_getDue_of hmem harmed hv
    refine ⟨⟨by omega, by omega⟩, by omega, fun h => hfail (List.mem_of_mem_tail h), ?_,
      fun _ _ => ⟨row, v, Table.key_of_find hrow, hdue⟩, fun hnever => ?_, fun hover => ?_⟩
    · rw [hrow, Option.map_some, hcount, countP_failures hfail, Nat.min_eq_left hle]
    · -- it is due once its time has come and its lease has lapsed
      refine absurd (Table.key_of_find hrow) (hnever (max v (row.leaseUntil.getD "")) row
        (hdue _ (le_max_left _ _) ?_))
      cases row.leaseUntil with
      | none => rfl
      | some u => exact decide_eq_true (le_max_right _ _)
    · exact hover.elim (fun h => absurd h hfail) fun h => absurd h (by omega)
  | failed hfail hlen hnext hcount hstarts =>
    have hnever := not_due k.inv.1.keyed hrow (not_armed_of_next hnext)
    refine ⟨⟨by omega, by omega⟩, by omega, fun h => hfail (List.mem_of_mem_tail h), ?_,
      fun _ hle => absurd hle (by omega), fun _ _ => by omega, fun _ => ⟨hstarts, hnever⟩⟩
    rw [hrow, Option.map_some, hcount, countP_failures hfail, hlen, Nat.min_eq_right (Nat.le_succ r)]
  | @completed fails hends hfail hlen hstatus hcount hstarts =>
    have hnever := not_due k.inv.1.keyed hrow (not_armed_of_completed hstatus)
    have hsucceeds : RunStatus.success ∈ w.ends := hends ▸ List.mem_cons_self
    have hlength : w.ends.length = fails.length + 1 := by rw [hends, List.length_cons]
    refine ⟨⟨by omega, by omega⟩, by omega, by rwa [hends], ?_,
      fun h => absurd hsucceeds h, fun _ h => absurd hsucceeds h, fun _ => ⟨hstarts, hnever⟩⟩
    rw [hrow, Option.map_some, hcount, hends, List.countP_cons_of_neg (by decide), countP_failures hfail,
      Nat.min_eq_left hlen]

/-- In every run of the ticks in which no run of a one-shot trigger throws after its record, the
trigger is started until its first success, and otherwise once and as often again as it has retries. -/
theorem retries_are_exact {store : Store} {now : String} {row : Trigger} {events : List RunEvent}
    (hkeyed : store.Keyed) (hrow : Table.find Trigger.id store.rows id = some row) (hone : OneShot r row)
    (harmed : JustArmed store.planPauseOn row)
    (ho : Run.Obeys (Watched.step c id) (fun w e => Undisturbed c id w e ∧ EndsOnce id e)
      (.initial store now) events) :
    RetriesExact id r (Run.after (Watched.step c id) (.initial store now) events) :=
  (Run.invariant_of (Known.step harmed.effect) (known_initial hkeyed hrow hone harmed) ho).exact

end Runs

/-! ## A backup with one retry -/

/-- A backup that is due at one and has one retry. -/
def nightly : Trigger :=
  { bulkRow "back up" .backup "backup" "1" with id := "backup", maxRetries := some 1 }.inserted [] "0" "0"

/-- What is known before any process has ticked. -/
def beforeTheBackup : Watched :=
  .initial ⟨[nightly], [], false⟩ "2"

/-- A tick takes the backup, which ends so. -/
def taken (ending : List RunEvent) : List RunEvent :=
  .tick (.list "a") :: .tick (.pick "a" true "3") :: ending

/-- The backup throws and is recorded. -/
def throws : List RunEvent :=
  taken [.tick (.record "a" "backup" "disk full" .failed false)]

/-- The backup answers that it failed : `executeBackup` records it and then throws. -/
def fails : List RunEvent :=
  taken [.recordAndThrow "a" "backup" "disk full" .failed false,
    .tick (.record "a" "backup" "disk full" .failed false)]

/-- Nobody else takes the backup a tick has listed. -/
theorem taken_undisturbed :
    Undisturbed nextMoment "backup" beforeTheBackup (.tick (.list "a")) ∧
      Undisturbed nextMoment "backup"
        (beforeTheBackup.step nextMoment "backup" (.tick (.list "a"))) (.tick (.pick "a" true "3")) := by
  have hidle : ∀ events : List TickEvent, events = [] ∨ events = [.list "a"] → ∀ h, ¬ ((Run.after
      (World.step nextMoment) beforeTheBackup.world events).view "backup").Runs h := by
    rintro events (rfl | rfl) <;>
      refine World.not_runs_after ["a"] rfl "backup" fun h hh => ?_ <;>
      rw [List.mem_singleton.mp hh] <;> decide +kernel
  refine ⟨⟨World.fair_of_idle (by decide) (hidle [] (Or.inl rfl)), trivial, trivial⟩,
    World.fair_of_idle (by decide) (hidle [.list "a"] (Or.inr rfl)), ?_, trivial⟩
  rintro t due hdue - row hrow -
  have hlisted : t :: due = [nightly] := hdue.symm.trans (by decide +kernel)
  have hstored : some row = some nightly := hrow.symm.trans (by decide +kernel)
  rw [(List.cons.inj hlisted).1, Option.some.inj hstored]
  decide +kernel

theorem a_backup_is_retried :
    RetriesExact "backup" 1 (Run.after (Watched.step nextMoment "backup") beforeTheBackup throws) := by
  obtain ⟨hlist, hpick⟩ := taken_undisturbed
  refine @retries_are_exact nextMoment "backup" 1 ⟨[nightly], [], false⟩ "2" nightly throws
    (List.nodup_singleton _) rfl ⟨rfl, rfl, rfl⟩ ⟨by decide, rfl, by decide +kernel, rfl, rfl, rfl⟩
    ⟨⟨hlist, trivial⟩, ⟨hpick, trivial⟩, ⟨⟨?_, ?_, fun _ => ⟨by decide, by decide, rfl⟩⟩, trivial⟩, trivial⟩
  · exact World.fair_of_leased (by decide) (by decide +kernel)
  · exact fun _ _ _ _ _ _ => rfl

/-- The backup is recorded twice, and its one retry never comes. -/
theorem a_failed_backup_takes_two : ¬ ∀ (c : Calendar) (id : String) (r : ℕ) (store : Store) (now : String)
    (row : Trigger) (events : List RunEvent), store.Keyed →
      Table.find Trigger.id store.rows id = some row → OneShot r row → JustArmed store.planPauseOn row →
      Run.Obeys (Watched.step c id) (Undisturbed c id) (.initial store now) events →
      RetriesExact id r (Run.after (Watched.step c id) (.initial store now) events) := by
  intro hall
  obtain ⟨hlist, hpick⟩ := taken_undisturbed
  have hexact := hall nextMoment "backup" 1 ⟨[nightly], [], false⟩ "2" nightly fails
    (List.nodup_singleton _) rfl ⟨rfl, rfl, rfl⟩ ⟨by decide, rfl, by decide +kernel, rfl, rfl, rfl⟩
    ⟨hlist, hpick, trivial, ⟨World.fair_of_leased (by decide) (by decide +kernel),
      fun _ _ _ _ _ _ => rfl, fun _ => ⟨by decide, by decide, rfl⟩⟩, trivial⟩
  have hstarts := hexact.exact (fun now t ht => ?_) (by decide +kernel)
  · exact absurd hstarts (by decide +kernel)
  · obtain ⟨hmem, harmed, -⟩ := World.mem_getDue ht
    have hnever : ∀ t ∈ (Run.after (Watched.step nextMoment "backup") beforeTheBackup
        fails).world.store.rows, armed false t = false := by decide +kernel
    exact absurd (harmed.symm.trans (hnever t hmem)) (by decide)

/-! ## One process at a time -/

namespace World

/-- What the processes do with a trigger is a run of its schedule; and one that runs it, or has run it and
not released it, holds its lease, so that no two do. -/
theorem ticks_keep_the_schedule {c : Calendar} {store : Store} {now id : String} {row : Trigger}
    {events : List TickEvent} (hkeyed : store.Keyed)
    (hrow : Table.find Trigger.id store.rows id = some row) (hsource : row.source ≠ .webhook)
    (heffect : resumesAfterLoss row.effect = false)
    (ho : Run.Obeys (step c) (fun w e => Fair id w e ∧ Kept c id w e) (initial store now) events) :
    let o := (Run.after (step c) (initial store now) events).view id
    Relation.ReflTransGen Occurrences.Step ((initial store now).view id) o ∧
      (∀ h, o.Runs h → o.holder = some h) ∧ {h | o.Runs h}.Subsingleton := by
  intro o
  obtain ⟨⟨-, hsound⟩, hrun⟩ := Run.invariant_of
    (I := fun w => Inv id row.effect w ∧
      Relation.ReflTransGen Occurrences.Step ((initial store now).view id) (w.view id))
    (fun w e hw he => ⟨inv_step heffect w e hw.1 he,
      (moves_step heffect hw.1.1 he.1 he.2).2.elim (fun h => h ▸ hw.2) hw.2.tail⟩)
    ⟨inv_initial hkeyed hrow hsource, .refl⟩ ho
  have hholds : ∀ h, o.Runs h → o.holder = some h := by
    rintro h (⟨v, hv⟩ | hran)
    · exact (hsound.running h v hv).1
    · exact (hsound.ran h hran).1
  exact ⟨hrun, hholds, fun h hr h' hr' => Option.some.inj ((hholds h hr).symm.trans (hholds h' hr'))⟩

theorem one_process_runs_the_backup : {h | ((Run.after (step nextMoment)
    (initial ⟨[nightly], [], false⟩ "2") [.list "a", .pick "a" true "3"]).view "backup").Runs
      h}.Subsingleton := by
  obtain ⟨⟨hlist, hlist', -⟩, hpick, hpick', -⟩ := taken_undisturbed
  exact (@ticks_keep_the_schedule nextMoment ⟨[nightly], [], false⟩ "2" "backup" nightly
    [.list "a", .pick "a" true "3"] (List.nodup_singleton _) rfl (by decide) rfl
    ⟨⟨hlist, hlist'⟩, ⟨hpick, hpick'⟩, trivial⟩).2.2

end World

end Lynox.Triggers
