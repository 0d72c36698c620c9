import Lynox.Data.Occurrence
import Lynox.Triggers.Lease

/-!
# Ticks of the worker

Engine processes share the triggers of one database. A tick reads the due triggers once and then
takes them one after the other : it claims the trigger's lease and starts a run, or, where the lease
is that of a run that was lost and whose effect does not resume, records that run as interrupted. A
run ends with its result recorded (`recordTaskRun`), which sets the trigger's next run, and then
gives its lease up. Statements of the processes come in any order, and a process can die between any
two.
-/

namespace Lynox.Triggers

/-! ## Recording a run -/

inductive RunStatus
  | success | failed | timeout | stopped | halted | interrupted
  deriving DecidableEq, Repr

def RunStatus.text : RunStatus → String
  | .success => "success"
  | .failed => "failed"
  | .timeout => "timeout"
  | .stopped => "stopped"
  | .halted => "halted"
  | .interrupted => "interrupted"

/-- The times a run's end leads to : the next occurrence of a cron expression, none where there is
none within a year, the end of a watch's interval, and the end of the wait before a retry. -/
structure Calendar where
  nextOccurrence : (cron now : String) → Option String
  afterInterval : (watchConfig now : String) → String
  afterBackoff : (retryCount : Nat) → (now : String) → String
  lt_nextOccurrence : ∀ cron now next, nextOccurrence cron now = some next → now < next
  lt_afterInterval : ∀ watchConfig now, now < afterInterval watchConfig now
  lt_afterBackoff : ∀ retryCount now, now < afterBackoff retryCount now

/-- What the end of a run writes : a status, a next run (an inner none clears it) and a number of
retries, each where it is set. -/
structure RunEnd where
  status : Option TriggerStatus
  nextRunAt : Option (Option String)
  retryCount : Option Nat
  retrying : Bool

/-- The status of a trigger that waits is not the run's to write, nor that of one that was stopped
or halted. -/
def mayWriteStatus (task : Trigger) (status : RunStatus) : Bool :=
  task.status ≠ .waiting && status ≠ .stopped && status ≠ .halted

def resetOnSuccess (status : RunStatus) : Option Nat :=
  if status = .success then some 0 else none

/-- The end of a run of a trigger, none where its cron expression has no next occurrence. -/
def runEnd (c : Calendar) (task : Trigger) (status : RunStatus) (noRetry : Bool) (now : String) :
    Option RunEnd :=
  match orNull (task.condition.scheduleCron.getD ""), orNull (task.condition.watchConfig.getD "") with
  | some cron, _ => (c.nextOccurrence cron now).map fun next =>
    { status := if mayWriteStatus task status && task.status ≠ .completed && task.status ≠ .stopped then
        some (if status = .success then .open else .failed) else none
      nextRunAt := some (some next)
      retryCount := resetOnSuccess status
      retrying := false }
  | none, some watchConfig => some
    { status := none
      nextRunAt := some (some (c.afterInterval watchConfig now))
      retryCount := resetOnSuccess status
      retrying := false }
  | none, none => some <|
    if (status = .failed ∨ status = .timeout ∨ status = .interrupted) ∧
        task.retryCount < task.maxRetries.getD 0 ∧ noRetry = false then
      { status := none
        nextRunAt := some (some (c.afterBackoff (task.retryCount + 1) now))
        retryCount := some (task.retryCount + 1)
        retrying := true }
    else if status = .success then
      { status := if mayWriteStatus task status then some .completed else none
        nextRunAt := none
        retryCount := none
        retrying := false }
    else
      { status :=
          if mayWriteStatus task status then some .failed
          else if (status = .stopped ∨ status = .halted) ∧ task.status ≠ .waiting ∧
              task.status ≠ .completed then
            some (if status = .stopped then .stopped else .completed)
          else none
        nextRunAt := some none
        retryCount := none
        retrying := false }

/-- A result of ten thousand characters at most. -/
def runResult (result : String) : String :=
  String.ofList (result.toList.take 10000)

/-- `updateTrigger` with a status. -/
def writeStatus (s : Store) (id : String) (status : Option TriggerStatus) (now : String) : Store :=
  match status with
  | none => s
  | some status => (updateFields s id ⟨none, none, some status, none, none, none, none, none⟩ [] now).2

/-- Record a run : whether a retry comes, and the store after it; none where it throws. A run by
hand, one of a webhook and one a pause ended leave the schedule as it is. -/
def recordTaskRun (c : Calendar) (s : Store) (id result : String) (status : RunStatus)
    (byHand keepSchedule noRetry : Bool) (now : String) : Option (Bool × Store) :=
  match Table.find Trigger.id s.rows id with
  | none => some (false, s)
  | some task =>
    if byHand || task.source = .webhook || keepSchedule then
      some (false, updateRunResult s id ⟨now, runResult result, status.text, none, none⟩ now)
    else (runEnd c task status noRetry now).map fun r =>
      (r.retrying && task.status ≠ .completed && task.status ≠ .stopped && task.status ≠ .waiting &&
          task.status ≠ .failed && task.enabled && !(s.planPauseOn && task.pausedAt.isSome),
        updateRunResult (writeStatus s id r.status now) id
          ⟨now, runResult result, status.text, r.nextRunAt, r.retryCount⟩ now)

/-! ## Processes -/

/-- `RESUMES_AFTER_LOSS`. -/
def resumesAfterLoss : TriggerEffect → Bool
  | .runWorkflow | .runAgent | .backup | .notify => false
  | .bulkApply | .bulkUndo | .bulkPreview | .bulkJudge => true

/-- An engine process : the due triggers its tick has still to take, the one whose lost run it
records, and its runs. -/
structure Engine where
  alive : Bool
  due : List Trigger
  pending : Option Trigger
  tasks : String → Mode String

/-- What a process does with a trigger. -/
def Engine.modeOf (e : Engine) (id : String) : Mode String :=
  if e.alive then e.tasks id else .idle

/-- The database, the time, and the processes by the holder they lease under. A process that starts
again takes a new holder. `started` and `recorded` keep the trigger and the due time of each run
that was started and of each whose end was recorded. -/
structure World where
  store : Store
  now : String
  engines : String → Engine
  started : List (String × String)
  recorded : List (String × String)

namespace World

def update (w : World) (holder : String) (f : Engine → Engine) : World :=
  { w with engines := Function.update w.engines holder (f (w.engines holder)) }

/-- The tasks of a process with one in another mode. -/
def setTask (w : World) (holder id : String) (mode : Mode String) : World :=
  w.update holder fun e => { e with tasks := Function.update e.tasks id mode }

def row (w : World) (id : String) : Option Trigger :=
  Table.find Trigger.id w.store.rows id

end World

/-- The time a listed trigger was due at. -/
def occurrence (t : Trigger) : String :=
  t.nextRunAt.getD ""

inductive TickEvent
  | advance (now : String)
  | list (holder : String)
  | pick (holder : String) (budget : Bool) (until' : String)
  | recordInterrupted (holder result : String)
  | releaseInterrupted (holder : String)
  | record (holder id result : String) (status : RunStatus) (noRetry : Bool)
  | release (holder id : String)
  | renew (holder id until' : String)
  | die (holder : String)

/-- The process whose event it is. -/
def TickEvent.party : TickEvent → Option String
  | .advance _ => none
  | .list holder | .pick holder _ _ | .recordInterrupted holder _ | .releaseInterrupted holder
  | .record holder _ _ _ _ | .release holder _ | .renew holder _ _ | .die holder => some holder

namespace World

/-- A tick starts with the list of the due triggers. -/
def list (w : World) (holder : String) : World :=
  let e := w.engines holder
  if e.alive && e.due.isEmpty && e.pending.isNone then
    w.update holder fun e => { e with due := (getDue w.store w.now).filter (·.source ≠ .webhook) }
  else w

/-- The next listed trigger is passed over, started, or found interrupted. -/
def take (w : World) (holder : String) (t : Trigger) (claim : LeaseClaim × Store) : World :=
  if claim.1 = .held ∨ claim.1 = .notFound then w
  else if claim.1 = .interrupted ∧ resumesAfterLoss t.effect = false then
    ({ w with store := claim.2 }.update holder fun e => { e with pending := some t }).setTask holder
      t.id (.recording (occurrence t))
  else
    { { w with store := claim.2 }.setTask holder t.id (.running (occurrence t)) with
      started := (t.id, occurrence t) :: w.started }

def pick (w : World) (holder : String) (budget : Bool) (until' : String) : World :=
  let e := w.engines holder
  match e.due with
  | [] => w
  | t :: due =>
    if e.alive && e.pending.isNone then
      let passed := w.update holder fun e => { e with due := due }
      if e.tasks t.id ≠ .idle ∨ budget = false then passed
      else passed.take holder t (claimLease w.store t.id holder until' w.now)
    else w

/-- The run that was lost is recorded. Where that throws, its lease stays. -/
def recordInterrupted (c : Calendar) (w : World) (holder result : String) : World :=
  let e := w.engines holder
  match e.pending with
  | none => w
  | some t =>
    match e.alive, e.tasks t.id with
    | true, .recording v =>
      match recordTaskRun c w.store t.id result .interrupted false false false w.now with
      | none => (w.update holder fun e => { e with pending := none }).setTask holder t.id .idle
      | some out =>
        { { w with store := out.2 }.setTask holder t.id .releasing with
          recorded := (t.id, v) :: w.recorded }
    | _, _ => w

def releaseInterrupted (w : World) (holder : String) : World :=
  let e := w.engines holder
  match e.pending with
  | none => w
  | some t =>
    match e.alive, e.tasks t.id with
    | true, .releasing =>
      ({ w with store := releaseLease w.store t.id holder }.update holder
        fun e => { e with pending := none }).setTask holder t.id .idle
    | _, _ => w

/-- A run ends. Where recording it throws, it goes on to give its lease up. -/
def record (c : Calendar) (w : World) (holder id result : String) (status : RunStatus)
    (noRetry : Bool) : World :=
  match (w.engines holder).alive, (w.engines holder).tasks id with
  | true, .running v =>
    match recordTaskRun c w.store id result status false false noRetry w.now with
    | none => w.setTask holder id .ran
    | some out =>
      { { w with store := out.2 }.setTask holder id .ran with recorded := (id, v) :: w.recorded }
  | _, _ => w

def release (w : World) (holder id : String) : World :=
  match (w.engines holder).alive, (w.engines holder).tasks id with
  | true, .ran => { w with store := releaseLease w.store id holder }.setTask holder id .idle
  | _, _ => w

/-- The heartbeat of a run. -/
def renew (w : World) (holder id until' : String) : World :=
  if (w.engines holder).alive && (w.engines holder).tasks id ≠ .idle then
    { w with store := (renewLease w.store id holder until').2 }
  else w

def die (w : World) (holder : String) : World :=
  w.update holder fun _ => ⟨false, [], none, fun _ => .idle⟩

def step (c : Calendar) (w : World) : TickEvent → World
  | .advance now => { w with now := now }
  | .list holder => w.list holder
  | .pick holder budget until' => w.pick holder budget until'
  | .recordInterrupted holder result => w.recordInterrupted c holder result
  | .releaseInterrupted holder => w.releaseInterrupted holder
  | .record holder id result status noRetry => w.record c holder id result status noRetry
  | .release holder id => w.release holder id
  | .renew holder id until' => w.renew holder id until'
  | .die holder => w.die holder

/-- A database before any process has ticked. -/
def initial (store : Store) (now : String) : World :=
  ⟨store, now, fun _ => ⟨true, [], none, fun _ => .idle⟩, [], []⟩

end World

/-! ## The row after a statement -/

section Rows

variable {s : Store} {id id' : String} {row : Trigger}

theorem find_update_of_ne {p : Trigger → Bool} {f : Trigger → Trigger} (hf : ∀ r, (f r).id = r.id)
    (hid : id' ≠ id) :
    Table.find Trigger.id (s.update id p f).2.rows id' = Table.find Trigger.id s.rows id' := by
  rw [find_update hf]
  cases hrow : Table.find Trigger.id s.rows id' with
  | none => rfl
  | some row =>
    have hne : row.id ≠ id := fun he => hid ((Table.key_of_find hrow).symm.trans he)
    simp [hne]

theorem find_claimLease_of_ne {holder until' now : String} (hid : id' ≠ id) :
    Table.find Trigger.id (claimLease s id holder until' now).2.rows id' =
      Table.find Trigger.id s.rows id' := by
  unfold claimLease
  split
  · rfl
  · split_ifs
    · rfl
    · exact find_update_of_ne (fun _ => rfl) hid

/-- The lease was taken for the occurrence that is still the next. -/
def lostRun (row : Trigger) : Bool :=
  row.leaseHolder.isSome && row.leaseSince.any fun since => row.nextRunAt.any (· ≤ since)

/-- A claim is refused under a live lease; else the lease is taken, and the run before it was lost
where its due time is still the next. -/
theorem claimLease_of_find {holder until' now : String}
    (hrow : Table.find Trigger.id s.rows id = some row) :
    (row.leaseUntil.any (now < ·) = true ∧ claimLease s id holder until' now = (.held, s)) ∨
      row.leaseUntil.any (now < ·) = false ∧
      (claimLease s id holder until' now).1 = (if lostRun row = true then .interrupted else .claimed) ∧
      Table.find Trigger.id (claimLease s id holder until' now).2.rows id =
        some { row with
          leaseHolder := some holder, leaseUntil := some until', leaseSince := some now } := by
  unfold claimLease
  rw [hrow]
  simp only
  by_cases hheld : row.leaseUntil.any (now < ·) = true
  · rw [if_pos hheld]
    exact Or.inl ⟨hheld, rfl⟩
  · rw [if_neg hheld]
    refine Or.inr ⟨Bool.eq_false_iff.mpr hheld, rfl, ?_⟩
    exact find_update_self (fun _ => rfl) hrow

theorem find_writeStatus {status : Option TriggerStatus} {now : String}
    (hrow : Table.find Trigger.id s.rows id = some row) :
    Table.find Trigger.id (writeStatus s id status now).rows id = some (match status with
      | none => row
      | some status =>
        (⟨none, none, some status, none, none, none, none, none⟩ : FieldParams).apply now row) := by
  cases status with
  | none => exact hrow
  | some status =>
    have h := @find_update_self s id (fun r => ([] : List (String × String)) = [] ∨
      ∃ sc ∈ ([] : List (String × String)), r.scopeType = some sc.1 ∧ r.scopeId = some sc.2)
      (FieldParams.apply ⟨none, none, some status, none, none, none, none, none⟩ now) row
      (fun _ => rfl) hrow
    exact h.trans (by rw [if_pos (by simp)])

theorem find_writeStatus_of_ne {status : Option TriggerStatus} {now : String} (hid : id' ≠ id) :
    Table.find Trigger.id (writeStatus s id status now).rows id' = Table.find Trigger.id s.rows id' := by
  cases status with
  | none => rfl
  | some status => exact find_update_of_ne (fun _ => rfl) hid

theorem find_updateRunResult_of_ne {u : RunResult} {now : String} (hid : id' ≠ id) :
    Table.find Trigger.id (updateRunResult s id u now).rows id' = Table.find Trigger.id s.rows id' :=
  find_update_of_ne (fun _ => rfl) hid

theorem find_recordTaskRun_of_ne {c : Calendar} {result : String} {status : RunStatus}
    {byHand keepSchedule noRetry : Bool} {now : String} {out : Bool × Store} (hid : id' ≠ id)
    (h : recordTaskRun c s id result status byHand keepSchedule noRetry now = some out) :
    Table.find Trigger.id out.2.rows id' = Table.find Trigger.id s.rows id' := by
  unfold recordTaskRun at h
  split at h
  · rw [← Option.some.inj h]
  · split_ifs at h
    · rw [← Option.some.inj h]
      exact find_updateRunResult_of_ne hid
    · obtain ⟨r, -, rfl⟩ := Option.map_eq_some_iff.mp h
      exact (find_updateRunResult_of_ne hid).trans (find_writeStatus_of_ne hid)

/-- Whether a trigger can fire : it is neither completed nor waiting. -/
def canFire (t : Trigger) : Bool :=
  t.status ≠ .completed && t.status ≠ .waiting

/-- The end of a run of a trigger that can fire moves its next run beyond the time it is recorded
at, clears it, or completes the trigger. -/
theorem runEnd_moves {c : Calendar} {task : Trigger} {status : RunStatus} {noRetry : Bool}
    {now : String} {r : RunEnd} (hlive : canFire task = true)
    (h : runEnd c task status noRetry now = some r) :
    (∃ n, r.nextRunAt = some n ∧ ∀ t ∈ n, now < t) ∨ r.status = some .completed := by
  unfold runEnd at h
  split at h
  · obtain ⟨next, hnext, rfl⟩ := Option.map_eq_some_iff.mp h
    exact Or.inl ⟨_, rfl, fun t ht => by
      rw [← Option.some.inj ht]
      exact c.lt_nextOccurrence _ _ _ hnext⟩
  · rename_i watchConfig _ _
    rw [← Option.some.inj h]
    exact Or.inl ⟨_, rfl, fun t ht => by
      rw [← Option.some.inj ht]
      exact c.lt_afterInterval _ _⟩
  · rw [← Option.some.inj h]
    split_ifs with hretry hsuccess hwrite
    · exact Or.inl ⟨_, rfl, fun t ht => by
        rw [← Option.some.inj ht]
        exact c.lt_afterBackoff _ _⟩
    · exact Or.inr rfl
    · refine absurd ?_ hwrite
      simp only [canFire, Bool.and_eq_true] at hlive
      simp [mayWriteStatus, hsuccess]
      simpa using hlive.2
    all_goals exact Or.inl ⟨none, rfl, fun t ht => absurd ht (by simp)⟩

/-- The row of a trigger after a run of it is recorded : its lease, source and effect are as they
were, and its next run is later or it fires no more. -/
theorem find_recordTaskRun {c : Calendar} {result : String} {status : RunStatus} {noRetry : Bool}
    {now : String} {out : Bool × Store} (hrow : Table.find Trigger.id s.rows id = some row)
    (hsource : row.source ≠ .webhook)
    (h : recordTaskRun c s id result status false false noRetry now = some out) :
    ∃ row', Table.find Trigger.id out.2.rows id = some row' ∧
      row'.leaseHolder = row.leaseHolder ∧ row'.leaseSince = row.leaseSince ∧
      row'.source = row.source ∧ row'.effect = row.effect ∧
      (canFire row = true → ∀ n ∈ row'.nextRunAt, now < n ∨ canFire row' = false) := by
  unfold recordTaskRun at h
  rw [hrow] at h
  simp only [hsource, decide_false, Bool.or_self, Bool.false_eq_true, if_false] at h
  obtain ⟨r, hr, rfl⟩ := Option.map_eq_some_iff.mp h
  have hstatus := @find_writeStatus s id row r.status now hrow
  refine ⟨_, find_update_self (fun _ => rfl) hstatus, ?_, ?_, ?_, ?_, fun hlive n hn => ?_⟩
  · cases r.status <;> rfl
  · cases r.status <;> rfl
  · cases r.status <;> rfl
  · cases r.status <;> rfl
  · rcases runEnd_moves hlive hr with ⟨next, hnext, hlater⟩ | hcompleted
    · left
      simp only [hnext, if_true, Option.getD_some] at hn
      exact hlater n hn
    · right
      rw [hcompleted]
      rfl

end Rows

end Lynox.Triggers
