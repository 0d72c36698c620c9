import Lynox.Triggers.Ticks

/-!
# An occurrence is started at most once

What the processes do with one trigger is a schedule of occurrences (`World.view`) : every step of
theirs is a step of it, or leaves it as it is, where three conditions hold (`Kept`). A lease is
claimed only while the trigger is still armed with the due time the tick listed it at; the end of a
run can be recorded; and a lost run is recorded under the lease it was claimed with. So in every
run that keeps them no occurrence is started twice, and none that was started and not recorded is
claimed as new (`started_at_most_once`).

The code checks none of the three. A tick that listed a trigger before another process ran it claims
its lease after that run and starts it again (`listed_and_started_twice`).
-/

namespace Lynox.Triggers

namespace World

/-- What the processes do with one trigger. -/
def view (w : World) (id : String) : Occurrences String String where
  now := w.now
  next := (w.row id).bind Trigger.nextRunAt
  live := (w.row id).any canFire
  holder := (w.row id).bind Trigger.leaseHolder
  since := (w.row id).bind Trigger.leaseSince
  mode := fun h => (w.engines h).modeOf id
  started := (w.started.filter (·.1 = id)).map Prod.snd
  recorded := (w.recorded.filter (·.1 = id)).map Prod.snd

/-- Time goes on, and no live run's lease has lapsed. -/
def Fair (id : String) (w : World) (e : TickEvent) : Prop :=
  (∀ now, e = .advance now → w.now ≤ now) ∧
    ((∃ h, (w.view id).Runs h) → ∀ row, w.row id = some row →
      row.leaseUntil.any (w.now < ·) = true)

/-- A trigger that is taken with no live lease on it is still armed with the due time it was listed
at, a cron expression has an occurrence after a run of it ends, and a lost run is recorded under its
lease. -/
def Kept (c : Calendar) (id : String) (w : World) : TickEvent → Prop
  | .pick holder _ _ => ∀ t due, (w.engines holder).due = t :: due → t.id = id →
      ∀ row, w.row id = some row → row.leaseUntil.any (w.now < ·) = false →
        armed w.store.planPauseOn row = true ∧ row.nextRunAt = t.nextRunAt
  | .record holder id' _ _ _ => id' = id → (∃ v, (w.engines holder).tasks id = .running v) →
      ∀ row, w.row id = some row → ∀ cron, orNull (row.condition.scheduleCron.getD "") = some cron →
        (c.nextOccurrence cron w.now).isSome
  | .recordInterrupted holder _ => ∀ t, (w.engines holder).pending = some t → t.id = id →
      ∀ row, w.row id = some row → row.leaseHolder = some holder
  | _ => True

/-- The trigger is there with its effect, no webhook, and every tick listed it at a due time. -/
structure Bound (id : String) (effect : TriggerEffect) (w : World) : Prop where
  keyed : w.store.Keyed
  row : ∃ row, w.row id = some row ∧ row.effect = effect ∧ row.source ≠ .webhook
  due : ∀ h t, t ∈ (w.engines h).due → t.id = id →
    t.effect = effect ∧ ∃ v, t.nextRunAt = some v ∧ v ≤ w.now

/-! ## Statements and the view of a trigger -/

section View

variable {w : World} {h id id' : String} {m : Mode String}

theorem engines_update {f : Engine → Engine} (h' : String) :
    (w.update h f).engines h' = if h' = h then f (w.engines h) else w.engines h' :=
  Function.update_apply _ _ _ _

/-- A change of what a tick lists or has pending. -/
theorem view_update {f : Engine → Engine}
    (hmode : (f (w.engines h)).modeOf id = (w.engines h).modeOf id) :
    (w.update h f).view id = w.view id := by
  refine Occurrences.ext rfl rfl rfl rfl rfl (funext fun h' => ?_) rfl rfl
  show ((w.update h f).engines h').modeOf id = (w.engines h').modeOf id
  rw [engines_update]
  split_ifs with hh
  · rw [hh, hmode]
  · rfl

/-- A change of what a tick has pending. -/
theorem view_update_of {f : Engine → Engine}
    (hf : ∀ e, (f e).due = e.due ∧ (f e).tasks = e.tasks ∧ (f e).alive = e.alive) :
    (w.update h f).view id = w.view id := by
  refine view_update ?_
  rw [Engine.modeOf, Engine.modeOf, (hf _).2.1, (hf _).2.2]

theorem view_setTask_of_ne (hid : id ≠ id') : (w.setTask h id' m).view id = w.view id := by
  refine view_update ?_
  unfold Engine.modeOf
  simp only [Function.update_of_ne hid]

theorem view_setTask (halive : (w.engines h).alive = true) :
    (w.setTask h id m).view id = (w.view id).setMode h m := by
  refine Occurrences.ext rfl rfl rfl rfl rfl (funext fun h' => ?_) rfl rfl
  show ((w.setTask h id m).engines h').modeOf id =
    Function.update (fun h => (w.engines h).modeOf id) h m h'
  rw [World.setTask, engines_update, Function.update_apply]
  split_ifs with hh
  · unfold Engine.modeOf
    simp only [halive, if_true, Function.update_self]
  · rfl

theorem view_store {s : Store} (hrow : Table.find Trigger.id s.rows id = w.row id) :
    ({ w with store := s } : World).view id = w.view id := by
  unfold view World.row
  simp only [hrow]
  rfl

theorem mode_view (halive : (w.engines h).alive = true) :
    (w.view id).mode h = (w.engines h).tasks id := by
  show (w.engines h).modeOf id = _
  rw [Engine.modeOf, halive, if_pos rfl]

section Row

variable {row : Trigger} (hrow : w.row id = some row)

include hrow

theorem next_view : (w.view id).next = row.nextRunAt := by
  show (w.row id).bind _ = _
  rw [hrow]
  rfl

theorem live_view : (w.view id).live = canFire row := by
  show (w.row id).any _ = _
  rw [hrow]
  rfl

theorem holder_view : (w.view id).holder = row.leaseHolder := by
  show (w.row id).bind _ = _
  rw [hrow]
  rfl

theorem since_view : (w.view id).since = row.leaseSince := by
  show (w.row id).bind _ = _
  rw [hrow]
  rfl

end Row

/-- The view of a trigger with another row. -/
theorem view_of_row {s : Store} {row : Trigger} (hrow : Table.find Trigger.id s.rows id = some row) :
    ({ w with store := s } : World).view id =
      { w.view id with
        next := row.nextRunAt, live := canFire row, holder := row.leaseHolder,
        since := row.leaseSince } := by
  unfold view World.row
  simp only [hrow]
  rfl

theorem view_started (v : String) : ({ w with started := (id', v) :: w.started } : World).view id =
    if id' = id then { w.view id with started := v :: (w.view id).started } else w.view id := by
  split_ifs with hid <;>
    exact Occurrences.ext rfl rfl rfl rfl rfl rfl (by simp [view, hid]) rfl

theorem view_recorded (v : String) : ({ w with recorded := (id', v) :: w.recorded } : World).view id =
    if id' = id then { w.view id with recorded := v :: (w.view id).recorded } else w.view id := by
  split_ifs with hid <;>
    exact Occurrences.ext rfl rfl rfl rfl rfl rfl rfl (by simp [view, hid])

end View

/-! ## Every statement is a step of the schedule -/

/-- A statement that keeps what is known of the trigger, and is a step of its schedule or none. -/
def Moves (id : String) (effect : TriggerEffect) (w w' : World) : Prop :=
  Bound id effect w' ∧ (w'.view id = w.view id ∨ Occurrences.Step (w.view id) (w'.view id))

section Steps

variable {w : World} {c : Calendar} {h id : String} {effect : TriggerEffect}

/-- What a statement that leaves the trigger's row as it is, and lists nothing, keeps. -/
theorem Bound.of_same {w' : World} (b : Bound id effect w) (hkeyed : w'.store.Keyed)
    (hnow : w.now ≤ w'.now) (hrow : w'.row id = w.row id)
    (hdue : ∀ h t, t ∈ (w'.engines h).due → t ∈ (w.engines h).due) : Bound id effect w' where
  keyed := hkeyed
  row := by rw [hrow]; exact b.row
  due h t ht hid := by
    obtain ⟨heff, v, hv, hle⟩ := b.due h t (hdue h t ht) hid
    exact ⟨heff, v, hv, le_trans hle hnow⟩

/-- A change of one process that lists nothing. -/
theorem due_update {f : Engine → Engine} (hf : ∀ t, t ∈ (f (w.engines h)).due → t ∈ (w.engines h).due)
    (h' : String) (t : Trigger) (ht : t ∈ ((w.update h f).engines h').due) :
    t ∈ (w.engines h').due := by
  rw [engines_update] at ht
  split_ifs at ht with hh
  · rw [hh]
    exact hf t ht
  · exact ht

theorem due_setTask {id' : String} {m : Mode String} (h' : String) :
    ((w.setTask h id' m).engines h').due = (w.engines h').due := by
  rw [World.setTask, engines_update]
  split_ifs with hh
  · rw [hh]
  · rfl

theorem moves_advance (b : Bound id effect w) {now : String} (hnow : w.now ≤ now) :
    Moves id effect w { w with now := now } :=
  ⟨b.of_same b.keyed hnow rfl fun _ _ ht => ht, Or.inr (.pass hnow)⟩

theorem mem_getDue {s : Store} {now : String} {t : Trigger} (ht : t ∈ getDue s now) :
    t ∈ s.rows ∧ armed s.planPauseOn t = true ∧ t.nextRunAt.any (· ≤ now) = true := by
  rw [getDue, List.mem_insertionSort, List.mem_filter] at ht
  simp only [Bool.and_eq_true] at ht
  exact ⟨ht.1, ht.2.1.1, ht.2.1.2⟩

theorem moves_list (b : Bound id effect w) : Moves id effect w (w.list h) := by
  unfold World.list
  simp only
  split_ifs
  · refine ⟨⟨b.keyed, b.row, fun h' t ht hid => ?_⟩, Or.inl (view_update rfl)⟩
    rw [engines_update] at ht
    split_ifs at ht with hh
    · obtain ⟨hmem, -, hdue⟩ := mem_getDue (List.mem_filter.mp ht).1
      obtain ⟨row, hrow, heff, -⟩ := b.row
      have hfind := Table.find_of_mem b.keyed hmem
      rw [hid, show Table.find Trigger.id w.store.rows id = some row from hrow] at hfind
      obtain ⟨v, hv, hle⟩ := (Option.any_eq_true _ _).mp hdue
      rw [← Option.some.inj hfind]
      refine ⟨heff, v, ?_, of_decide_eq_true hle⟩
      rw [Option.some.inj hfind]
      exact hv
    · exact b.due h' t ht hid
  · exact ⟨b, Or.inl rfl⟩

/-! ## Ids stay keys -/

theorem keyed_claimLease {s : Store} {id' until' now : String} (hs : s.Keyed) :
    (claimLease s id' h until' now).2.Keyed :=
  @keyed_perform s ⟨id', ⟨.claim h until', now⟩⟩ hs

theorem keyed_recordTaskRun {s : Store} {id' result now : String} {status : RunStatus}
    {byHand keepSchedule noRetry : Bool} {out : Bool × Store} (hs : s.Keyed)
    (hout : recordTaskRun c s id' result status byHand keepSchedule noRetry now = some out) :
    out.2.Keyed := by
  have hwrite : ∀ st : Option TriggerStatus, (writeStatus s id' st now).Keyed := by
    intro st
    cases st with
    | none => exact hs
    | some st => exact keyed_update hs fun _ => rfl
  unfold recordTaskRun at hout
  split at hout
  · rw [← Option.some.inj hout]
    exact hs
  · split_ifs at hout
    · rw [← Option.some.inj hout]
      exact keyed_update hs fun _ => rfl
    · obtain ⟨r, -, rfl⟩ := Option.map_eq_some_iff.mp hout
      exact keyed_update (hwrite r.status) fun _ => rfl

/-! ## The next listed trigger -/

theorem canFire_of_armed {on : Bool} {row : Trigger} (ha : armed on row = true) :
    canFire row = true := by
  simp only [armed, accepts, unheld, Bool.and_eq_true] at ha
  simp only [canFire, Bool.and_eq_true]
  exact ⟨ha.2.1.1.1.1.1.1.2, ha.2.1.1.1.1.1.2⟩

theorem unsettled_iff {row : Trigger} (hrow : w.row id = some row) :
    (w.view id).Unsettled ↔ lostRun row = true := by
  unfold Occurrences.Unsettled lostRun
  simp only [view, hrow, Option.bind_some, Bool.and_eq_true, Option.any_eq_true, decide_eq_true_eq]
  constructor
  · rintro ⟨hh, t, v, ht, hv, hle⟩
    exact ⟨hh, t, ht, v, hv, hle⟩
  · rintro ⟨hh, t, ht, v, hv, hle⟩
    exact ⟨hh, t, v, ht, hv, hle⟩

/-- Taking a listed trigger, whose lease is claimed on the row as it is. -/
theorem moves_take (b : Bound id effect w) (heffect : resumesAfterLoss effect = false)
    (halive : (w.engines h).alive = true) {t : Trigger} {until' : String}
    (hlisted : t.id = id → t.effect = effect ∧ ∃ v, t.nextRunAt = some v ∧ v ≤ w.now)
    (hfair : (∃ h', (w.view id).Runs h') → ∀ row, w.row id = some row →
      row.leaseUntil.any (w.now < ·) = true)
    (hkept : t.id = id → ∀ row, w.row id = some row → row.leaseUntil.any (w.now < ·) = false →
      armed w.store.planPauseOn row = true ∧ row.nextRunAt = t.nextRunAt) :
    Moves id effect w (w.take h t (claimLease w.store t.id h until' w.now)) := by
  unfold World.take
  have hkeyed : (claimLease w.store t.id h until' w.now).2.Keyed := keyed_claimLease b.keyed
  have hpending : ∀ m : Mode String, ∀ h' t', t' ∈ (((({ w with
      store := (claimLease w.store t.id h until' w.now).2 } : World).update h fun e =>
        { e with pending := some t }).setTask h t.id m).engines h').due → t' ∈ (w.engines h').due := by
    intro m h' t' ht'
    rw [due_setTask] at ht'
    exact @due_update { w with store := (claimLease w.store t.id h until' w.now).2 } h _ (fun _ ht => ht)
      h' t' ht'
  have hstarted : ∀ m : Mode String, ∀ h' t', t' ∈ ((({ w with
      store := (claimLease w.store t.id h until' w.now).2 } : World).setTask h t.id m).engines h').due →
        t' ∈ (w.engines h').due := by
    intro m h' t' ht'
    rw [due_setTask] at ht'
    exact ht'
  by_cases hid : t.id = id
  · obtain ⟨row, hrow, heff, hsource⟩ := b.row
    obtain ⟨hteff, v, hv, hle⟩ := hlisted hid
    rw [hid] at hkeyed hpending hstarted ⊢
    rcases @claimLease_of_find w.store id row h until' w.now hrow with ⟨-, hheld⟩ | ⟨hfree, hclaim, hrow'⟩
    · rw [hheld, if_pos (Or.inl rfl)]
      exact ⟨b, Or.inl rfl⟩
    · obtain ⟨harmed, hnext⟩ := hkept hid row hrow hfree
      have hruns : ∀ h', ¬ (w.view id).Runs h' := by
        intro h' hr
        rw [hfair ⟨h', hr⟩ row hrow] at hfree
        exact absurd hfree (by decide)
      have hvnext : (w.view id).next = some v := by
        rw [next_view hrow, hnext, hv]
      have hlive : (w.view id).live = true := by
        rw [live_view hrow]
        exact canFire_of_armed harmed
      have hocc : occurrence t = v := by
        rw [occurrence, hv]
        rfl
      have hbound : ∀ w' : World, w'.store = (claimLease w.store id h until' w.now).2 → w'.now = w.now →
          (∀ h' t', t' ∈ (w'.engines h').due → t' ∈ (w.engines h').due) → Bound id effect w' := by
        intro w' hstore hnow hlist
        refine ⟨by rw [hstore]; exact hkeyed, ?_, fun h' t' ht' hid' => ?_⟩
        · have hrow'' : w'.row id = _ := (congrArg (fun s : Store => Table.find Trigger.id s.rows id)
            hstore).trans hrow'
          exact ⟨_, hrow'', heff, hsource⟩
        · rw [hnow]
          exact b.due h' t' (hlist h' t' ht') hid'
      have hview : ∀ (w' : World) (m : Mode String), (w'.engines h).alive = true →
          w'.view id = ({ w with store := (claimLease w.store id h until' w.now).2 } : World).view id →
          (w'.setTask h id m).view id = (w.view id).take h m := by
        intro w' m halive' hview'
        rw [view_setTask halive', hview', view_of_row hrow']
        exact Occurrences.ext rfl (next_view hrow).symm (live_view hrow).symm rfl rfl rfl rfl rfl
      rw [if_neg (by rw [hclaim]; split_ifs <;> simp), hteff, heffect, hclaim, hocc]
      by_cases hlost : lostRun row = true
      · rw [if_pos hlost, if_pos ⟨rfl, rfl⟩]
        refine ⟨hbound _ rfl rfl (hpending _), Or.inr ?_⟩
        rw [hview _ _ ?_ (view_update rfl)]
        · exact .interrupt hruns hvnext hlive hle
        · rw [engines_update, if_pos rfl]
          exact halive
      · rw [if_neg hlost, if_neg (by simp)]
        refine ⟨hbound _ rfl rfl (hstarted _), Or.inr ?_⟩
        have hstart := @view_started ({ w with
          store := (claimLease w.store id h until' w.now).2 }.setTask h id (.running v)) id id v
        have htake := hview { w with store := (claimLease w.store id h until' w.now).2 }
            (.running v) halive rfl
        rw [if_pos rfl, htake] at hstart
        refine hstart ▸ ?_
        exact .start hruns hvnext hlive hle fun hunsettled => hlost ((unsettled_iff hrow).mp hunsettled)
  · have hrow : Table.find Trigger.id (claimLease w.store t.id h until' w.now).2.rows id = w.row id :=
      find_claimLease_of_ne (Ne.symm hid)
    have hne : id ≠ t.id := Ne.symm hid
    split_ifs
    · exact ⟨b, Or.inl rfl⟩
    · refine ⟨b.of_same hkeyed le_rfl hrow (hpending _), Or.inl ?_⟩
      rw [view_setTask_of_ne hne, view_update rfl, view_store hrow]
    · refine ⟨b.of_same hkeyed le_rfl hrow (hstarted _), Or.inl ?_⟩
      have hstart := @view_started ({ w with
        store := (claimLease w.store t.id h until' w.now).2 }.setTask h t.id
          (.running (occurrence t))) id t.id
          (occurrence t)
      rw [if_neg hid, view_setTask_of_ne hne, view_store hrow] at hstart
      exact hstart

theorem moves_pick (b : Bound id effect w) (heffect : resumesAfterLoss effect = false) {budget : Bool}
    {until' : String} (hfair : Fair id w (.pick h budget until'))
    (hkept : Kept c id w (.pick h budget until')) : Moves id effect w (w.pick h budget until') := by
  unfold World.pick
  simp only
  split
  · exact ⟨b, Or.inl rfl⟩
  · rename_i t due hdue
    by_cases hopen : ((w.engines h).alive && (w.engines h).pending.isNone) = true
    · rw [if_pos hopen]
      have halive := (Bool.and_eq_true _ _ ▸ hopen).1
      have hpassed : Bound id effect (w.update h fun e => { e with due := due }) := by
        refine b.of_same b.keyed le_rfl rfl (due_update fun t' ht' => ?_)
        rw [hdue]
        exact List.mem_cons_of_mem t ht'
      have hview : (w.update h fun e => { e with due := due }).view id = w.view id := view_update rfl
      split_ifs
      · exact ⟨hpassed, Or.inl hview⟩
      · have hmoves := @moves_take _ h id effect hpassed heffect
          (by rw [engines_update, if_pos rfl]; exact halive) t until'
          (b.due h t (by rw [hdue]; exact List.mem_cons_self))
          (by rw [hview]; exact hfair.2) (hkept t due hdue)
        rw [Moves, hview] at hmoves
        exact hmoves
    · rw [if_neg hopen]
      exact ⟨b, Or.inl rfl⟩

/-! ## The end of a run -/

/-- The end of a run is written to the row of its trigger. -/
theorem moves_settle (b : Bound id effect w) (halive : (w.engines h).alive = true) {id' result v : String}
    {status : RunStatus} {noRetry : Bool} {out : Bool × Store} {m : Mode String}
    (hout : recordTaskRun c w.store id' result status false false noRetry w.now = some out) :
    let w' : World := { { w with store := out.2 }.setTask h id' m with recorded := (id', v) :: w.recorded }
    Bound id effect w' ∧ (id' ≠ id → w'.view id = w.view id) ∧ (id' = id → ∃ next live,
      w'.view id = (w.view id).settle h v m next live ∧
        ((w.view id).live = true → ∀ n ∈ next, w.now < n ∨ live = false)) := by
  intro w'
  have hkeyed : out.2.Keyed := keyed_recordTaskRun b.keyed hout
  have hdue : ∀ h' t, t ∈ (w'.engines h').due → t ∈ (w.engines h').due := by
    intro h' t ht
    have hset := @due_setTask { w with store := out.2 } h id' m h'
    exact (hset ▸ ht : t ∈ (w.engines h').due)
  have hview := @view_recorded ({ w with store := out.2 }.setTask h id' m) id id' v
  by_cases hid : id' = id
  · rw [hid] at hout hview
    obtain ⟨row, hrow, heff, hsource⟩ := b.row
    obtain ⟨row', hrow', hholder, hsince, hsource', heff', hmoves⟩ := find_recordTaskRun hrow hsource hout
    refine ⟨⟨hkeyed, ⟨row', hrow', heff'.trans heff, by rw [hsource']; exact hsource⟩, fun h' t ht =>
      b.due h' t (hdue h' t ht)⟩, fun hne => absurd hid hne, fun _ =>
        ⟨row'.nextRunAt, canFire row', ?_, ?_⟩⟩
    · have hset := @view_setTask { w with store := out.2 } h id m halive
      rw [if_pos rfl, hset, view_of_row hrow'] at hview
      show w'.view id = _
      have hw' : w' =
          { { w with store := out.2 }.setTask h id m with recorded := (id, v) :: w.recorded } := by
        rw [← hid]
      rw [hw']
      exact hview.trans (Occurrences.ext rfl rfl rfl (hholder.trans (holder_view hrow).symm)
        (hsince.trans (since_view hrow).symm) rfl rfl rfl)
    · intro hlive
      rw [live_view hrow] at hlive
      exact hmoves hlive
  · have hrow : Table.find Trigger.id out.2.rows id = w.row id :=
      find_recordTaskRun_of_ne (Ne.symm hid) hout
    refine ⟨b.of_same hkeyed le_rfl hrow hdue, fun _ => ?_, fun he => absurd he hid⟩
    rw [if_neg hid, view_setTask_of_ne (Ne.symm hid), view_store hrow] at hview
    exact hview

/-- A run of a trigger is recorded where its cron expression, if it has one, has an occurrence. -/
theorem recordTaskRun_isSome {s : Store} {row : Trigger} {now : String}
    (hcron : ∀ cron, orNull (row.condition.scheduleCron.getD "") = some cron →
      (c.nextOccurrence cron now).isSome)
    (hrow : Table.find Trigger.id s.rows id = some row) (result : String) (status : RunStatus)
    (noRetry : Bool) : (recordTaskRun c s id result status false false noRetry now).isSome := by
  unfold recordTaskRun
  rw [hrow]
  simp only
  split_ifs
  · rfl
  · rw [Option.isSome_map, runEnd]
    split
    · rename_i cron hsome
      rw [Option.isSome_map]
      exact hcron cron hsome
    · rfl
    · rfl

theorem moves_setTask_idle (b : Bound id effect w) (halive : (w.engines h).alive = true) {id' : String}
    {f : Engine → Engine} (hf : ∀ e, (f e).due = e.due ∧ (f e).tasks = e.tasks ∧ (f e).alive = e.alive) :
    Moves id effect w ((w.update h f).setTask h id' .idle) := by
  have hbound : Bound id effect ((w.update h f).setTask h id' .idle) := by
    refine b.of_same b.keyed le_rfl rfl fun h' t ht => ?_
    rw [due_setTask] at ht
    exact due_update (fun t ht => (hf _).1 ▸ ht) h' t ht
  have hview : (w.update h f).view id = w.view id := view_update_of hf
  refine ⟨hbound, ?_⟩
  by_cases hid : id' = id
  · rw [hid, view_setTask (by rw [engines_update, if_pos rfl, (hf _).2.2]; exact halive), hview]
    exact Or.inr .leave
  · rw [view_setTask_of_ne (Ne.symm hid), hview]
    exact Or.inl rfl

theorem moves_recordInterrupted (b : Bound id effect w) {result : String}
    (hkept : Kept c id w (.recordInterrupted h result)) :
    Moves id effect w (w.recordInterrupted c h result) := by
  unfold World.recordInterrupted
  simp only
  split
  · exact ⟨b, Or.inl rfl⟩
  · rename_i t hpending
    split
    · rename_i v halive hmode
      split
      · exact moves_setTask_idle b halive fun _ => ⟨rfl, rfl, rfl⟩
      · rename_i out hout
        obtain ⟨hbound, hother, hself⟩ := moves_settle (v := v) (m := .releasing) b halive hout
        refine ⟨hbound, ?_⟩
        by_cases hid : t.id = id
        · obtain ⟨next, live, hview, hmoves⟩ := hself hid
          obtain ⟨row, hrow, -⟩ := b.row
          rw [hview]
          refine Or.inr (.recordLost ?_ ?_ hmoves)
          · rw [mode_view halive, ← hid]
            exact hmode
          · rw [holder_view hrow]
            exact hkept t hpending hid row hrow
        · exact Or.inl (hother hid)
    · exact ⟨b, Or.inl rfl⟩

theorem moves_record (b : Bound id effect w) {id' result : String} {status : RunStatus} {noRetry : Bool}
    (hkept : Kept c id w (.record h id' result status noRetry)) :
    Moves id effect w (w.record c h id' result status noRetry) := by
  unfold World.record
  split
  · rename_i v halive hmode
    split
    · rename_i hthrows
      by_cases hid : id' = id
      · rw [hid] at hthrows hmode
        obtain ⟨row, hrow, -⟩ := b.row
        have hrecorded := recordTaskRun_isSome (hkept hid ⟨v, hmode⟩ row hrow) hrow result status noRetry
        rw [hthrows] at hrecorded
        exact absurd hrecorded (by decide)
      · refine ⟨b.of_same b.keyed le_rfl rfl fun h' t ht => ?_, Or.inl (view_setTask_of_ne (Ne.symm hid))⟩
        rw [due_setTask] at ht
        exact ht
    · rename_i out hout
      obtain ⟨hbound, hother, hself⟩ := moves_settle (v := v) (m := .ran) b halive hout
      refine ⟨hbound, ?_⟩
      by_cases hid : id' = id
      · obtain ⟨next, live, hview, hmoves⟩ := hself hid
        rw [hview]
        refine Or.inr (.record ?_ hmoves)
        rw [mode_view halive, ← hid]
        exact hmode
      · exact Or.inl (hother hid)
  · exact ⟨b, Or.inl rfl⟩

/-! ## Leases given up and kept -/

theorem keyed_releaseLease {s : Store} {id' holder : String} (hs : s.Keyed) :
    (releaseLease s id' holder).Keyed :=
  keyed_update hs fun _ => rfl

theorem moves_giveUp (b : Bound id effect w) (halive : (w.engines h).alive = true) {id' : String}
    (hmode : (w.engines h).tasks id' = .ran ∨ (w.engines h).tasks id' = .releasing)
    {f : Engine → Engine} (hf : ∀ e, (f e).due = e.due ∧ (f e).tasks = e.tasks ∧ (f e).alive = e.alive) :
    Moves id effect w
      (({ w with store := releaseLease w.store id' h }.update h f).setTask h id' .idle) := by
  have hkeyed : (releaseLease w.store id' h).Keyed := keyed_releaseLease b.keyed
  have hdue : ∀ h' t, t ∈ (((({ w with store := releaseLease w.store id' h } : World).update h f).setTask h
      id' .idle).engines h').due → t ∈ (w.engines h').due := by
    intro h' t ht
    rw [due_setTask] at ht
    exact @due_update { w with store := releaseLease w.store id' h } h f (fun t ht => (hf _).1 ▸ ht) h' t ht
  have hupdate : (({ w with store := releaseLease w.store id' h } : World).update h f).view id =
      ({ w with store := releaseLease w.store id' h } : World).view id := view_update_of hf
  by_cases hid : id' = id
  · rw [hid] at hkeyed hdue hupdate hmode ⊢
    obtain ⟨row, hrow, heff, hsource⟩ := b.row
    have hrow' : Table.find Trigger.id (releaseLease w.store id h).rows id = _ :=
      find_update_self (fun _ => rfl) hrow
    refine ⟨⟨hkeyed, ⟨_, hrow', ?_, ?_⟩, fun h' t ht => b.due h' t (hdue h' t ht)⟩, Or.inr ?_⟩
    · split_ifs
      · exact heff
      · exact heff
    · split_ifs
      · exact hsource
      · exact hsource
    · have hgive : ((({ w with store := releaseLease w.store id h } : World).update h f).setTask h id
          .idle).view id = (w.view id).giveUp h := by
        rw [view_setTask (by rw [engines_update, if_pos rfl, (hf _).2.2]; exact halive), hupdate,
          view_of_row hrow']
        unfold Occurrences.giveUp
        rw [holder_view hrow]
        simp only [decide_eq_true_eq]
        split_ifs
        · exact Occurrences.ext rfl (next_view hrow).symm (live_view hrow).symm rfl rfl rfl rfl rfl
        · exact Occurrences.ext rfl (next_view hrow).symm (live_view hrow).symm (holder_view hrow).symm
            (since_view hrow).symm rfl rfl rfl
      rw [hgive]
      refine .giveUp ?_
      rw [mode_view halive]
      exact hmode
  · have hrow : Table.find Trigger.id (releaseLease w.store id' h).rows id = w.row id :=
      find_update_of_ne (fun _ => rfl) (Ne.symm hid)
    refine ⟨b.of_same hkeyed le_rfl hrow hdue, Or.inl ?_⟩
    rw [view_setTask_of_ne (Ne.symm hid), hupdate, view_store hrow]

theorem moves_releaseInterrupted (b : Bound id effect w) : Moves id effect w (w.releaseInterrupted h) := by
  unfold World.releaseInterrupted
  simp only
  split
  · exact ⟨b, Or.inl rfl⟩
  · split
    · rename_i halive hmode
      exact moves_giveUp b halive (Or.inr hmode) fun _ => ⟨rfl, rfl, rfl⟩
    · exact ⟨b, Or.inl rfl⟩

theorem moves_release (b : Bound id effect w) {id' : String} : Moves id effect w (w.release h id') := by
  unfold World.release
  split
  · rename_i halive hmode
    have hmoves := moves_giveUp (f := fun e => e) b halive (Or.inl hmode) fun _ => ⟨rfl, rfl, rfl⟩
    have hsame : ({ w with store := releaseLease w.store id' h } : World).update h (fun e => e) =
        { w with store := releaseLease w.store id' h } := by
      rw [World.update, Function.update_eq_self]
    rw [hsame] at hmoves
    exact hmoves
  · exact ⟨b, Or.inl rfl⟩

/-- A heartbeat moves the end of the lease alone. -/
theorem moves_renew (b : Bound id effect w) {id' until' : String} :
    Moves id effect w (w.renew h id' until') := by
  unfold World.renew
  split_ifs
  · have hkeyed : (renewLease w.store id' h until').2.Keyed := keyed_update b.keyed fun _ => rfl
    by_cases hid : id = id'
    · rw [← hid] at hkeyed ⊢
      obtain ⟨row, hrow, heff, hsource⟩ := b.row
      have hrow' : Table.find Trigger.id (renewLease w.store id h until').2.rows id = _ :=
        find_update_self (fun _ => rfl) hrow
      refine ⟨⟨hkeyed, ⟨_, hrow', ?_, ?_⟩, b.due⟩, Or.inl ?_⟩
      · split_ifs <;> exact heff
      · split_ifs <;> exact hsource
      · rw [view_of_row hrow']
        refine Occurrences.ext rfl (Eq.trans ?_ (next_view hrow).symm) (Eq.trans ?_ (live_view hrow).symm)
          (Eq.trans ?_ (holder_view hrow).symm) (Eq.trans ?_ (since_view hrow).symm) rfl rfl rfl
        all_goals split_ifs <;> rfl
    · have hrow : Table.find Trigger.id (renewLease w.store id' h until').2.rows id = w.row id :=
        find_update_of_ne (fun _ => rfl) hid
      exact ⟨b.of_same hkeyed le_rfl hrow fun _ _ ht => ht, Or.inl (view_store hrow)⟩
  · exact ⟨b, Or.inl rfl⟩

theorem moves_die (b : Bound id effect w) : Moves id effect w (w.die h) := by
  refine ⟨b.of_same b.keyed le_rfl rfl (due_update fun t ht => absurd ht (by simp)), Or.inr ?_⟩
  have hview : (w.die h).view id = (w.view id).setMode h .idle := by
    refine Occurrences.ext rfl rfl rfl rfl rfl (funext fun h' => ?_) rfl rfl
    show ((w.die h).engines h').modeOf id = Function.update (fun h => (w.engines h).modeOf id) h .idle h'
    rw [World.die, engines_update, Function.update_apply]
    split_ifs <;> rfl
  rw [hview]
  exact .leave

/-- Every event, where what it is read at is still so, is a step of the trigger's schedule or none. -/
theorem moves_step (heffect : resumesAfterLoss effect = false) {e : TickEvent} (b : Bound id effect w)
    (hfair : Fair id w e) (hkept : Kept c id w e) : Moves id effect w (w.step c e) := by
  cases e with
  | advance now => exact moves_advance b (hfair.1 now rfl)
  | list holder => exact moves_list b
  | pick holder budget until' => exact moves_pick b heffect hfair hkept
  | recordInterrupted holder result => exact moves_recordInterrupted b hkept
  | releaseInterrupted holder => exact moves_releaseInterrupted b
  | record holder id' result status noRetry => exact moves_record b hkept
  | release holder id' => exact moves_release b
  | renew holder id' until' => exact moves_renew b
  | die holder => exact moves_die b

end Steps

/-! ## Runs -/

/-- What is known of a trigger in every state of a run. -/
def Inv (id : String) (effect : TriggerEffect) (w : World) : Prop :=
  Bound id effect w ∧ (w.view id).Sound

theorem inv_initial {store : Store} {now id : String} {row : Trigger} (hkeyed : store.Keyed)
    (hrow : Table.find Trigger.id store.rows id = some row) (hsource : row.source ≠ .webhook) :
    Inv id row.effect (initial store now) := by
  refine ⟨⟨hkeyed, ⟨row, hrow, rfl, hsource⟩, fun h t ht => absurd ht (by simp [initial])⟩, ?_⟩
  have hmode : ∀ h, ((initial store now).view id).mode h = .idle := fun h => rfl
  exact {
    nodup := List.nodup_nil
    past := fun v hv => absurd hv (by simp [view, initial])
    lost := fun v hv => absurd hv (by simp [view, initial])
    running := fun h v hm => by rw [hmode] at hm; cases hm
    ran := fun h hm => by rw [hmode] at hm; cases hm
    recording := fun h v hm => by rw [hmode] at hm; cases hm
    releasing := fun h hm => by rw [hmode] at hm; cases hm }

theorem inv_step {c : Calendar} {id : String} {effect : TriggerEffect}
    (heffect : resumesAfterLoss effect = false) (w : World) (e : TickEvent) (hw : Inv id effect w)
    (he : Fair id w e ∧ Kept c id w e) : Inv id effect (w.step c e) := by
  obtain ⟨b, hmoves⟩ := moves_step heffect hw.1 he.1 he.2
  refine ⟨b, ?_⟩
  rcases hmoves with hsame | hstep
  · rw [hsame]
    exact hw.2
  · exact hstep.sound hw.2

/-! ## Processes that take no part -/

section Idle

variable {c : Calendar} {store : Store} {now : String} {events : List TickEvent}

theorem engines_take {w : World} {h h' : String} {t : Trigger} {claim : LeaseClaim × Store} (hne : h' ≠ h) :
    (w.take h t claim).engines h' = w.engines h' := by
  unfold World.take
  split_ifs
  · rfl
  · exact (Function.update_of_ne hne _ _).trans (Function.update_of_ne hne _ _)
  · exact Function.update_of_ne hne _ _

theorem engines_step {w : World} {h : String} {e : TickEvent} (hparty : e.party ≠ some h) :
    (w.step c e).engines h = w.engines h := by
  have hother : ∀ holder, e.party = some holder → h ≠ holder := fun holder he hh => hparty (hh ▸ he)
  cases e
  case advance now => rfl
  case renew holder id' until' =>
    unfold World.step World.renew
    simp only
    split_ifs <;> rfl
  all_goals have hne := hother _ rfl
  case list holder =>
    unfold World.step World.list
    simp only
    split_ifs
    · exact Function.update_of_ne hne _ _
    · rfl
  case pick holder budget until' =>
    unfold World.step World.pick
    simp only
    split
    · rfl
    · split_ifs
      · exact Function.update_of_ne hne _ _
      · exact (engines_take hne).trans (Function.update_of_ne hne _ _)
      · rfl
  case recordInterrupted holder result =>
    unfold World.step World.recordInterrupted
    simp only
    split
    · rfl
    · split
      · split
        · exact (Function.update_of_ne hne _ _).trans (Function.update_of_ne hne _ _)
        · exact Function.update_of_ne hne _ _
      · rfl
  case releaseInterrupted holder =>
    unfold World.step World.releaseInterrupted
    simp only
    split
    · rfl
    · split
      · exact (Function.update_of_ne hne _ _).trans (Function.update_of_ne hne _ _)
      · rfl
  case record holder id' result status noRetry =>
    unfold World.step World.record
    simp only
    split
    · split <;> exact Function.update_of_ne hne _ _
    · rfl
  case release holder id' =>
    unfold World.step World.release
    simp only
    split
    · exact Function.update_of_ne hne _ _
    · rfl
  case die holder => exact Function.update_of_ne hne _ _

/-- Where the processes that take part run nothing, nobody does. -/
theorem not_runs_after (parties : List String)
    (hparty : (events.all fun e => e.party.all fun h => parties.contains h) = true)
    (id : String) (hidle : ∀ h ∈ parties,
      ((Run.after (World.step c) (initial store now) events).engines h).tasks id = .idle) (h : String) :
    ¬ ((Run.after (World.step c) (initial store now) events).view id).Runs h := by
  have hmode : ((Run.after (World.step c) (initial store now) events).engines h).modeOf id = .idle := by
    unfold Engine.modeOf
    have hmem : ∀ e ∈ events, e.party = some h → h ∈ parties := fun e he hp => by
      have hall := List.all_eq_true.mp hparty e he
      rw [hp] at hall
      exact List.contains_iff_mem.mp hall
    by_cases hh : h ∈ parties
    · rw [hidle h hh]
      split_ifs <;> rfl
    · have hsame := @Run.invariant_of _ _ (World.step c) (fun _ e => e.party ≠ some h)
        (fun w => w.engines h = ⟨true, [], none, fun _ => .idle⟩)
        (fun w e hw hne => (engines_step hne).trans hw) events (initial store now) rfl
        (Run.obeys_of_forall (fun e he _ hp => hh (hmem e he hp)) _)
      rw [hsame]
      rfl
  rintro (⟨v, hv⟩ | hr)
  · rw [show (World.view _ id).mode h = _ from hmode] at hv
    cases hv
  · rw [show (World.view _ id).mode h = _ from hmode] at hr
    cases hr

theorem fair_of_idle {w : World} {id : String} {e : TickEvent} (he : e.party ≠ none)
    (h : ∀ h, ¬ (w.view id).Runs h) : Fair id w e :=
  ⟨fun _ hadvance => absurd (hadvance ▸ rfl) he, fun ⟨h', hr⟩ => absurd hr (h h')⟩

theorem fair_of_leased {w : World} {id : String} {e : TickEvent} (he : e.party ≠ none)
    (h : ((w.row id).all fun row => row.leaseUntil.any (w.now < ·)) = true) : Fair id w e := by
  refine ⟨fun now hadvance => absurd (hadvance ▸ rfl) he, fun _ row hrow => ?_⟩
  rw [hrow] at h
  exact h

end Idle

end World

theorem mem_view {l : List (String × String)} {id v : String} (h : (id, v) ∈ l) :
    v ∈ (l.filter (·.1 = id)).map Prod.snd :=
  List.mem_map.mpr ⟨(id, v), List.mem_filter.mpr ⟨h, by simp⟩, rfl⟩

theorem of_mem_view {l : List (String × String)} {id v : String}
    (h : v ∈ (l.filter (·.1 = id)).map Prod.snd) : (id, v) ∈ l := by
  obtain ⟨⟨id', v'⟩, hmem, rfl⟩ := List.mem_map.mp h
  obtain ⟨hmem, hid⟩ := List.mem_filter.mp hmem
  rw [← of_decide_eq_true hid]
  exact hmem

/-- In a run of the processes where a granted claim finds the trigger as the tick listed it, the end
of a run can be recorded and a lost run is recorded under its lease, no occurrence is started twice;
and a run that was started and has no end is no new one to any claim. -/
theorem started_at_most_once {c : Calendar} {store : Store} {now id : String} {row : Trigger}
    {events : List TickEvent} (hkeyed : store.Keyed)
    (hrow : Table.find Trigger.id store.rows id = some row) (hsource : row.source ≠ .webhook)
    (heffect : resumesAfterLoss row.effect = false)
    (ho : Run.Obeys (World.step c) (fun w e => World.Fair id w e ∧ World.Kept c id w e)
      (World.initial store now) events) :
    ((Run.after (World.step c) (World.initial store now) events).started.filter (·.1 = id)).Nodup ∧
      ∀ v, (id, v) ∈ (Run.after (World.step c) (World.initial store now) events).started →
        (id, v) ∉ (Run.after (World.step c) (World.initial store now) events).recorded →
        ∀ holder until' : String,
          (claimLease (Run.after (World.step c) (World.initial store now) events).store id holder until'
              (Run.after (World.step c) (World.initial store now) events).now).1 = .interrupted ∨
            (claimLease (Run.after (World.step c) (World.initial store now) events).store id holder until'
              (Run.after (World.step c) (World.initial store now) events).now).1 = .held := by
  have hinv := Run.invariant_of (World.inv_step heffect)
    (@World.inv_initial store now id row hkeyed hrow hsource) ho
  generalize Run.after (World.step c) (World.initial store now) events = w at hinv ⊢
  obtain ⟨b, hsound⟩ := hinv
  refine ⟨List.Nodup.of_map _ hsound.nodup, fun v hstarted hnot holder until' => ?_⟩
  obtain ⟨row', hrow', -⟩ := b.row
  have hlost := (World.unsettled_iff hrow').mp
    (hsound.lost v (mem_view hstarted) fun hmem => hnot (of_mem_view hmem)).2.2
  rcases @claimLease_of_find w.store id row' holder until' w.now hrow' with ⟨-, hheld⟩ | ⟨-, hclaim, -⟩
  · rw [hheld]
    exact Or.inr rfl
  · rw [hclaim, if_pos hlost]
    exact Or.inl rfl

/-! ## Two processes and a reminder -/

theorem lt_append (s t : List Char) (ht : t ≠ []) : s < s ++ t := by
  induction s with
  | nil =>
    cases t with
    | nil => exact absurd rfl ht
    | cons a t => exact List.nil_lt_cons a t
  | cons a s ih => exact List.cons_lt_cons_iff.mpr (Or.inr ⟨rfl, ih⟩)

theorem lt_later (now : String) : now < now ++ "0" := by
  rw [String.lt_iff_toList_lt, String.toList_append]
  exact lt_append now.toList _ (by decide)

/-- A calendar whose every time is the next one. -/
def nextMoment : Calendar where
  nextOccurrence _ now := some (now ++ "0")
  afterInterval _ now := now ++ "0"
  afterBackoff _ now := now ++ "0"
  lt_nextOccurrence _ now _ h := Option.some.inj h ▸ lt_later now
  lt_afterInterval _ now := lt_later now
  lt_afterBackoff _ now := lt_later now

/-- A reminder that is due at one. -/
def reminder : Trigger :=
  { bulkRow "call the bank" .notify "reminder" "1" with id := "reminder" }.inserted [] "0" "0"

def oneReminder : Store := ⟨[reminder], [], false⟩

/-- One process takes the reminder and records it. -/
def firstRun : List TickEvent :=
  [.list "first", .pick "first" true "3", .record "first" "reminder" "told" .success false,
    .release "first" "reminder"]

/-- The same while another process has listed the reminder too and then takes it. -/
def listedTwice : List TickEvent :=
  .list "second" :: firstRun ++ [.pick "second" true "3"]

theorem first_run_is_started_once :
    ((Run.after (World.step nextMoment) (World.initial oneReminder "2") firstRun).started.filter
      (·.1 = "reminder")).Nodup := by
  have hidle : ∀ n, firstRun.take n = [] ∨ firstRun.take n = [.list "first"] →
      ∀ h, ¬ ((Run.after (World.step nextMoment) (World.initial oneReminder "2")
        (firstRun.take n)).view "reminder").Runs h := by
    rintro n (hn | hn) <;> rw [hn] <;>
      refine World.not_runs_after ["first"] rfl "reminder" fun h hh => ?_ <;>
      rw [List.mem_singleton.mp hh] <;> decide +kernel
  refine (@started_at_most_once nextMoment oneReminder "2" "reminder" reminder firstRun
    (List.nodup_singleton _) rfl (by decide) rfl ⟨⟨?_, trivial⟩, ⟨?_, ?_⟩, ⟨?_, fun _ _ _ _ _ _ => rfl⟩,
      ⟨?_, trivial⟩, trivial⟩).1
  · exact World.fair_of_idle (by decide) (hidle 0 (Or.inl rfl))
  · exact World.fair_of_idle (by decide) (hidle 1 (Or.inr rfl))
  · rintro t due hdue hid row hrow -
    have hlisted : t :: due = [reminder] := hdue.symm.trans (by decide +kernel)
    have hstored : some row = some reminder := hrow.symm.trans (by decide +kernel)
    rw [(List.cons.inj hlisted).1, Option.some.inj hstored]
    decide +kernel
  · exact World.fair_of_leased (by decide) (by decide +kernel)
  · exact World.fair_of_leased (by decide) (by decide +kernel)

/-- The second process listed the reminder before the first one ran it, and starts it again. -/
theorem listed_and_started_twice : ¬ ∀ (c : Calendar) (store : Store) (now id : String) (row : Trigger)
    (events : List TickEvent), store.Keyed → Table.find Trigger.id store.rows id = some row →
      row.source ≠ .webhook → resumesAfterLoss row.effect = false →
      Run.Obeys (World.step c) (World.Fair id) (World.initial store now) events →
      ((Run.after (World.step c) (World.initial store now) events).started.filter (·.1 = id)).Nodup := by
  intro hall
  have hidle : ∀ n ∈ [0, 1, 2, 5], ∀ h, ¬ ((Run.after (World.step nextMoment)
      (World.initial oneReminder "2") (listedTwice.take n)).view "reminder").Runs h := by
    intro n hn
    simp only [List.mem_cons, List.not_mem_nil, or_false] at hn
    rcases hn with rfl | rfl | rfl | rfl <;>
      refine World.not_runs_after ["first", "second"] (by decide) "reminder" fun h hh => ?_ <;>
      rcases List.mem_pair.mp hh with rfl | rfl <;> decide +kernel
  refine absurd (hall nextMoment oneReminder "2" "reminder" reminder listedTwice
    (List.nodup_singleton _) rfl
    (by decide) rfl ⟨?_, ?_, ?_, ?_, ?_, ?_, trivial⟩) (by decide +kernel)
  · exact World.fair_of_idle (by decide) (hidle 0 (by decide))
  · exact World.fair_of_idle (by decide) (hidle 1 (by decide))
  · exact World.fair_of_idle (by decide) (hidle 2 (by decide))
  · exact World.fair_of_leased (by decide) (by decide +kernel)
  · exact World.fair_of_leased (by decide) (by decide +kernel)
  · exact World.fair_of_idle (by decide) (hidle 5 (by decide))

end Lynox.Triggers
