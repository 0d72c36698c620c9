import Lynox.Triggers.Drain
import Lynox.Triggers.Ticks

/-!
# No event ends untold

A pass of the drain performed alone, with every lease free, no run of the process active and every
reservation admitted, that changes no row of the ledger and starts no run : no event waits, and every
end was reported. An event a lost process left running was reported too exactly where no trigger of
such an event has stopped accepting (`quiet_pass_told_iff`) : a trigger that no longer accepts is left
before its lost events are read, so one of them stays untold in every later pass
(`switched_off_stays_untold`).
-/

namespace Lynox.Triggers

open InboundEvents Program

/-- Every event that ended, or that a lost process left running, was reported, and none waits. -/
structure Inbox.Told (w : Inbox) : Prop where
  waits : ∀ r ∈ w.events, r.state ≠ .received
  ends : ∀ r ∈ w.events, r.state = .dropped ∨ r.state = .failed → r.reportedAt.isSome
  lost : ∀ r ∈ w.events, r.state = .running → r.unknownReportedAt.isSome

/-- The trigger is there and accepts events. -/
def Inbox.Accepting (w : Inbox) (id : String) : Prop :=
  (findAcceptingWebhook w.triggers id).isSome ∧
    ((getById w.triggers id).filter fun t => t.id = id).isSome

instance (w : Inbox) (id : String) : Decidable (w.Accepting id) :=
  inferInstanceAs (Decidable (_ ∧ _))

/-- What the surroundings of a pass answer where no run is alive, every lease is free or lapsed and
the budget admits every reservation. -/
def Inbox.Admits (w : Inbox) (x : DrainChoice) : Prop :=
  x.active = false ∧ x.budget = true ∧ ∀ t ∈ w.triggers.rows, t.leaseUntil.any (x.now < ·) = false

/-- No row of the ledger changed and no run was started. -/
def Inbox.Same (w w' : Inbox) : Prop :=
  w'.events = w.events ∧ w'.runs.length = w.runs.length

instance : DecidableRel Inbox.Same := fun _ _ => inferInstanceAs (Decidable (_ ∧ _))

section Pass

variable {c : EventCipher} {holder : String} {parts : DrainParts} {w t t' : Inbox} {triggerId : String}
  {u : Unit}

/-- A pass, or what is left of it, performed from `t` in the surroundings of `w`. -/
abbrev Inbox.Passes {α : Type} (c : EventCipher) (holder : String) (w : Inbox) (p : Drain α) (t : Inbox)
    (a : α) (t' : Inbox) : Prop :=
  Performs (Inbox.perform c holder) w.Admits Inbox.Same p t a t'

/-- The ledger and the triggers are as they were when the pass began. -/
def Inbox.Still (w t : Inbox) : Prop :=
  t.events = w.events ∧ t.triggers = w.triggers

/-- What a quiet pass tells of a trigger. -/
structure Inbox.Silent (w : Inbox) (triggerId : String) : Prop where
  ends : unreportedEnds w.events triggerId = []
  waits : oldestReceived w.events triggerId = none
  lost : w.Accepting triggerId → unreportedRunning w.events triggerId = []

theorem passes_markReported {ends : List InboundEventRecord} (hK : w.Still t)
    (hends : ∀ e ∈ ends, e.row ∈ unreportedEnds w.events triggerId)
    (h : w.Passes c holder (forEach (fun e : InboundEventRecord => do
      let _ ← ask (.markReported e.row.id)
      pure ()) ends) t u t') : ends = [] ∧ t = t' := by
  cases ends with
  | nil => exact ⟨rfl, h.2⟩
  | cons e ends =>
    obtain ⟨x, -, hsame, -⟩ := h
    obtain ⟨hmem, -, hstate, hnone⟩ := mem_unreportedEnds.mp (hends e List.mem_cons_self)
    have hevents : (InboundEvents.markReported t.events e.row.id x.now).2 = t.events := hsame.1
    rw [hK.1] at hevents
    have hrow := eq_of_update hevents hmem (by rcases hstate with h | h <;> simp [h, hnone])
    have hsome := congrArg InboundEvent.reportedAt hrow
    rw [hnone] at hsome
    exact absurd hsome (by simp)

theorem passes_markUnknown {lost : List InboundEventRecord} (hK : t.events = w.events)
    (hlost : ∀ e ∈ lost, e.row ∈ unreportedRunning w.events triggerId)
    (h : w.Passes c holder (forEach (fun e : InboundEventRecord => do
      let _ ← ask (.markUnknownReported e.row.id)
      pure ()) lost) t u t') : lost = [] ∧ t = t' := by
  cases lost with
  | nil => exact ⟨rfl, h.2⟩
  | cons e lost =>
    obtain ⟨x, -, hsame, -⟩ := h
    obtain ⟨hmem, -, hstate, hnone⟩ := mem_unreportedRunning.mp (hlost e List.mem_cons_self)
    have hevents : (InboundEvents.markUnknownReported t.events e.row.id x.now).2 = t.events := hsame.1
    rw [hK] at hevents
    have hrow := eq_of_update hevents hmem (by simp [hstate, hnone])
    have hsome := congrArg InboundEvent.unknownReportedAt hrow
    rw [hnone] at hsome
    exact absurd hsome (by simp)

/-- A `begin` of an event that waits changes its row. -/
theorem begin_changes {rows : List InboundEvent} {r : InboundEvent} (hr : r ∈ rows)
    (hs : r.state = .received) (attemptId : String) :
    (InboundEvents.begin rows r.id attemptId).2 ≠ rows := by
  intro h
  have hrow := congrArg InboundEvent.state (eq_of_update h hr (by simp [hs]))
  rw [hs] at hrow
  exact absurd hrow (by simp)

theorem dropped_changes {rows : List InboundEvent} {r : InboundEvent} (hr : r ∈ rows)
    (hs : r.state = .received) (reason : String) : (InboundEvents.drop rows r.id reason).2 ≠ rows := by
  intro h
  have hrow := congrArg InboundEvent.state (eq_of_update h hr (by simp [hs]))
  rw [hs] at hrow
  exact absurd hrow (by simp)

theorem dropWaiting_changes {rows : List InboundEvent} {r : InboundEvent} (hr : r ∈ rows)
    (hs : r.state = .received) (reason : String) :
    (InboundEvents.dropWaiting rows r.triggerId reason).2 ≠ rows := by
  intro h
  have hrow := congrArg InboundEvent.state (eq_of_update h hr (by simp [waits, hs]))
  rw [hs] at hrow
  exact absurd hrow (by simp)

/-- The lease of a trigger that accepts is claimed. -/
theorem claimed_of_accepting (hkeyed : w.triggers.Keyed)
    (hnext : ∀ t ∈ w.triggers.rows, t.source = .webhook → t.nextRunAt = none)
    (haccepting : w.Accepting triggerId) {x : DrainChoice} (hx : w.Admits x) :
    (claimLease w.triggers triggerId holder x.until' x.now).1 = .claimed := by
  obtain ⟨row, hfound⟩ := Option.isSome_iff_exists.mp haccepting.1
  have hp := List.find?_some hfound
  simp only [Bool.and_eq_true, decide_eq_true_eq] at hp
  have hmem := List.mem_of_find?_eq_some hfound
  have hrow : Table.find Trigger.id w.triggers.rows triggerId = some row := by
    rw [← hp.1.1.1]
    exact Table.find_of_mem hkeyed hmem
  have hfree := hx.2.2 row hmem
  have hlost : lostRun row = false := by
    rw [lostRun, hnext row hmem hp.1.1.2]
    cases row.leaseHolder <;> cases row.leaseSince <;> rfl
  rcases @claimLease_of_find w.triggers triggerId row holder x.until' x.now hrow with ⟨hheld, -⟩ |
    ⟨-, hclaim, -⟩
  · rw [hfree] at hheld
    exact absurd hheld (by decide)
  · rw [hclaim, if_neg (by rw [hlost]; decide)]

theorem passes_ask {α : Type} {o : DrainOp} {f : o.Ans → Drain α} {a : α} :
    w.Passes c holder (ask o >>= f) t a t' ↔ ∃ x, w.Admits x ∧ t.Same (Inbox.perform c holder t o x).2 ∧
      w.Passes c holder (f (Inbox.perform c holder t o x).1) (Inbox.perform c holder t o x).2 a t' :=
  Iff.rfl

/-- What is left of a quiet pass where the trigger accepts : nothing waits, and no event was lost. -/
theorem passes_drainReserved (hkeyed : w.triggers.Keyed)
    (hnext : ∀ t ∈ w.triggers.rows, t.source = .webhook → t.nextRunAt = none)
    (haccepting : w.Accepting triggerId) {trigger : Trigger} (hK : w.Still t)
    {event : Option InboundEventRecord}
    (hwaits : ∀ e, event = some e → e.row ∈ w.events ∧ e.row.state = .received)
    (h : w.Passes c holder (drainReserved triggerId trigger event) t u t') :
    w.Still t' ∧ event = none ∧ unreportedRunning w.events triggerId = [] := by
  obtain ⟨x, -, -, h⟩ := passes_ask.mp h
  have hlost : ∀ e ∈ (Inbox.perform c holder t (.unreportedRunning triggerId) x).1,
      e.row ∈ unreportedRunning w.events triggerId := by
    intro e he
    obtain ⟨r, hr, rfl⟩ := List.mem_map.mp he
    rw [hK.1] at hr
    exact hr
  have hlen : (Inbox.perform c holder t (.unreportedRunning triggerId) x).1 = [] →
      unreportedRunning w.events triggerId = [] := fun hnil => by
    have hmap := List.map_eq_nil_iff.mp hnil
    rw [hK.1] at hmap
    exact hmap
  generalize (Inbox.perform c holder t (.unreportedRunning triggerId) x).1 = lost at h hlost hlen
  split_ifs at h with hnone
  · rw [Bool.and_eq_true, Option.isNone_iff_eq_none, List.isEmpty_iff] at hnone
    rw [← h.2]
    exact ⟨hK, hnone.1, hlen hnone.2⟩
  · obtain ⟨x₂, hx₂, -, h⟩ := passes_ask.mp h
    have hallowed : (Inbox.perform c holder t (.reserve trigger) x₂).1 = true := hx₂.2.1
    change w.Passes c holder (if !(Inbox.perform c holder t
      (.reserve trigger) x₂).1 then _ else _) t u t' at h
    rw [hallowed, if_neg (by decide)] at h
    obtain ⟨x₃, hx₃, hsame₃, h⟩ := passes_ask.mp h
    have hclaimed : (Inbox.perform c holder t (.takeLease triggerId) x₃).1 = .claimed := by
      show (claimLease t.triggers triggerId holder x₃.until' x₃.now).1 = _
      rw [hK.2]
      exact claimed_of_accepting hkeyed hnext haccepting hx₃
    have hevents : (Inbox.perform c holder t (.takeLease triggerId) x₃).2.events = w.events := hK.1
    rw [hclaimed] at h
    generalize (Inbox.perform c holder t (.takeLease triggerId) x₃).2 = t₃ at h hevents
    obtain ⟨u', t₄, hmarks, h⟩ := performs_bind.mp h
    obtain ⟨hnil, rfl⟩ := passes_markUnknown hevents hlost hmarks
    cases event with
    | none =>
      rw [hnil] at hnone
      exact absurd rfl hnone
    | some e =>
      -- the event is begun, which changes its row
      obtain ⟨x₅, -, -, h⟩ := passes_ask.mp h
      obtain ⟨x₆, -, hsame, -⟩ := passes_ask.mp h
      obtain ⟨hmem, hstate⟩ := hwaits e rfl
      have hbegun : (InboundEvents.begin t₃.events e.row.id _).2 = t₃.events := hsame.1
      rw [hevents] at hbegun
      exact absurd hbegun (begin_changes hmem hstate _)

theorem passes_eventShopMoved {accepting : Trigger} {event : Option InboundEventRecord} {moved : Bool}
    (hK : w.Still t) (h : w.Passes c holder (eventShopMoved parts accepting event) t moved t') :
    w.Still t' := by
  cases event with
  | none =>
    rw [← h.2]
    exact hK
  | some e =>
    unfold eventShopMoved at h
    split_ifs at h
    · rw [← h.2]
      exact hK
    · cases hconnection : accepting.sourceConnectionId with
      | none =>
        rw [hconnection] at h
        rw [← h.2]
        exact hK
      | some connectionId =>
        rw [hconnection] at h
        obtain ⟨x, -, -, -, hdone⟩ := h
        rw [← hdone]
        exact hK

theorem passes_drainAccepting (hkeyed : w.triggers.Keyed)
    (hnext : ∀ t ∈ w.triggers.rows, t.source = .webhook → t.nextRunAt = none)
    (haccepting : w.Accepting triggerId) {accepting trigger : Trigger} (hK : w.Still t)
    {event : Option InboundEventRecord}
    (hwaits : ∀ e, event = some e → e.row ∈ w.events ∧ e.row.state = .received)
    (h : w.Passes c holder (drainAccepting parts triggerId accepting trigger event) t u t') :
    w.Still t' ∧ event = none ∧ unreportedRunning w.events triggerId = [] := by
  obtain ⟨moved, t₁, hmoved, hrest⟩ := performs_bind.mp h
  clear h
  have hK₁ := passes_eventShopMoved hK hmoved
  split at hrest
  · rename_i e
    obtain ⟨x, -, hsame, -⟩ := hrest
    obtain ⟨hmem, hstate⟩ := hwaits e rfl
    have hevents : (InboundEvents.drop t₁.events e.row.id eventShopMovedReason).2 = t₁.events := hsame.1
    rw [hK₁.1] at hevents
    exact absurd hevents (dropped_changes hmem hstate _)
  · exact passes_drainReserved hkeyed hnext haccepting hK₁ hwaits hrest

/-- A quiet pass leaves a trigger silent. -/
theorem passes_drainTrigger (hkeyed : w.triggers.Keyed)
    (hnext : ∀ t ∈ w.triggers.rows, t.source = .webhook → t.nextRunAt = none) (hK : w.Still t)
    (h : w.Passes c holder (drainTrigger parts triggerId) t u t') :
    w.Still t' ∧ w.Silent triggerId := by
  obtain ⟨x₁, -, -, h⟩ := passes_ask.mp h
  have hends : ∀ e ∈ (Inbox.perform c holder t (.unreportedEnds triggerId) x₁).1,
      e.row ∈ unreportedEnds w.events triggerId := by
    intro e he
    obtain ⟨r, hr, rfl⟩ := List.mem_map.mp he
    rw [hK.1] at hr
    exact hr
  have hlen : (Inbox.perform c holder t (.unreportedEnds triggerId) x₁).1 = [] →
      unreportedEnds w.events triggerId = [] := fun hnil => by
    have hmap := List.map_eq_nil_iff.mp hnil
    rw [hK.1] at hmap
    exact hmap
  generalize (Inbox.perform c holder t (.unreportedEnds triggerId) x₁).1 = ends at h hends hlen
  obtain ⟨u', t₁, hmarks, h⟩ := performs_bind.mp h
  obtain ⟨hnil, ht₁⟩ := passes_markReported hK hends hmarks
  have ht : t₁ = t := ht₁.symm
  rw [ht] at h
  obtain ⟨x₂, hx₂, -, h⟩ := passes_ask.mp h
  have hactive : (Inbox.perform c holder t (.isActive triggerId) x₂).1 = false := hx₂.1
  change w.Passes c holder (if (Inbox.perform c holder t
    (.isActive triggerId) x₂).1 then _ else _) t u t' at h
  rw [hactive, if_neg (by decide)] at h
  obtain ⟨x₃, -, -, h⟩ := passes_ask.mp h
  have hevent : (Inbox.perform c holder t (.oldestReceived triggerId) x₃).1 =
      (oldestReceived w.events triggerId).map (toRecord c holder) := by
    show (oldestReceived t.events triggerId).map _ = _
    rw [hK.1]
  rw [hevent] at h
  have hwaits : ∀ e, (oldestReceived w.events triggerId).map (toRecord c holder) = some e →
      e.row ∈ w.events ∧ e.row.state = .received := by
    intro e he
    obtain ⟨r, hr, rfl⟩ := Option.map_eq_some_iff.mp he
    obtain ⟨hmem, -, hstate⟩ := mem_oldestReceived hr
    exact ⟨hmem, hstate⟩
  obtain ⟨x₄, -, -, h⟩ := passes_ask.mp h
  obtain ⟨x₅, -, -, h⟩ := passes_ask.mp h
  have haccepting : (Inbox.perform c holder t (.findAccepting triggerId) x₄).1 =
      findAcceptingWebhook w.triggers triggerId := by
    show findAcceptingWebhook t.triggers triggerId = _
    rw [hK.2]
  have htrigger : (Inbox.perform c holder t (.getTrigger triggerId) x₅).1 =
      getById w.triggers triggerId := by
    show getById t.triggers triggerId = _
    rw [hK.2]
  rw [show (Inbox.perform c holder t (.oldestReceived triggerId) x₃).2 = t from rfl,
    show (Inbox.perform c holder t (.findAccepting triggerId) x₄).2 = t from rfl,
    show (Inbox.perform c holder t (.getTrigger triggerId) x₅).2 = t from rfl, haccepting, htrigger] at h
  split at h
  · rename_i accepting trigger hfound hfiltered
    have hlive : w.Accepting triggerId := ⟨by rw [hfound]; rfl, by rw [hfiltered]; rfl⟩
    obtain ⟨hK', hnone, hlost⟩ := passes_drainAccepting hkeyed hnext hlive hK hwaits h
    exact ⟨hK', hlen hnil, Option.map_eq_none_iff.mp hnone, fun _ => hlost⟩
  · rename_i hnot
    have hdead : ¬ w.Accepting triggerId := by
      rintro ⟨hfound, hfiltered⟩
      obtain ⟨accepting, hfound⟩ := Option.isSome_iff_exists.mp hfound
      obtain ⟨trigger, hfiltered⟩ := Option.isSome_iff_exists.mp hfiltered
      exact hnot accepting trigger hfound hfiltered
    split at h
    · rename_i hnone
      rw [← h.2]
      exact ⟨hK, hlen hnil, Option.map_eq_none_iff.mp hnone, fun hlive => absurd hlive hdead⟩
    · rename_i e he
      obtain ⟨x, -, hsame, -⟩ := passes_ask.mp h
      obtain ⟨r, hr, -⟩ := Option.map_eq_some_iff.mp he
      obtain ⟨hmem, hid, hstate⟩ := mem_oldestReceived hr
      have hevents : (InboundEvents.dropWaiting t.events triggerId eventTriggerNotLive).2 =
          t.events := hsame.1
      rw [hK.1, ← hid] at hevents
      exact absurd hevents (dropWaiting_changes hmem hstate _)

end Pass

/-! ## A quiet pass -/

/-- A pass that changes no row and starts no run leaves every event told exactly where no event a
lost process left running is one of a trigger that no longer accepts, but for those reported. -/
theorem quiet_pass_told_iff {c : EventCipher} {holder : String} {parts : DrainParts} {w w' : Inbox}
    (hkeyed : w.triggers.Keyed)
    (hnext : ∀ t ∈ w.triggers.rows, t.source = .webhook → t.nextRunAt = none)
    (hquiet : w.Passes c holder (drainWebhooks parts) w () w') :
    w.Told ↔ ∀ r ∈ w.events, r.state = .running → r.unknownReportedAt = none →
      w.Accepting r.triggerId := by
  constructor
  · intro told r hr hrunning hnone
    have hsome := told.lost r hr hrunning
    rw [hnone] at hsome
    exact absurd hsome (by decide)
  · intro haccepting
    obtain ⟨x₁, -, hsame₁, h⟩ := passes_ask.mp hquiet
    have hK₁ : w.Still (Inbox.perform c holder w .windowStart x₁).2 := ⟨rfl, rfl⟩
    generalize Inbox.perform c holder w .windowStart x₁ = out₁ at h hK₁
    obtain ⟨x₂, -, hsame₂, h⟩ := passes_ask.mp h
    have hK₂ : w.Still (Inbox.perform c holder out₁.2 (.sweepValues out₁.1) x₂).2 :=
      ⟨hsame₂.1.trans hK₁.1, hK₁.2⟩
    generalize (Inbox.perform c holder out₁.2 (.sweepValues out₁.1) x₂).2 = t₂ at h hK₂
    obtain ⟨x₃, -, hsame₃, h⟩ := passes_ask.mp h
    have hK₃ : w.Still (Inbox.perform c holder t₂ (.tombstoneRows out₁.1) x₃).2 :=
      ⟨hsame₃.1.trans hK₂.1, hK₂.2⟩
    generalize (Inbox.perform c holder t₂ (.tombstoneRows out₁.1) x₃).2 = t₃ at h hK₃
    obtain ⟨x₄, -, -, h⟩ := passes_ask.mp h
    have hsilent := (performs_forEach (T := w.Silent)
      (fun i _ t t' u hK ht => passes_drainTrigger hkeyed hnext hK ht) hK₃ h).2
    have hsilent' : ∀ r ∈ w.events, hasWork r = true → w.Silent r.triggerId := by
      intro r hr hw
      refine hsilent r.triggerId ?_
      show r.triggerId ∈ triggersWithWork t₃.events
      rw [hK₃.1]
      exact mem_triggersWithWork hr hw rfl
    refine ⟨fun r hr hreceived => ?_, fun r hr hended => ?_, fun r hr hrunning => ?_⟩
    · have hw : hasWork r = true := by simp [hasWork, hreceived]
      exact oldestReceived_eq_none (hsilent' r hr hw).waits hr rfl hreceived
    · by_contra hnot
      have hnone : r.reportedAt = none := Option.not_isSome_iff_eq_none.mp hnot
      have hw : hasWork r = true := by rcases hended with h | h <;> simp [hasWork, h, hnone]
      have hmem := mem_unreportedEnds.mpr ⟨hr, rfl, hended, hnone⟩
      rw [(hsilent' r hr hw).ends] at hmem
      exact absurd hmem List.not_mem_nil
    · by_contra hnot
      have hnone : r.unknownReportedAt = none := Option.not_isSome_iff_eq_none.mp hnot
      have hw : hasWork r = true := by simp [hasWork, hrunning, hnone]
      have hmem := mem_unreportedRunning.mpr ⟨hr, rfl, hrunning, hnone⟩
      rw [(hsilent' r hr hw).lost (haccepting r hr hrunning hnone)] at hmem
      exact absurd hmem List.not_mem_nil

/-! ## An event of a trigger that was switched off -/

theorem keyless_reads (_ : String) (s t : JsString) (h : none = some t) : t = s :=
  nomatch h

/-- A process reads no stored value. -/
def keyless : EventCipher :=
  ⟨fun _ => "", fun _ _ => none, keyless_reads⟩

def tokenOnly : DrainParts :=
  ⟨fun _ => some .sharedToken, id⟩

/-- A webhook trigger, switched on or off. -/
def refunds (enabled : Bool) : Trigger :=
  { bulkRow "refunds" .runWorkflow "new refund" "0" with
    id := "refunds", source := .webhook, nextRunAt := none, enabled := enabled }.inserted [] "0" "0"

/-- An event a lost process left running. -/
def lostEvent (reportedAt : Option String) : InboundEvent :=
  ⟨"event", "refunds", "shared-token:refunds:sha256:", "1", .running, none, none, none, [], some "attempt",
    none, reportedAt⟩

def lostInbox (enabled : Bool) (reportedAt : Option String) : Inbox :=
  ⟨[lostEvent reportedAt], ⟨[refunds enabled], [], false⟩, fun _ => none, [], [], [], [], [], []⟩

def laterChoice : DrainChoice :=
  ⟨"3", "4", "0", false, true, "attempt 2"⟩

theorem keyed_lostInbox (enabled : Bool) (reportedAt : Option String) :
    (lostInbox enabled reportedAt).triggers.Keyed :=
  List.nodup_singleton _

theorem reported_loss_is_told : (lostInbox true (some "2")).Told := by
  have hpass : (lostInbox true (some "2")).Passes keyless "engine" (drainWebhooks tokenOnly)
      (lostInbox true (some "2")) () _ :=
    performs_performAll (c := laterChoice) ⟨rfl, rfl, by decide⟩ (by decide +kernel)
  exact (quiet_pass_told_iff (keyed_lostInbox true (some "2")) (by decide) hpass).mpr (by decide)

/-- Its trigger was switched off while its run was lost : no pass ever reports it. -/
theorem switched_off_stays_untold : ¬ ∀ (c : EventCipher) (holder : String) (parts : DrainParts)
    (w w' : Inbox), w.triggers.Keyed →
      (∀ t ∈ w.triggers.rows, t.source = .webhook → t.nextRunAt = none) →
      w.Passes c holder (drainWebhooks parts) w () w' → w.Told := by
  intro hall
  have hpass : (lostInbox false none).Passes keyless "engine" (drainWebhooks tokenOnly)
      (lostInbox false none) () _ :=
    performs_performAll (c := laterChoice) ⟨rfl, rfl, by decide⟩ (by decide +kernel)
  have htold := hall _ _ _ _ _ (keyed_lostInbox false none) (by decide) hpass
  exact absurd (htold.lost _ List.mem_cons_self rfl) (by decide)

end Lynox.Triggers
