import Lynox.Triggers.Attempts

/-!
# A delivery starts at most one run

Whatever the processes, the receiver and the ends of runs do and in whatever order, the ledger keeps
what it keeps (`Inbox.Sound`). A process relies on the rest for its own deliveries and attempts
(`Inbox.Relies`), and a run is started only by the process whose `begin` was granted, once, with the
values of the delivery (`Inbox.Guard`, `ensured_drainWebhooks`). So a delivery starts at most one run
(`a_delivery_starts_one_run`).
-/

namespace Lynox.Triggers

open InboundEvents Program

variable {c : EventCipher}

section Steps

variable {w : Inbox}

/-! ## What a process relies on -/

/-- What the rest leaves a process : what was delivered and begun stays, and it alone starts runs as
its own. -/
structure Inbox.Relies (holder : String) (w w' : Inbox) : Prop where
  deliveries : ∀ d ∈ w.deliveries, d ∈ w'.deliveries
  begun : ∀ b ∈ w.begun, b ∈ w'.begun
  runs : ∀ run ∈ w'.runs, run.1 = holder → run ∈ w.runs

theorem Inbox.Relies.refl (holder : String) (w : Inbox) : w.Relies holder w :=
  ⟨fun _ h => h, fun _ h => h, fun _ h _ => h⟩

theorem Inbox.Relies.trans {holder : String} {w w' w'' : Inbox} (h : w.Relies holder w')
    (h' : w'.Relies holder w'') : w.Relies holder w'' :=
  ⟨fun d hd => h'.deliveries d (h.deliveries d hd), fun b hb => h'.begun b (h.begun b hb),
    fun run hrun hh => h.runs run (h'.runs run hrun hh) hh⟩

/-- A run is started for the event whose `begin` was granted to the process and for which it has
started none, with the values of its delivery. -/
def Inbox.Guard (holder : String) (w : Inbox) : DrainOp → Prop
  | .runInSlot slot => (∃ b ∈ w.begun, b.eventId = slot.eventId ∧ b.attemptId = slot.attemptId ∧
      b.holder = holder) ∧ (∀ run ∈ w.runs, run.1 = holder → run.2.eventId ≠ slot.eventId) ∧
      ∃ input : RecordDelivery, (slot.eventId, input) ∈ w.deliveries ∧
        slot.values = eventValues input.values
  | _ => True

/-- A run starts. -/
theorem Inbox.Sound.runInSlot (s : w.Sound c) {holder : String} {slot : SlotEvent}
    (hg : w.Guard holder (.runInSlot slot)) :
    Inbox.Sound c { w with runs := (holder, slot) :: w.runs } := by
  obtain ⟨⟨b, hb, hbid, hbattempt, hbholder⟩, hnone, hvalues⟩ := hg
  refine ⟨{ s.kept with values := fun run hrun => ?_ }, { s.attempts with
      runOnce := List.nodup_cons.mpr ⟨fun hmem => ?_, s.attempts.runOnce⟩
      run := fun run hrun => ?_ }⟩
  · rcases List.mem_cons.mp hrun with rfl | hrun
    · exact hvalues
    · exact s.kept.values run hrun
  · obtain ⟨run, hrun, hid⟩ := List.mem_map.mp hmem
    obtain ⟨b', hb', hbid', -, hbholder'⟩ := s.attempts.run run hrun
    -- one attempt was begun for the event, by one process
    have hbb : b' = b := List.inj_on_of_nodup_map s.attempts.begunOnce hb' hb
      (hbid'.trans (hid.trans hbid.symm))
    rw [hbb, hbholder] at hbholder'
    exact hnone run hrun hbholder'.symm hid
  · rcases List.mem_cons.mp hrun with rfl | hrun
    · exact ⟨b, hb, hbid, hbattempt, hbholder⟩
    · exact s.attempts.run run hrun

theorem Inbox.Sound.triggers (s : w.Sound c) (triggers : Store) (shopHosts : String → Option String) :
    Inbox.Sound c { w with triggers := triggers, shopHosts := shopHosts } :=
  ⟨{ s.kept with }, { s.attempts with }⟩

theorem Inbox.Sound.perform (s : w.Sound c) {holder : String} {o : DrainOp} (x : DrainChoice)
    (hg : w.Guard holder o) : Inbox.Sound c (Inbox.perform c holder w o x).2 := by
  cases o with
  | sweepValues before => exact s.aside (aside_sweepValues before)
  | tombstoneRows before => exact s.aside (aside_tombstoneRows before)
  | markReported id => exact s.markReported
  | dropWaiting triggerId reason => exact s.aside (aside_dropWaiting triggerId reason)
  | drop id reason => exact s.aside (aside_drop id reason)
  | takeLease id => exact s.triggers _ w.shopHosts
  | releaseLease id => exact s.triggers _ w.shopHosts
  | markUnknownReported id => exact s.markUnknownReported
  | begin id attemptId => exact s.begin
  | finish id attemptId outcome => exact s.finish
  | runInSlot slot => exact s.runInSlot hg
  | _ => exact s

theorem mem_noteIf {α : Type} {granted : Bool} {a b : α} {l : List α} (h : b ∈ l) :
    b ∈ noteIf granted a l := by
  unfold noteIf
  split_ifs
  · exact List.mem_cons_of_mem a h
  · exact h

theorem Inbox.relies_perform {holder : String} {o : DrainOp} (x : DrainChoice)
    (ho : ∀ slot, o ≠ .runInSlot slot) (holder' : String) :
    w.Relies holder' (Inbox.perform c holder w o x).2 := by
  cases o with
  | begin id attemptId => exact ⟨fun _ h => h, fun _ h => mem_noteIf h, fun _ h _ => h⟩
  | runInSlot slot => exact absurd rfl (ho slot)
  | _ => exact ⟨fun _ h => h, fun _ h => h, fun _ h _ => h⟩

/-- What another process does. -/
theorem Inbox.relies_others {holder holder' : String} (hne : holder' ≠ holder) (o : DrainOp)
    (x : DrainChoice) : w.Relies holder' (Inbox.perform c holder w o x).2 := by
  cases o with
  | runInSlot slot =>
    refine ⟨fun _ h => h, fun _ h => h, fun run hrun hh => ?_⟩
    rcases List.mem_cons.mp hrun with rfl | hrun
    · exact absurd hh.symm hne
    · exact hrun
  | _ => exact Inbox.relies_perform x (fun _ h => by cases h) holder'

theorem Inbox.relies_outside {digest : List UInt8 → String} {e : InboxEvent} (holder : String) :
    w.Relies holder (Inbox.outside c digest e w) := by
  cases e with
  | deliver d id now => exact ⟨fun _ h => mem_noteIf h, fun _ h => h, fun _ h _ => h⟩
  | settle slot outcome => exact ⟨fun _ h => h, fun _ h => h, fun _ h _ => h⟩
  | edit triggers shopHosts => exact ⟨fun _ h => h, fun _ h => h, fun _ h _ => h⟩

theorem Inbox.Sound.outside (s : w.Sound c) {digest : List UInt8 → String} (e : InboxEvent) :
    Inbox.Sound c (Inbox.outside c digest e w) := by
  cases e with
  | deliver d id now => exact s.deliver
  | settle slot outcome => exact s.finish
  | edit triggers shopHosts => exact s.triggers triggers shopHosts

end Steps

/-! ## The pass starts runs as it may -/

section Pass

variable {holder : String} {w : Inbox} {K : Inbox → Prop} {α : Type}

/-- The rest of a pass keeps its guard, and leaves `Q`. -/
abbrev Inbox.Runs (c : EventCipher) (holder : String) (Q : α → Inbox → Prop) (p : Drain α) (w : Inbox) :
    Prop :=
  Ensured (Inbox.perform c holder) (Inbox.Sound c) (Inbox.Relies holder) (Inbox.Guard holder) Q p w

/-- What the rest of the system leaves a process knowing. -/
def Inbox.Stays (holder : String) (K : Inbox → Prop) : Prop :=
  ∀ w w', K w → w.Relies holder w' → K w'

/-- An operation that starts no run. -/
theorem runs_ask {Q : α → Inbox → Prop} {o : DrainOp} {f : o.Ans → Drain α} (hK : Inbox.Stays holder K)
    (ho : ∀ slot, o ≠ .runInSlot slot) (hw : K w)
    (hf : ∀ a w', K w' → Inbox.Runs c holder Q (f a) w') : Inbox.Runs c holder Q (ask o >>= f) w := by
  refine fun w' hrelies _ => ⟨?_, fun x => hf _ _ ?_⟩
  · cases o with
    | runInSlot slot => exact absurd rfl (ho slot)
    | _ => exact trivial
  · exact hK _ _ (hK _ _ hw hrelies) (Inbox.relies_perform x ho holder)

theorem runs_ask_done {o : DrainOp} (ho : ∀ slot, o ≠ .runInSlot slot) :
    Inbox.Runs c holder (fun _ _ => True) (ask o) w :=
  runs_ask (f := .done) (K := fun _ => True) (fun _ _ _ _ => trivial) ho trivial fun _ _ _ => trivial

/-- An event that was read waiting, of a delivery. -/
def Inbox.Known (c : EventCipher) (holder : String) (e : InboundEventRecord) (w : Inbox) : Prop :=
  e = toRecord c holder e.row ∧ ∃ input : RecordDelivery, (e.row.id, input) ∈ w.deliveries ∧
    e.row.valuesJson = input.values.map c.enc

theorem stays_known {e : InboundEventRecord} : Inbox.Stays holder (Inbox.Known c holder e) :=
  fun _ _ ⟨he, input, hmem, hvalues⟩ hrelies => ⟨he, input, hrelies.deliveries _ hmem, hvalues⟩

/-- Values that can be read are those that were recorded. -/
theorem values_known {e : InboundEventRecord} {input : RecordDelivery} (he : e = toRecord c holder e.row)
    (hvalues : e.row.valuesJson = input.values.map c.enc) (hread : e.valuesUnreadable = false) :
    e.valuesJson = input.values := by
  rw [he, toRecord] at hread ⊢
  simp only [hvalues] at hread ⊢
  cases hinput : input.values with
  | none => rfl
  | some s =>
    rw [hinput] at hread
    simp only [Option.map_some, Option.any_some, Option.bind_some, decide_eq_false_iff_not] at hread ⊢
    obtain ⟨t, ht⟩ := Option.ne_none_iff_exists'.mp hread
    rw [ht, c.tryDec_enc holder s t ht]

/-- What the process may go on with : its `begin` was granted and it has started no run. -/
def Inbox.Granted (holder : String) (eventId attemptId : String) (w : Inbox) : Prop :=
  (∃ b ∈ w.begun, b.eventId = eventId ∧ b.attemptId = attemptId ∧ b.holder = holder) ∧
    ∀ run ∈ w.runs, run.1 = holder → run.2.eventId ≠ eventId

theorem stays_granted {eventId attemptId : String} :
    Inbox.Stays holder (Inbox.Granted holder eventId attemptId) :=
  fun _ _ ⟨⟨b, hb, hrest⟩, hnone⟩ hrelies =>
    ⟨⟨b, hrelies.begun b hb, hrest⟩, fun run hrun hh => hnone run (hrelies.runs run hrun hh) hh⟩

theorem granted_begin (s : w.Sound c) {id attemptId : String} (x : DrainChoice)
    (hbegun : (Inbox.perform c holder w (.begin id attemptId) x).1 = true) :
    Inbox.Granted holder id attemptId (Inbox.perform c holder w (.begin id attemptId) x).2 := by
  have hgranted : (InboundEvents.begin w.events id attemptId).1 = true := hbegun
  refine ⟨⟨⟨id, attemptId, holder⟩, ?_, rfl, rfl, rfl⟩, fun run hrun _ hid => ?_⟩
  · show _ ∈ noteIf _ _ _
    rw [noteIf, if_pos hgranted]
    exact List.mem_cons_self
  · -- a run of the event would be one of an attempt begun before, and the event still waited
    have hp : ∀ r : InboundEvent, (r.id = id && r.state = .received) = true → r.id = id := fun r h =>
      of_decide_eq_true (Bool.and_eq_true _ _ ▸ h).1
    obtain ⟨r, hr, hpr⟩ := (update_id s.kept.ids hp).mp (of_decide_eq_true hgranted)
    obtain ⟨b, hb, hbid, -, -⟩ := s.attempts.run run hrun
    obtain ⟨r', hr', hrid, hstate⟩ := s.attempts.begun b hb
    rw [eq_of_id s.kept.ids hr' hr (hrid.trans (hbid.trans (hid.trans (hp r hpr).symm)))] at hstate
    exact hstate (of_decide_eq_true (Bool.and_eq_true _ _ ▸ hpr).2)

theorem runs_startEvent {triggerId : String} {e : InboundEventRecord} (hw : Inbox.Known c holder e w) :
    Inbox.Runs c holder (fun _ _ => True) (startEvent triggerId e) w := by
  unfold startEvent
  refine runs_ask stays_known (fun _ h => by cases h) hw fun attemptId w₁ hw₁ => ?_
  refine fun w₂ hrelies s => ⟨trivial, fun x => ?_⟩
  have hw₂ := stays_known _ _ (stays_known _ _ hw₁ hrelies)
    (@Inbox.relies_perform c w₂ holder (.begin e.row.id attemptId) x (fun _ h => by cases h) holder)
  have hgranted := @granted_begin c holder w₂ s e.row.id attemptId x
  generalize Inbox.perform c holder w₂ (.begin e.row.id attemptId) x = out at hw₂ hgranted ⊢
  obtain ⟨begun, w₃⟩ := out
  cases begun with
  | false => exact runs_ask_done fun _ h => by cases h
  | true =>
    show Inbox.Runs c holder _ (if e.valuesUnreadable = true then _ else _) w₃
    split_ifs with hunread
    · exact runs_ask (K := fun _ => True) (fun _ _ _ _ => trivial) (fun _ h => by cases h) trivial
        fun _ _ _ => runs_ask_done fun _ h => by cases h
    · refine fun w₄ hrelies₄ _ => ⟨?_, fun _ => trivial⟩
      obtain ⟨he, input, hmem, hvalues⟩ := stays_known _ _ hw₂ hrelies₄
      obtain ⟨hb, hnone⟩ := stays_granted _ _ (hgranted rfl) hrelies₄
      refine ⟨hb, hnone, input, hmem, ?_⟩
      show eventValues e.valuesJson = _
      rw [values_known he hvalues (Bool.eq_false_iff.mpr hunread)]

theorem runs_drainReserved {triggerId : String} {trigger : Trigger} {event : Option InboundEventRecord}
    (hw : ∀ e, event = some e → Inbox.Known c holder e w) :
    Inbox.Runs c holder (fun _ _ => True) (drainReserved triggerId trigger event) w := by
  have hK : Inbox.Stays holder fun w => ∀ e, event = some e → Inbox.Known c holder e w :=
    fun w w' hw hrelies e he => stays_known _ _ (hw e he) hrelies
  unfold drainReserved
  refine runs_ask hK (fun _ h => by cases h) hw fun lost w₂ hw₂ => ?_
  split_ifs
  · trivial
  · refine runs_ask hK (fun _ h => by cases h) hw₂ fun allowed w₃ hw₃ => ?_
    split_ifs
    · trivial
    · refine runs_ask hK (fun _ h => by cases h) hw₃ fun lease w₄ hw₄ => ?_
      cases lease with
      | claimed =>
        refine (ensured_forEach (K := fun w => ∀ e, event = some e → Inbox.Known c holder e w)
          (fun stale _ w hw => ?_) w₄ hw₄).bind fun _ w₅ hw₅ => ?_
        · exact runs_ask hK (fun _ h => by cases h) hw fun _ _ hw' => hw'
        · cases event with
          | none => exact runs_ask_done fun _ h => by cases h
          | some e => exact runs_startEvent (hw₅ e rfl)
      | interrupted => exact runs_ask_done fun _ h => by cases h
      | held => trivial
      | notFound => trivial

theorem runs_drainAccepting {parts : DrainParts} {triggerId : String} {accepting trigger : Trigger}
    {event : Option InboundEventRecord} (hw : ∀ e, event = some e → Inbox.Known c holder e w) :
    Inbox.Runs c holder (fun _ _ => True) (drainAccepting parts triggerId accepting trigger event) w := by
  have hK : Inbox.Stays holder fun w => ∀ e, event = some e → Inbox.Known c holder e w :=
    fun w w' hw hrelies e he => stays_known _ _ (hw e he) hrelies
  have hmoved : Inbox.Runs c holder (fun _ w => ∀ e, event = some e → Inbox.Known c holder e w)
      (eventShopMoved parts accepting event) w := by
    cases event with
    | none => exact hw
    | some e =>
      unfold eventShopMoved
      split_ifs
      · exact hw
      · cases accepting.sourceConnectionId with
        | none => exact hw
        | some connectionId => exact runs_ask hK (fun _ h => by cases h) hw fun _ _ hw' => hw'
  unfold drainAccepting
  refine hmoved.bind fun moved w₁ hw₁ => ?_
  split
  · exact runs_ask (K := fun _ => True) (fun _ _ _ _ => trivial) (fun _ h => by cases h) trivial
      fun _ _ _ => trivial
  · exact runs_drainReserved hw₁

theorem runs_drainTrigger {parts : DrainParts} {triggerId : String} :
    Inbox.Runs c holder (fun _ _ => True) (drainTrigger parts triggerId) w := by
  have hK : Inbox.Stays holder fun _ => True := fun _ _ _ _ => trivial
  unfold drainTrigger
  refine runs_ask hK (fun _ h => by cases h) trivial fun ends w₁ _ => ?_
  refine (ensured_forEach (K := fun _ => True) (fun ended _ w _ => ?_) w₁ trivial).bind fun _ w₂ _ => ?_
  · exact runs_ask hK (fun _ h => by cases h) trivial fun _ _ _ => trivial
  refine runs_ask hK (fun _ h => by cases h) trivial fun active w₃ _ => ?_
  split_ifs
  · trivial
  · refine fun w₄ _ s => ⟨trivial, fun x => ?_⟩
    have hknown : ∀ e, (Inbox.perform c holder w₄ (.oldestReceived triggerId) x).1 = some e →
        Inbox.Known c holder e w₄ := by
      intro e he
      obtain ⟨r, hr, rfl⟩ := Option.map_eq_some_iff.mp he
      obtain ⟨hmem, -, hstate⟩ := mem_oldestReceived hr
      obtain ⟨input, hdelivered, -, hvalues⟩ := s.kept.recorded r hmem
      exact ⟨rfl, input, hdelivered, hvalues hstate⟩
    have hstays : Inbox.Stays holder fun w => ∀ e,
        (Inbox.perform c holder w₄ (.oldestReceived triggerId) x).1 = some e →
          Inbox.Known c holder e w :=
      fun w w' hw hrelies e he => stays_known _ _ (hw e he) hrelies
    refine runs_ask hstays (fun _ h => by cases h) hknown fun accepting w₅ hw₅ => ?_
    refine runs_ask hstays (fun _ h => by cases h) hw₅ fun trigger w₆ hw₆ => ?_
    split
    · exact runs_drainAccepting hw₆
    · split
      · trivial
      · exact runs_ask hK (fun _ h => by cases h) trivial fun _ _ _ => trivial

theorem ensured_drainWebhooks (parts : DrainParts) :
    Inbox.Runs c holder (fun _ _ => True) (drainWebhooks parts) w := by
  have hK : Inbox.Stays holder fun _ => True := fun _ _ _ _ => trivial
  unfold drainWebhooks
  refine runs_ask hK (fun _ h => by cases h) trivial fun windowStart w₁ _ => ?_
  refine runs_ask hK (fun _ h => by cases h) trivial fun _ w₂ _ => ?_
  refine runs_ask hK (fun _ h => by cases h) trivial fun _ w₃ _ => ?_
  refine runs_ask hK (fun _ h => by cases h) trivial fun triggerIds w₄ _ => ?_
  exact ensured_forEach (K := fun _ => True) (fun triggerId _ w _ => runs_drainTrigger) w₄ trivial

end Pass

/-! ## The system -/

/-- What the ledger is, over the runs of the system. -/
theorem sound_inboxCrowd (c : EventCipher) (digest : List UInt8 → String) (parts : DrainParts) :
    (inboxCrowd c digest parts).Sound (Inbox.Sound c) Inbox.Relies Inbox.Guard Inbox.Allowed where
  refl := Inbox.Relies.refl
  trans _ _ _ _ := Inbox.Relies.trans
  program _ _ _ := ensured_drainWebhooks parts
  perform _ _ _ x s hg := s.perform x hg
  others _ _ _ o x hne _ _ := Inbox.relies_others hne o x
  outside e _ _ s := s.outside e
  unmoved _ _ q _ _ := Inbox.relies_outside q

theorem sound_empty (triggers : Store) (shopHosts : String → Option String) :
    Inbox.Sound c (Inbox.empty triggers shopHosts) where
  kept := by
    refine ⟨List.nodup_nil, List.nodup_nil, ?_, List.nodup_nil, ?_, List.nodup_nil, ?_, List.nodup_nil, ?_,
      fun _ => Nat.zero_le _, ?_⟩ <;>
      exact fun _ h => absurd h List.not_mem_nil
  attempts := by
    refine ⟨List.nodup_nil, ?_, ?_, List.nodup_nil, ?_, ?_, List.nodup_nil, ?_⟩ <;>
      exact fun _ h => absurd h List.not_mem_nil

/-- Every row there was, moved by one statement. -/
def Inbox.Stepped (w w' : Inbox) : Prop :=
  ∀ r ∈ w.events, ∃ r' ∈ w'.events, r.Moved r'

/-- Every row there was, whatever happened since. -/
def Inbox.Became (w w' : Inbox) : Prop :=
  ∀ r ∈ w.events, ∃ r' ∈ w'.events, r.Became r'

theorem Inbox.Stepped.refl (w : Inbox) : w.Stepped w :=
  fun r hr => ⟨r, hr, .refl r⟩

theorem Inbox.Stepped.became {w w' : Inbox} (h : w.Stepped w') : w.Became w' := fun r hr => by
  obtain ⟨r', hr', hmoved⟩ := h r hr
  exact ⟨r', hr', hmoved.became⟩

theorem stepped_of_moved {w w' : Inbox} (h : AllMoved w.events w'.events) : w.Stepped w' := fun _ hr =>
  AllRel.forth h hr

theorem stepped_perform {w : Inbox} {holder : String} {o : DrainOp} {x : DrainChoice} :
    w.Stepped (Inbox.perform c holder w o x).2 := by
  cases o with
  | sweepValues before => exact stepped_of_moved (AllAside.moved (aside_sweepValues before))
  | tombstoneRows before => exact stepped_of_moved (AllAside.moved (aside_tombstoneRows before))
  | markReported id => exact stepped_of_moved (AllAside.moved (aside_markReported id x.now))
  | dropWaiting triggerId reason =>
    exact stepped_of_moved (AllAside.moved (aside_dropWaiting triggerId reason))
  | drop id reason => exact stepped_of_moved (AllAside.moved (aside_drop id reason))
  | markUnknownReported id => exact stepped_of_moved (AllAside.moved (aside_markUnknownReported id x.now))
  | begin id attemptId => exact stepped_of_moved (allMoved_begin id attemptId)
  | finish id attemptId outcome => exact stepped_of_moved (allMoved_finish id attemptId outcome)
  | _ => exact .refl w

theorem stepped_outside {w : Inbox} {digest : List UInt8 → String} {e : InboxEvent} :
    w.Stepped (Inbox.outside c digest e w) := by
  cases e with
  | deliver d id now =>
    intro r hr
    refine ⟨r, ?_, .refl r⟩
    show r ∈ (handle c digest w.events d id now).2
    rcases @handle_eq c digest w.events d id now with heq | ⟨heq, -, -⟩
    · rw [heq]
      exact hr
    · rw [heq]
      exact List.mem_append_left _ hr
  | settle slot outcome => exact stepped_of_moved (allMoved_finish slot.eventId slot.attemptId outcome)
  | edit triggers shopHosts => exact .refl w

/-- The dedup key of an event. -/
def Inbox.keyOf (w : Inbox) (id : String) : Option String :=
  (Table.find InboundEvent.id w.events id).map InboundEvent.dedupKey

/-- Notes that are once for an event are once for a dedup key. -/
theorem Inbox.Kept.once_for_key {w : Inbox} (k : w.Kept c) {α : Type} {l : List α} {f : α → String}
    (hl : (l.map f).Nodup) (key : String) : l.countP (fun a => w.keyOf (f a) = some key) ≤ 1 := by
  have hrow : ∀ a, w.keyOf (f a) = some key → ∃ r ∈ w.events, r.id = f a ∧ r.dedupKey = key := by
    intro a ha
    obtain ⟨r, hr, hkey⟩ := Option.map_eq_some_iff.mp ha
    exact ⟨r, Table.mem_of_find hr, Table.key_of_find hr, hkey⟩
  by_cases hthere : ∃ r ∈ w.events, r.dedupKey = key
  · obtain ⟨r, hr, hkey⟩ := hthere
    refine Table.countP_le_one (k := r.id) hl fun a _ ha => ?_
    obtain ⟨r', hr', hid, hkey'⟩ := hrow a (of_decide_eq_true ha)
    rw [← hid, List.inj_on_of_nodup_map k.keys hr' hr (hkey'.trans hkey.symm)]
  · rw [List.countP_eq_zero.mpr fun a _ ha => ?_]
    · exact Nat.zero_le 1
    · obtain ⟨r, hr, -, hkey⟩ := hrow a (of_decide_eq_true ha)
      exact hthere ⟨r, hr, hkey⟩

/-- At any point of a run of the system, and at any later one : for a dedup key one `begin` at most
was granted and one run at most started, with the values recorded; an action moves an event's state
by one move or none, and an event that ended stays as it ended; what was begun was ended by its
attempt, once; an end and an unknown outcome were claimed once for a report; and no trigger holds
more events waiting than it may. -/
theorem a_delivery_starts_one_run (c : EventCipher) (digest : List UInt8 → String) (parts : DrainParts)
    (triggers : Store) (shopHosts : String → Option String)
    (actions later : List (Crowd.Action DrainChoice InboxEvent String))
    (ho : Run.Obeys (inboxCrowd c digest parts).step (Crowd.Sound.ActionAllowed Inbox.Allowed)
      (Crowd.idle (Inbox.empty triggers shopHosts)) (actions ++ later)) :
    let x := Run.after (inboxCrowd c digest parts).step
      (Crowd.idle (Inbox.empty triggers shopHosts)) actions
    let w := x.state
    (∀ key, w.begun.countP (fun b => w.keyOf b.eventId = some key) ≤ 1) ∧
      (∀ key, w.runs.countP (fun run => w.keyOf run.2.eventId = some key) ≤ 1) ∧
      (∀ run ∈ w.runs, ∃ input : RecordDelivery, run.2.values = eventValues input.values ∧
        ∀ input', (run.2.eventId, input') ∈ w.deliveries ↔ input' = input) ∧
      (∀ a, Crowd.Sound.ActionAllowed Inbox.Allowed x a → ∀ r ∈ w.events,
        ∃ r' ∈ ((inboxCrowd c digest parts).step x a).state.events,
          r'.id = r.id ∧ (r'.state = r.state ∨ r.state.Moves r'.state)) ∧
      (∀ r ∈ w.events, r.state.Ended →
        ∃ r' ∈ (Run.after (inboxCrowd c digest parts).step x later).state.events,
          r'.id = r.id ∧ r'.state = r.state) ∧
      (∀ b ∈ w.begun, ∀ r ∈ w.events, r.id = b.eventId → r.state.Ended →
        (b.eventId, b.attemptId) ∈ w.ended) ∧
      (∀ e ∈ w.ended, ∃ b ∈ w.begun, b.eventId = e.1 ∧ b.attemptId = e.2) ∧
      (w.ended.map Prod.fst).Nodup ∧ w.reported.Nodup ∧ w.unknown.Nodup ∧
      ∀ triggerId, countWaiting w.events triggerId ≤ maxWaitingEvents := by
  intro x w
  obtain ⟨ho₁, ho₂⟩ := Run.obeys_append.mp ho
  have hsound := sound_inboxCrowd c digest parts
  have hsafe := hsound.run (sound_empty triggers shopHosts) ho₁
  have hstep := @Crowd.Sound.relates_step _ _ _ _ _ _ _ _ _ _ _ _ _ hsound Inbox.Stepped Inbox.Stepped.refl
    (fun _ _ _ _ _ _ => stepped_perform) (fun _ _ _ _ => stepped_outside)
  have hlater := hsound.relates (ρ := Inbox.Became) (fun w => (Inbox.Stepped.refl w).became)
    (fun _ _ _ h h' r hr => by
      obtain ⟨r', hr', hb⟩ := h r hr
      obtain ⟨r'', hr'', hb'⟩ := h' r' hr'
      exact ⟨r'', hr'', hb.trans hb'⟩)
    (fun _ _ _ _ _ _ => stepped_perform.became) (fun _ _ _ _ => stepped_outside.became) hsafe ho₂
  have k := hsafe.1.kept
  have a := hsafe.1.attempts
  refine ⟨k.once_for_key a.begunOnce, k.once_for_key a.runOnce, fun run hrun => ?_, fun act hact r hr => ?_,
    fun r hr hended => ?_, fun b hb r hr hid hended => ?_, fun e he => (a.ended e he).1, a.endedOnce,
    k.reportedOnce, k.unknownOnce, k.waiting⟩
  · obtain ⟨input, hmem, hvalues⟩ := k.values run hrun
    refine ⟨input, hvalues, fun input' => ⟨fun hmem' => ?_, fun he => he ▸ hmem⟩⟩
    exact congrArg Prod.snd (List.inj_on_of_nodup_map k.once hmem' hmem rfl)
  · obtain ⟨r', hr', hmoved⟩ := hstep hsafe hact r hr
    exact ⟨r', hr', hmoved.id, hmoved.state⟩
  · obtain ⟨r', hr', hbecame⟩ := hlater r hr
    exact ⟨r', hr', hbecame.id, hbecame.state.of_ended hended⟩
  · rcases a.byAttempt b hb with he | ⟨r', hr', hid', hrunning⟩
    · exact he
    · rw [eq_of_id k.ids hr hr' (hid.trans hid'.symm), hrunning] at hended
      exact absurd hended (by decide)

/-! ## One body delivered twice -/

/-- A process that reads no stored value. -/
def noKey : EventCipher :=
  ⟨fun _ => "", fun _ _ => none, fun _ _ _ h => absurd h (by simp)⟩

def emptyBodyDigest : List UInt8 → String := fun _ =>
  "e3b0c44298fc1c149afbf4c8996fb92427ae41e4649b934ca495991b7852b855"

def tokenParts : DrainParts :=
  ⟨fun _ => some .sharedToken, id⟩

/-- A webhook trigger that accepts. -/
def ordersTrigger : Trigger :=
  { bulkRow "orders" .runWorkflow "new order" "0" with
    id := "orders", source := .webhook, nextRunAt := none }.inserted [] "0" "0"

def ordersDelivery : Delivery where
  triggerId := "orders"
  kind := .sharedToken
  verified := true
  shop := none
  shopHost := ""
  body := []
  mapped := none
  headers := []

/-- The body comes twice, and then a process makes a pass. -/
def deliveredTwice : List (Crowd.Action DrainChoice InboxEvent String) :=
  .outside (.deliver ordersDelivery "first" "1") :: .outside (.deliver ordersDelivery "second" "1") ::
    .enter "engine" :: List.replicate 16 (.advance "engine" ⟨"2", "3", "1", false, true, "attempt"⟩)

theorem delivered_twice_runs_once :
    let x := Run.after (inboxCrowd noKey emptyBodyDigest tokenParts).step
      (Crowd.idle (Inbox.empty ⟨[ordersTrigger], [], false⟩ fun _ => none)) deliveredTwice
    x.state.runs.length = 1 ∧
      ∀ key, x.state.runs.countP (fun run => x.state.keyOf run.2.eventId = some key) ≤ 1 := by
  intro x
  have hallowed : ∀ a ∈ deliveredTwice ++ [], ∀ y : Crowd.Config DrainOp DrainOp.Ans Inbox String Unit,
      Crowd.Sound.ActionAllowed Inbox.Allowed y a := by
    intro a ha y
    rw [List.append_nil] at ha
    simp only [deliveredTwice, List.mem_cons, List.mem_replicate] at ha
    rcases ha with rfl | rfl | rfl | ⟨-, rfl⟩ <;> trivial
  have hx := a_delivery_starts_one_run noKey emptyBodyDigest tokenParts ⟨[ordersTrigger], [], false⟩
    (fun _ => none) deliveredTwice [] (Run.obeys_of_forall hallowed _)
  exact ⟨by decide +kernel, hx.2.1⟩

end Lynox.Triggers
