import Lynox.Triggers.Drain

/-!
# What the ledger keeps

A row is there for each delivery recorded, and an end and an unknown outcome are claimed once for a
report (`Inbox.Kept`); what was begun was begun once, ended by its attempt and run at most once
(`Inbox.Attempts`). Every statement of the ledger keeps both, from whatever process it comes.
-/

namespace Lynox.Triggers

open InboundEvents Program

variable {c : EventCipher}

/-! ## What is kept -/

/-- The rows of the deliveries, what was claimed for a report, and how many events wait. -/
structure Inbox.Kept (c : EventCipher) (w : Inbox) : Prop where
  ids : (w.events.map InboundEvent.id).Nodup
  keys : (w.events.map InboundEvent.dedupKey).Nodup
  recorded : ∀ r ∈ w.events, ∃ input : RecordDelivery, (r.id, input) ∈ w.deliveries ∧
    r.dedupKey = input.dedupKey ∧ (r.state = .received → r.valuesJson = input.values.map c.enc)
  once : (w.deliveries.map Prod.fst).Nodup
  delivered : ∀ d ∈ w.deliveries, ∃ r ∈ w.events, r.id = d.1
  reportedOnce : w.reported.Nodup
  reported : ∀ id ∈ w.reported, ∃ r ∈ w.events, r.id = id ∧ r.reportedAt.isSome
  unknownOnce : w.unknown.Nodup
  unknown : ∀ id ∈ w.unknown, ∃ r ∈ w.events, r.id = id ∧ r.unknownReportedAt.isSome
  waiting : ∀ triggerId, countWaiting w.events triggerId ≤ maxWaitingEvents
  values : ∀ run ∈ w.runs, ∃ input : RecordDelivery, (run.2.eventId, input) ∈ w.deliveries ∧
    run.2.values = eventValues input.values

/-- What was begun, ended and run. -/
structure Inbox.Attempts (w : Inbox) : Prop where
  begunOnce : (w.begun.map Begun.eventId).Nodup
  begun : ∀ b ∈ w.begun, ∃ r ∈ w.events, r.id = b.eventId ∧ r.state ≠ .received
  running : ∀ r ∈ w.events, r.state = .running →
    ∃ b ∈ w.begun, b.eventId = r.id ∧ r.attemptId = some b.attemptId
  endedOnce : (w.ended.map Prod.fst).Nodup
  ended : ∀ e ∈ w.ended, (∃ b ∈ w.begun, b.eventId = e.1 ∧ b.attemptId = e.2) ∧
    ∃ r ∈ w.events, r.id = e.1 ∧ r.state.Ended
  byAttempt : ∀ b ∈ w.begun, (b.eventId, b.attemptId) ∈ w.ended ∨
    ∃ r ∈ w.events, r.id = b.eventId ∧ r.state = .running
  runOnce : (w.runs.map fun run => run.2.eventId).Nodup
  run : ∀ run ∈ w.runs, ∃ b ∈ w.begun, b.eventId = run.2.eventId ∧ b.attemptId = run.2.attemptId ∧
    b.holder = run.1

structure Inbox.Sound (c : EventCipher) (w : Inbox) : Prop where
  kept : w.Kept c
  attempts : w.Attempts

/-! ## Rows before and after -/

section Rows

variable {rows rows' : List InboundEvent} {S : InboundEvent → InboundEvent → Prop} {r r' : InboundEvent}

theorem AllRel.forth (h : AllRel S rows rows') (hr : r ∈ rows) : ∃ r' ∈ rows', S r r' := by
  obtain ⟨g, rfl, hg⟩ := h
  exact ⟨g r, List.mem_map_of_mem hr, hg r hr⟩

theorem AllRel.back (h : AllRel S rows rows') (hr : r' ∈ rows') : ∃ r ∈ rows, S r r' := by
  obtain ⟨g, rfl, hg⟩ := h
  obtain ⟨r, hmem, rfl⟩ := List.mem_map.mp hr
  exact ⟨r, hmem, hg r hmem⟩

theorem AllMoved.ids (h : AllMoved rows rows') : rows'.map InboundEvent.id = rows.map InboundEvent.id := by
  obtain ⟨g, rfl, hg⟩ := h
  rw [List.map_map]
  exact List.map_congr_left fun r hr => (hg r hr).id

theorem AllMoved.keys (h : AllMoved rows rows') :
    rows'.map InboundEvent.dedupKey = rows.map InboundEvent.dedupKey := by
  obtain ⟨g, rfl, hg⟩ := h
  rw [List.map_map]
  exact List.map_congr_left fun r hr => (hg r hr).dedupKey

/-- Two rows under one id are one. -/
theorem eq_of_id (hk : (rows.map InboundEvent.id).Nodup) (hr : r ∈ rows) (hr' : r' ∈ rows)
    (h : r.id = r'.id) : r = r' :=
  List.inj_on_of_nodup_map hk hr hr' h

theorem InboundEvent.Moved.not_received (h : r.Moved r') (hr : r.state ≠ .received) :
    r'.state ≠ .received := fun he =>
  hr (h.waits he ▸ he)

theorem InboundEvent.Moved.ended (h : r.Moved r') (hr : r.state.Ended) : r'.state.Ended := by
  rw [h.became.state.of_ended hr]
  exact hr

end Rows

section Steps

variable {w : Inbox}

/-- Every move of the rows keeps what is kept. -/
theorem Inbox.Kept.moved (k : w.Kept c) {rows : List InboundEvent} (h : AllMoved w.events rows)
    (begun : List Begun) (ended : List (String × String)) :
    Inbox.Kept c { w with events := rows, begun := begun, ended := ended } where
  ids := (congrArg List.Nodup (AllMoved.ids h)).mpr k.ids
  keys := (congrArg List.Nodup (AllMoved.keys h)).mpr k.keys
  recorded r' hr' := by
    obtain ⟨r, hr, hmoved⟩ := AllRel.back h hr'
    obtain ⟨input, hmem, hkey, hvalues⟩ := k.recorded r hr
    refine ⟨input, by rw [hmoved.id]; exact hmem, hmoved.dedupKey.trans hkey, fun hw => ?_⟩
    have hsame := hmoved.waits hw
    rw [hsame] at hw ⊢
    exact hvalues hw
  once := k.once
  delivered d hd := by
    obtain ⟨r, hr, hid⟩ := k.delivered d hd
    obtain ⟨r', hr', hmoved⟩ := AllRel.forth h hr
    exact ⟨r', hr', hmoved.id.trans hid⟩
  reportedOnce := k.reportedOnce
  reported id hid := by
    obtain ⟨r, hr, hrid, hsome⟩ := k.reported id hid
    obtain ⟨r', hr', hmoved⟩ := AllRel.forth h hr
    exact ⟨r', hr', hmoved.id.trans hrid, hmoved.reported hsome⟩
  unknownOnce := k.unknownOnce
  unknown id hid := by
    obtain ⟨r, hr, hrid, hsome⟩ := k.unknown id hid
    obtain ⟨r', hr', hmoved⟩ := AllRel.forth h hr
    exact ⟨r', hr', hmoved.id.trans hrid, hmoved.unknown hsome⟩
  waiting triggerId := le_trans (countWaiting_moved h) (k.waiting triggerId)
  values := k.values

/-- A move aside keeps the attempts. -/
theorem Inbox.Attempts.aside (a : w.Attempts) {rows : List InboundEvent} (h : AllAside w.events rows) :
    Inbox.Attempts { w with events := rows } where
  begunOnce := a.begunOnce
  begun b hb := by
    obtain ⟨r, hr, hid, hstate⟩ := a.begun b hb
    obtain ⟨r', hr', hmoved, -⟩ := AllRel.forth h hr
    exact ⟨r', hr', hmoved.id.trans hid, hmoved.not_received hstate⟩
  running r' hr' hrunning := by
    obtain ⟨r, hr, hmoved, hstate⟩ := AllRel.back h hr'
    have hwas : r.state = .running := by
      rcases hstate with hstate | ⟨-, hstate⟩
      · exact hstate.symm.trans hrunning
      · rw [hrunning] at hstate
        exact absurd hstate (by decide)
    obtain ⟨b, hb, hid, hattempt⟩ := a.running r hr hwas
    exact ⟨b, hb, hid.trans hmoved.id.symm, (hmoved.attempt hwas hrunning).trans hattempt⟩
  endedOnce := a.endedOnce
  ended e he := by
    obtain ⟨hb, r, hr, hid, hended⟩ := a.ended e he
    obtain ⟨r', hr', hmoved, -⟩ := AllRel.forth h hr
    exact ⟨hb, r', hr', hmoved.id.trans hid, hmoved.ended hended⟩
  byAttempt b hb := by
    rcases a.byAttempt b hb with he | ⟨r, hr, hid, hrunning⟩
    · exact Or.inl he
    · obtain ⟨r', hr', hmoved, hstate⟩ := AllRel.forth h hr
      refine Or.inr ⟨r', hr', hmoved.id.trans hid, ?_⟩
      rcases hstate with hstate | ⟨hreceived, -⟩
      · exact hstate.trans hrunning
      · rw [hrunning] at hreceived
        exact absurd hreceived (by decide)
  runOnce := a.runOnce
  run := a.run

theorem Inbox.Sound.aside (s : w.Sound c) {rows : List InboundEvent} (h : AllAside w.events rows) :
    Inbox.Sound c { w with events := rows } :=
  ⟨s.kept.moved (AllAside.moved h) w.begun w.ended, s.attempts.aside h⟩

/-! ## Begin and finish -/

theorem Inbox.Sound.begin (s : w.Sound c) {id attemptId holder : String} :
    Inbox.Sound c { w with
      events := (InboundEvents.begin w.events id attemptId).2
      begun := noteIf (InboundEvents.begin w.events id attemptId).1 ⟨id, attemptId, holder⟩ w.begun } := by
  have hp : ∀ r : InboundEvent, (r.id = id && r.state = .received) = true → r.id = id := fun r h =>
    of_decide_eq_true (Bool.and_eq_true _ _ ▸ h).1
  have hmoved : AllMoved w.events (InboundEvents.begin w.events id attemptId).2 :=
    allMoved_begin id attemptId
  have hiff : (InboundEvents.begin w.events id attemptId).1 = true ↔
      ∃ r ∈ w.events, (r.id = id && r.state = .received) = true := by
    rw [InboundEvents.begin, decide_eq_true_eq]
    exact update_id s.kept.ids hp
  by_cases hgranted : ∃ r ∈ w.events, (r.id = id && r.state = .received) = true
  · obtain ⟨r₀, hr₀, hr₀p⟩ := hgranted
    obtain ⟨hid₀, hstate₀⟩ : r₀.id = id ∧ r₀.state = .received := by simpa using hr₀p
    rw [noteIf, if_pos (hiff.mpr ⟨r₀, hr₀, hr₀p⟩)]
    refine ⟨s.kept.moved hmoved _ _, ?_⟩
    have a := s.attempts
    have hnew : ∀ b ∈ w.begun, b.eventId ≠ id := by
      intro b hb hbid
      obtain ⟨r, hr, hrid, hstate⟩ := a.begun b hb
      rw [eq_of_id s.kept.ids hr hr₀ (hrid.trans (hbid.trans hid₀.symm))] at hstate
      exact hstate hstate₀
    -- a row is begun here, or it stays as it is
    have hback : ∀ r' ∈ (InboundEvents.begin w.events id attemptId).2, r' ∈ w.events ∨
        r'.id = id ∧ r'.state = .running ∧ r'.attemptId = some attemptId := by
      intro r' hr'
      rcases of_mem_update hr' with hr | ⟨r, -, hpr, rfl⟩
      · exact Or.inl hr
      · exact Or.inr ⟨hp r hpr, rfl, rfl⟩
    have hforth : ∀ r ∈ w.events, r.id ≠ id → r ∈ (InboundEvents.begin w.events id attemptId).2 :=
      fun r hr hne => mem_update_other hr fun hpr => hne (hp r hpr)
    have hbegun : { r₀ with state := .running, attemptId := some attemptId } ∈
        (InboundEvents.begin w.events id attemptId).2 := mem_update_self hr₀ hr₀p
    exact {
      begunOnce := List.nodup_cons.mpr ⟨fun hmem => by
        obtain ⟨b, hb, hbid⟩ := List.mem_map.mp hmem
        exact hnew b hb hbid, a.begunOnce⟩
      begun := fun b hb => by
        rcases List.mem_cons.mp hb with rfl | hb
        · exact ⟨_, hbegun, hid₀, by simp⟩
        · obtain ⟨r, hr, hrid, hstate⟩ := a.begun b hb
          exact ⟨r, hforth r hr (hrid ▸ hnew b hb), hrid, hstate⟩
      running := fun r' hr' hrunning => by
        rcases hback r' hr' with hr | ⟨hrid, -, hattempt⟩
        · obtain ⟨b, hb, hbid, hattempt⟩ := a.running r' hr hrunning
          exact ⟨b, List.mem_cons_of_mem _ hb, hbid, hattempt⟩
        · exact ⟨_, List.mem_cons_self, hrid.symm, hattempt⟩
      endedOnce := a.endedOnce
      ended := fun e he => by
        obtain ⟨⟨b, hb, hbid, hbattempt⟩, r, hr, hrid, hended⟩ := a.ended e he
        exact ⟨⟨b, List.mem_cons_of_mem _ hb, hbid, hbattempt⟩, r,
          hforth r hr (hrid.trans hbid.symm ▸ hnew b hb), hrid, hended⟩
      byAttempt := fun b hb => by
        rcases List.mem_cons.mp hb with rfl | hb
        · exact Or.inr ⟨_, hbegun, hid₀, rfl⟩
        · rcases a.byAttempt b hb with he | ⟨r, hr, hrid, hrunning⟩
          · exact Or.inl he
          · exact Or.inr ⟨r, hforth r hr (hrid ▸ hnew b hb), hrid, hrunning⟩
      runOnce := a.runOnce
      run := fun run hrun => by
        obtain ⟨b, hb, hrest⟩ := a.run run hrun
        exact ⟨b, List.mem_cons_of_mem _ hb, hrest⟩ }
  · have hsame : (InboundEvents.begin w.events id attemptId).2 = w.events := update_none hgranted
    rw [noteIf, if_neg fun h => hgranted (hiff.mp h), hsame]
    exact s

theorem Inbox.Sound.finish (s : w.Sound c) {id attemptId : String} {outcome : EventOutcome} :
    Inbox.Sound c { w with
      events := (InboundEvents.finish w.events id attemptId outcome).2
      ended := noteIf (InboundEvents.finish w.events id attemptId outcome).1 (id, attemptId) w.ended } := by
  have hp : ∀ r : InboundEvent,
      (r.id = id && r.state = .running && r.attemptId = some attemptId) = true ↔
        r.id = id ∧ r.state = .running ∧ r.attemptId = some attemptId := fun r => by
    simp [and_assoc]
  have hmoved : AllMoved w.events (InboundEvents.finish w.events id attemptId outcome).2 :=
    allMoved_finish id attemptId outcome
  have hiff : (InboundEvents.finish w.events id attemptId outcome).1 = true ↔
      ∃ r ∈ w.events, (r.id = id && r.state = .running && r.attemptId = some attemptId) = true := by
    rw [InboundEvents.finish, decide_eq_true_eq]
    exact update_id s.kept.ids fun r h => ((hp r).mp h).1
  by_cases hgranted : ∃ r ∈ w.events,
      (r.id = id && r.state = .running && r.attemptId = some attemptId) = true
  · obtain ⟨r₀, hr₀, hr₀p⟩ := hgranted
    obtain ⟨hid₀, hstate₀, hattempt₀⟩ := (hp r₀).mp hr₀p
    rw [noteIf, if_pos (hiff.mpr ⟨r₀, hr₀, hr₀p⟩)]
    refine ⟨s.kept.moved hmoved _ _, ?_⟩
    have a := s.attempts
    obtain ⟨b₀, hb₀, hb₀id, hb₀attempt⟩ := a.running r₀ hr₀ hstate₀
    have hb₀a : b₀.attemptId = attemptId := Option.some.inj (hb₀attempt.symm.trans hattempt₀)
    have hnew : ∀ e ∈ w.ended, e.1 ≠ id := by
      intro e he heid
      obtain ⟨-, r, hr, hrid, hended⟩ := a.ended e he
      rw [eq_of_id s.kept.ids hr hr₀ (hrid.trans (heid.trans hid₀.symm)), hstate₀] at hended
      exact absurd hended (by decide)
    have hback : ∀ r' ∈ (InboundEvents.finish w.events id attemptId outcome).2, r' ∈ w.events ∨
        r'.id = id ∧ r'.state.Ended := by
      intro r' hr'
      rcases of_mem_update hr' with hr | ⟨r, -, hpr, rfl⟩
      · exact Or.inl hr
      · exact Or.inr ⟨((hp r).mp hpr).1, ended_outcome outcome⟩
    have hforth : ∀ r ∈ w.events, r.id ≠ id →
        r ∈ (InboundEvents.finish w.events id attemptId outcome).2 :=
      fun r hr hne => mem_update_other hr fun hpr => hne ((hp r).mp hpr).1
    exact {
      begunOnce := a.begunOnce
      begun := fun b hb => by
        obtain ⟨r, hr, hrid, hstate⟩ := a.begun b hb
        obtain ⟨r', hr', hm⟩ := AllRel.forth hmoved hr
        exact ⟨r', hr', hm.id.trans hrid, hm.not_received hstate⟩
      running := fun r' hr' hrunning => by
        rcases hback r' hr' with hr | ⟨-, hended⟩
        · exact a.running r' hr hrunning
        · rw [hrunning] at hended
          exact absurd hended (by decide)
      endedOnce := List.nodup_cons.mpr ⟨fun hmem => by
        obtain ⟨e, he, heid⟩ := List.mem_map.mp hmem
        exact hnew e he heid, a.endedOnce⟩
      ended := fun e he => by
        rcases List.mem_cons.mp he with rfl | he
        · exact ⟨⟨b₀, hb₀, hb₀id.trans hid₀, hb₀a⟩, _, mem_update_self hr₀ hr₀p, hid₀, ended_outcome outcome⟩
        · obtain ⟨hb, r, hr, hrid, hended⟩ := a.ended e he
          exact ⟨hb, r, hforth r hr (hrid ▸ hnew e he), hrid, hended⟩
      byAttempt := fun b hb => by
        rcases a.byAttempt b hb with he | ⟨r, hr, hrid, hrunning⟩
        · exact Or.inl (List.mem_cons_of_mem _ he)
        · by_cases hbid : b.eventId = id
          · left
            have hbb : b = b₀ := List.inj_on_of_nodup_map a.begunOnce hb hb₀
              (hbid.trans (hb₀id.trans hid₀).symm)
            rw [hbb, hb₀a, hb₀id, hid₀]
            exact List.mem_cons_self
          · exact Or.inr ⟨r, hforth r hr (hrid.trans_ne hbid), hrid, hrunning⟩
      runOnce := a.runOnce
      run := a.run }
  · have hsame : (InboundEvents.finish w.events id attemptId outcome).2 = w.events := update_none hgranted
    rw [noteIf, if_neg fun h => hgranted (hiff.mp h), hsame]
    exact s

/-! ## Reports and deliveries -/

/-- A report that is claimed where none was is a new one. -/
theorem noted_once {rows : List InboundEvent} {log : List String} {id : String}
    {stamp : InboundEvent → Option String} {p : InboundEvent → Bool} {f : InboundEvent → InboundEvent}
    (hids : (rows.map InboundEvent.id).Nodup) (hp : ∀ r, p r = true → r.id = id ∧ stamp r = none)
    (hf : ∀ r, (f r).id = r.id ∧ (stamp (f r)).isSome) (hgranted : (update rows p f).1 = 1)
    (honce : log.Nodup) (hlog : ∀ id ∈ log, ∃ r ∈ rows, r.id = id ∧ (stamp r).isSome)
    (hkept : ∀ id ∈ log, ∃ r ∈ (update rows p f).2, r.id = id ∧ (stamp r).isSome) :
    (id :: log).Nodup ∧ ∀ id' ∈ id :: log, ∃ r ∈ (update rows p f).2, r.id = id' ∧ (stamp r).isSome := by
  obtain ⟨r, hr, hpr⟩ := (update_id hids fun r h => (hp r h).1).mp hgranted
  obtain ⟨hid, hnone⟩ := hp r hpr
  refine ⟨List.nodup_cons.mpr ⟨fun hmem => ?_, honce⟩, fun id' hid' => ?_⟩
  · obtain ⟨r', hr', hrid', hsome⟩ := hlog id hmem
    rw [eq_of_id hids hr' hr (hrid'.trans hid.symm), hnone] at hsome
    exact absurd hsome (by decide)
  · rcases List.mem_cons.mp hid' with rfl | hid'
    · exact ⟨f r, mem_update_self hr hpr, (hf r).1.trans hid, (hf r).2⟩
    · exact hkept id' hid'

theorem Inbox.Sound.markReported (s : w.Sound c) {id now : String} :
    Inbox.Sound c { w with
      events := (InboundEvents.markReported w.events id now).2
      reported := noteIf (InboundEvents.markReported w.events id now).1 id w.reported } := by
  have haside := s.aside (@aside_markReported w.events id now)
  by_cases hgranted : (InboundEvents.markReported w.events id now).1 = true
  · obtain ⟨honce, hnoted⟩ := noted_once (f := fun r => { r with reportedAt := some now }) s.kept.ids
      (fun r h => by
        simp only [Bool.and_eq_true, decide_eq_true_eq, Option.isNone_iff_eq_none] at h
        exact ⟨h.1.1, h.2⟩)
      (fun r => ⟨rfl, rfl⟩) (of_decide_eq_true hgranted) s.kept.reportedOnce s.kept.reported haside.kept.reported
    rw [noteIf, if_pos hgranted]
    exact ⟨{ haside.kept with reportedOnce := honce, reported := hnoted }, { haside.attempts with }⟩
  · rw [noteIf, if_neg hgranted]
    exact haside

theorem Inbox.Sound.markUnknownReported (s : w.Sound c) {id now : String} :
    Inbox.Sound c { w with
      events := (InboundEvents.markUnknownReported w.events id now).2
      unknown := noteIf (InboundEvents.markUnknownReported w.events id now).1 id w.unknown } := by
  have haside := s.aside (@aside_markUnknownReported w.events id now)
  by_cases hgranted : (InboundEvents.markUnknownReported w.events id now).1 = true
  · obtain ⟨honce, hnoted⟩ := noted_once (f := fun r => { r with unknownReportedAt := some now }) s.kept.ids
      (fun r h => by
        simp only [Bool.and_eq_true, decide_eq_true_eq, Option.isNone_iff_eq_none] at h
        exact ⟨h.1.1, h.2⟩)
      (fun r => ⟨rfl, rfl⟩) (of_decide_eq_true hgranted) s.kept.unknownOnce s.kept.unknown haside.kept.unknown
    rw [noteIf, if_pos hgranted]
    exact ⟨{ haside.kept with unknownOnce := honce, unknown := hnoted }, { haside.attempts with }⟩
  · rw [noteIf, if_neg hgranted]
    exact haside

/-- A request adds a row under a new id and a new key, or nothing. -/
theorem handle_eq (digest : List UInt8 → String) (rows : List InboundEvent) (d : Delivery)
    (id now : String) : handle c digest rows d id now = (false, rows) ∨
      handle c digest rows d id now = (true, rows ++ [(d.input digest rows).row c id now]) ∧
        has rows (d.input digest rows).dedupKey = false ∧ ∀ r ∈ rows, r.id ≠ id := by
  unfold handle record
  split_ifs with hverified hthere
  · exact Or.inl rfl
  · obtain ⟨hkey, hid⟩ := Bool.or_eq_false_iff.mp (Bool.eq_false_iff.mpr hthere)
    refine Or.inr ⟨rfl, hkey, fun r hr he => ?_⟩
    rw [List.any_eq_false] at hid
    exact hid r hr (decide_eq_true he)
  · exact Or.inl rfl

theorem Inbox.Sound.deliver (s : w.Sound c) {digest : List UInt8 → String} {d : Delivery}
    {id now : String} : Inbox.Sound c (Inbox.outside c digest (.deliver d id now) w) := by
  have hwaiting : ∀ t, countWaiting (handle c digest w.events d id now).2 t ≤ maxWaitingEvents := fun t =>
    countWaiting_handle s.kept.waiting
  unfold Inbox.outside
  simp only
  rcases @handle_eq c digest w.events d id now with heq | ⟨heq, hkey, hid⟩
  · rw [heq]
    exact s
  · rw [heq] at hwaiting ⊢
    rw [noteIf, if_pos rfl]
    generalize hinput : d.input digest w.events = input at *
    have k := s.kept
    have a := s.attempts
    have hmem : ∀ r ∈ w.events, r ∈ w.events ++ [input.row c id now] := fun r hr =>
      List.mem_append_left _ hr
    have hnew : input.row c id now ∈ w.events ++ [input.row c id now] :=
      List.mem_append_right _ List.mem_cons_self
    have hfresh : input.state = .received ∨ input.state = .dropped := by
      rw [← hinput]
      unfold Delivery.input
      simp only
      split_ifs
      · exact Or.inr rfl
      · exact Or.inl rfl
    have hnotrunning : (input.row c id now).state ≠ .running := by
      show input.state ≠ _
      rcases hfresh with h | h <;> rw [h] <;> decide
    refine ⟨⟨?_, ?_, ?_, ?_, ?_, k.reportedOnce, ?_, k.unknownOnce, ?_, hwaiting, ?_⟩,
      ⟨a.begunOnce, ?_, ?_, a.endedOnce, ?_, ?_, a.runOnce, a.run⟩⟩
    · show ((w.events ++ [input.row c id now]).map InboundEvent.id).Nodup
      rw [List.map_append, List.map_singleton]
      refine List.nodup_append.mpr ⟨k.ids, List.nodup_singleton _, fun x hx y hy => ?_⟩
      obtain ⟨r, hr, rfl⟩ := List.mem_map.mp hx
      rw [List.mem_singleton.mp hy]
      exact hid r hr
    · show ((w.events ++ [input.row c id now]).map InboundEvent.dedupKey).Nodup
      rw [List.map_append, List.map_singleton]
      refine List.nodup_append.mpr ⟨k.keys, List.nodup_singleton _, fun x hx y hy => ?_⟩
      obtain ⟨r, hr, rfl⟩ := List.mem_map.mp hx
      rw [List.mem_singleton.mp hy]
      intro he
      rw [has, List.any_eq_false] at hkey
      exact hkey r hr (decide_eq_true he)
    · intro r hr
      rcases List.mem_append.mp hr with hr | hr
      · obtain ⟨input', hmem', hrest⟩ := k.recorded r hr
        exact ⟨input', List.mem_cons_of_mem _ hmem', hrest⟩
      · rw [List.mem_singleton.mp hr]
        exact ⟨input, List.mem_cons_self, rfl, fun hw => if_pos hw⟩
    · refine List.nodup_cons.mpr ⟨fun hmem' => ?_, k.once⟩
      obtain ⟨dlv, hdlv, hdid⟩ := List.mem_map.mp hmem'
      obtain ⟨r, hr, hrid⟩ := k.delivered dlv hdlv
      exact hid r hr (hrid.trans hdid)
    · intro dlv hdlv
      rcases List.mem_cons.mp hdlv with rfl | hdlv
      · exact ⟨_, hnew, rfl⟩
      · obtain ⟨r, hr, hrid⟩ := k.delivered dlv hdlv
        exact ⟨r, hmem r hr, hrid⟩
    · intro id' hid'
      obtain ⟨r, hr, hrest⟩ := k.reported id' hid'
      exact ⟨r, hmem r hr, hrest⟩
    · intro id' hid'
      obtain ⟨r, hr, hrest⟩ := k.unknown id' hid'
      exact ⟨r, hmem r hr, hrest⟩
    · intro run hrun
      obtain ⟨input', hmem', hrest⟩ := k.values run hrun
      exact ⟨input', List.mem_cons_of_mem _ hmem', hrest⟩
    · intro b hb
      obtain ⟨r, hr, hrest⟩ := a.begun b hb
      exact ⟨r, hmem r hr, hrest⟩
    · intro r hr hrunning
      rcases List.mem_append.mp hr with hr | hr
      · exact a.running r hr hrunning
      · rw [List.mem_singleton.mp hr] at hrunning
        exact absurd hrunning hnotrunning
    · intro e he
      obtain ⟨hb, r, hr, hrest⟩ := a.ended e he
      exact ⟨hb, r, hmem r hr, hrest⟩
    · intro b hb
      rcases a.byAttempt b hb with he | ⟨r, hr, hrest⟩
      · exact Or.inl he
      · exact Or.inr ⟨r, hmem r hr, hrest⟩

end Steps

end Lynox.Triggers
