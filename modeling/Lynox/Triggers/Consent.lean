import Lynox.Triggers.Store
import Lynox.Process.Run
import Mathlib.Data.List.Induction

/-!
# A due trigger is consented to

The operations of the store come from the owner, from mandates and from the engine, in any
order. Two things are the callers' : only the owner supplies a stamp, and a mandate's edit is
marked with the stamp cleared (`TriggerEvent.Allowed`).

What one operation does to consent is said once (`consent_step`) : a row that is stamped
afterwards was stamped by this operation, or it is a row that was there with the same stamp,
title and description, and no mandate edited it. Over a run it follows that every stamp was
the owner's and that since then no mandate edited the trigger and its title and description
stayed (`Consented`). The due query asks for the stamp wherever an agent run or a mandate is
involved, so what it returns there is consented to (`due_is_consented`).
-/

namespace Lynox.Triggers

inductive TriggerOp
  | upsert (row : TriggerRow) (createdAt updatedAt : Option String)
  | insert (p : InsertParams)
  | armBulkEffect (runId : String) (effect : TriggerEffect) (title nextRunAt : String)
  | insertWebhook (p : WebhookParams)
  | setConfirmedAt (id : String) (confirmedAt confirmedBy stampConnections : Option String)
  | markEditedBy (id : String) (editor : RequestPrincipal) (clearStamp : Bool)
  | updateFields (id : String) (p : FieldParams) (scopes : List (String × String))
  | updateRunResult (id : String) (u : RunResult)
  | updateWatchConfig (id watchConfig : String)
  | setEnabled (id : String) (enabled : Bool)
  | remove (id : String)
  | startEscalation (id startedAt : String) (onlyIfLater : Bool)
  | recordEscalationOutcome (id outcome startedAt : String)
  | markConsentReminded (id remindedAt : String)
  | endWait (id : String) (status : TriggerStatus)
  | claimLease (id holder leaseUntil : String)
  | renewLease (id holder leaseUntil : String)
  | releaseLease (id holder : String)
  | writePause (id pausedAt : String)
  | releasePlan (id : String) (reopens : Bool) (nextRunAt : Option (Option String))
  /-- The saved workflows change. -/
  | workflowsChange (workflows : List String)
  /-- The plan pause is switched. -/
  | switchPlanPause (planPauseOn : Bool)

/-- An operation, who made it (`none` is the engine itself) and when. -/
structure TriggerEvent where
  actor : Option RequestPrincipal
  op : TriggerOp
  now : String

def Store.step (s : Store) (e : TriggerEvent) : Store :=
  match e.op with
  | .upsert row createdAt updatedAt =>
    upsert s row (createdAt.getD e.now) (updatedAt.getD e.now)
  | .insert p => upsert s p.row e.now e.now
  | .armBulkEffect runId effect title nextRunAt =>
    upsert s (bulkRow runId effect title nextRunAt) e.now e.now
  | .insertWebhook p =>
    match insertWebhook s p e.now with
    | .ok s' => s'
    | .error _ => s
  | .setConfirmedAt id confirmedAt confirmedBy conns =>
    (setConfirmedAt s id confirmedAt confirmedBy conns e.now).2
  | .markEditedBy id editor clearStamp => (markEditedBy s id editor clearStamp e.now).2
  | .updateFields id p scopes => (updateFields s id p scopes e.now).2
  | .updateRunResult id u => updateRunResult s id u e.now
  | .updateWatchConfig id watchConfig => updateWatchConfig s id watchConfig e.now
  | .setEnabled id enabled => (setEnabled s id enabled e.now).2
  | .remove id => (remove s id).2
  | .startEscalation id startedAt onlyIfLater => (startEscalation s id startedAt onlyIfLater).2
  | .recordEscalationOutcome id outcome startedAt =>
    (recordEscalationOutcome s id outcome startedAt).2
  | .markConsentReminded id remindedAt => (markConsentReminded s id remindedAt).2
  | .endWait id status => (endWait s id status e.now).2
  | .claimLease id holder leaseUntil => (claimLease s id holder leaseUntil e.now).2
  | .renewLease id holder leaseUntil => (renewLease s id holder leaseUntil).2
  | .releaseLease id holder => releaseLease s id holder
  | .writePause id pausedAt => (writePause s id pausedAt).2
  | .releasePlan id reopens nextRunAt => releasePlan s id e.now reopens nextRunAt
  | .workflowsChange workflows => { s with workflows := workflows }
  | .switchPlanPause planPauseOn => { s with planPauseOn := planPauseOn }

/-- No triggers. -/
def Store.empty (planPauseOn : Bool) : Store :=
  ⟨[], [], planPauseOn⟩

/-! ## Stamps and mandate edits -/

/-- The trigger an operation supplies a stamp for, with the stamp. -/
def TriggerOp.stamp : TriggerOp → Option (String × String)
  | .upsert row _ _ => row.confirmedAt.map fun c => (row.id, c)
  | .insert p => p.confirmedAt.map fun c => (p.id, c)
  | .insertWebhook p => p.confirmedAt.map fun c => (p.id, c)
  | .setConfirmedAt id confirmedAt _ _ => confirmedAt.map fun c => (id, c)
  | _ => none

/-- The trigger an operation may write over; `insertWebhook` refuses an id that is there. -/
def TriggerOp.written : TriggerOp → Option String
  | .upsert row _ _ => some row.id
  | .insert p => some p.id
  | .armBulkEffect runId effect _ _ => some (bulkTriggerId effect runId)
  | _ => none

/-- A mandate edits the trigger : its edit is marked, or it writes over the row. -/
def TriggerEvent.MandateEdits (e : TriggerEvent) (id : String) : Prop :=
  (∃ email mandateId clear, e.op = .markEditedBy id (.mandate email mandateId) clear) ∨
    (∃ email mandateId, e.actor = some (.mandate email mandateId)) ∧ e.op.written = some id

/-- What the callers keep to : a stamp is the owner's, and a mandate's mark clears it. -/
def TriggerEvent.Allowed (_ : Store) (e : TriggerEvent) : Prop :=
  (∀ id c, e.op.stamp = some (id, c) → e.actor = some .owner) ∧
    ∀ id email mandateId clear, e.op = .markEditedBy id (.mandate email mandateId) clear →
      clear = true

/-! ## What an operation does to consent -/

/-- The same trigger, with the same stamp, title and description. -/
structure Trigger.Alike (r r' : Trigger) : Prop where
  id : r'.id = r.id
  title : r'.title = r.title
  description : r'.description = r.description
  confirmedAt : r'.confirmedAt = r.confirmedAt

/-- Every row of `s'` was in `s`, alike. -/
def Store.Quiet (s s' : Store) : Prop :=
  s'.rows.map Trigger.id = s.rows.map Trigger.id ∧ ∀ r' ∈ s'.rows, ∃ r ∈ s.rows, r.Alike r'

theorem Trigger.Alike.refl (r : Trigger) : r.Alike r :=
  ⟨rfl, rfl, rfl, rfl⟩

theorem Store.Quiet.refl (s : Store) : s.Quiet s :=
  ⟨rfl, fun r hr => ⟨r, hr, .refl r⟩⟩

theorem Store.Quiet.trans {s s' s'' : Store} (h : s.Quiet s') (h' : s'.Quiet s'') :
    s.Quiet s'' := by
  refine ⟨h'.1.trans h.1, fun r'' hr'' => ?_⟩
  obtain ⟨r', hr', ha'⟩ := h'.2 r'' hr''
  obtain ⟨r, hr, ha⟩ := h.2 r' hr'
  exact ⟨r, hr, ha'.id.trans ha.id, ha'.title.trans ha.title,
    ha'.description.trans ha.description, ha'.confirmedAt.trans ha.confirmedAt⟩

theorem mem_update {s : Store} {id : String} {p : Trigger → Bool} {f : Trigger → Trigger}
    {r' : Trigger} (h : r' ∈ (s.update id p f).2.rows) :
    ∃ r ∈ s.rows, (r.id = id ∧ p r = true ∧ r' = f r) ∨ (¬(r.id = id ∧ p r = true) ∧ r' = r) := by
  obtain ⟨r, hr, rfl⟩ := List.mem_map.mp h
  refine ⟨r, hr, ?_⟩
  by_cases hp : r.id = id ∧ p r = true
  · exact Or.inl ⟨hp.1, hp.2, by simp [hp.1, hp.2]⟩
  · refine Or.inr ⟨hp, if_neg ?_⟩
    simpa using hp

theorem ids_update {s : Store} {id : String} {p : Trigger → Bool} {f : Trigger → Trigger}
    (hf : ∀ r, (f r).id = r.id) :
    (s.update id p f).2.rows.map Trigger.id = s.rows.map Trigger.id := by
  simp only [Store.update]
  rw [Table.map_key]
  intro r
  split
  · exact hf r
  · rfl

/-- An update that leaves stamp, title and description. -/
theorem quiet_update {s : Store} {id : String} {p : Trigger → Bool} {f : Trigger → Trigger}
    (hf : ∀ r : Trigger, r.Alike (f r)) : s.Quiet (s.update id p f).2 := by
  refine ⟨ids_update fun r => (hf r).id, fun r' hr' => ?_⟩
  obtain ⟨r, hr, ⟨-, -, rfl⟩ | ⟨-, rfl⟩⟩ := mem_update hr'
  · exact ⟨r, hr, hf r⟩
  · exact ⟨r', hr, .refl r'⟩

theorem quiet_releasePlan (s : Store) (id now : String) (reopens : Bool)
    (nextRunAt : Option (Option String)) : s.Quiet (releasePlan s id now reopens nextRunAt) := by
  unfold releasePlan endWait
  refine (quiet_update fun r => ?_).trans ((quiet_update fun r => ?_).trans
    ((quiet_update fun r => ?_).trans ((quiet_update fun r => ?_).trans
      (quiet_update fun r => ?_)))) <;> exact ⟨rfl, rfl, rfl, rfl⟩

theorem quiet_claimLease (s : Store) (id holder leaseUntil now : String) :
    s.Quiet (claimLease s id holder leaseUntil now).2 := by
  unfold claimLease
  split
  · exact .refl s
  · split
    · exact .refl s
    · exact quiet_update fun r => ⟨rfl, rfl, rfl, rfl⟩

/-- A row that is stamped after an operation : stamped by it, or alike before it and not edited
by a mandate. -/
def ConsentSpec (s s' : Store) (e : TriggerEvent) : Prop :=
  ∀ r' ∈ s'.rows, stamped r'.confirmedAt = true →
    (∃ c, e.op.stamp = some (r'.id, c) ∧ r'.confirmedAt = some c) ∨
      (¬e.MandateEdits r'.id ∧ ∃ r ∈ s.rows, r.Alike r')

theorem ConsentSpec.quiet {s s' : Store} {e : TriggerEvent} (h : s.Quiet s')
    (hedit : ∀ id, ¬e.MandateEdits id) : ConsentSpec s s' e :=
  fun r' hr' _ => Or.inr ⟨hedit r'.id, h.2 r' hr'⟩

theorem not_stamped_none : stamped none = false := by
  simp [stamped]

/-- A stamped row of an upsert : the row written, with the stamp it was given, or another. -/
theorem mem_upsert {s : Store} {row : TriggerRow} {createdAt updatedAt : String} {r' : Trigger}
    (h : r' ∈ (upsert s row createdAt updatedAt).rows) :
    (r'.id = row.id ∧ r'.confirmedAt = row.confirmedAt) ∨ (r'.id ≠ row.id ∧ r' ∈ s.rows) := by
  unfold upsert at h
  simp only at h
  split at h
  · obtain ⟨r, hr, rfl⟩ := List.mem_map.mp h
    by_cases hid : r.id = row.id
    · rw [if_pos hid]
      exact Or.inl ⟨hid, rfl⟩
    · rw [if_neg hid]
      exact Or.inr ⟨hid, hr⟩
  · rename_i hnew
    rcases List.mem_append.mp h with h | h
    · refine Or.inr ⟨fun hid => hnew ?_, h⟩
      exact List.any_eq_true.mpr ⟨r', h, by simpa using hid⟩
    · rw [List.mem_singleton.mp h]
      exact Or.inl ⟨rfl, rfl⟩

theorem consentSpec_upsert (row : TriggerRow) {s s' : Store} {e : TriggerEvent}
    (hmem : ∀ r' ∈ s'.rows, (r'.id = row.id ∧ r'.confirmedAt = row.confirmedAt) ∨
      (r'.id ≠ row.id ∧ r' ∈ s.rows))
    (hstamp : ∀ c, row.confirmedAt = some c → e.op.stamp = some (row.id, c))
    (hedit : ∀ id, e.MandateEdits id → id = row.id) : ConsentSpec s s' e := by
  intro r' hr' hst
  rcases hmem r' hr' with ⟨hid, hc⟩ | ⟨hid, hold⟩
  · left
    rw [hc] at hst ⊢
    rcases hrow : row.confirmedAt with _ | c
    · rw [hrow, not_stamped_none] at hst
      simp at hst
    · exact ⟨c, hid ▸ hstamp c hrow, rfl⟩
  · exact Or.inr ⟨fun he => hid (hedit _ he), r', hold, .refl r'⟩

theorem consentSpec_setConfirmedAt {s : Store} {e : TriggerEvent} {id : String}
    {confirmedAt confirmedBy conns : Option String} (h : e.op = .setConfirmedAt id confirmedAt
      confirmedBy conns) : ConsentSpec s (setConfirmedAt s id confirmedAt confirmedBy conns e.now).2 e := by
  intro r' hr' hst
  obtain ⟨r, hr, ⟨hid, -, rfl⟩ | ⟨-, rfl⟩⟩ := mem_update hr'
  · rcases confirmedAt with _ | c
    · simp [stamped] at hst
    · exact Or.inl ⟨c, by rw [h]; simp [TriggerOp.stamp, hid], rfl⟩
  · refine Or.inr ⟨?_, r', hr, .refl r'⟩
    simp [TriggerEvent.MandateEdits, h, TriggerOp.written]

theorem consentSpec_markEditedBy {s : Store} {e : TriggerEvent} {id : String}
    {editor : RequestPrincipal} {clear : Bool} (h : e.op = .markEditedBy id editor clear)
    (hallowed : e.Allowed s) : ConsentSpec s (markEditedBy s id editor clear e.now).2 e := by
  intro r' hr' hst
  right
  obtain ⟨r, hr, ⟨hid, -, rfl⟩ | ⟨hne, rfl⟩⟩ := mem_update hr'
  · cases editor with
    | mandate email mandateId =>
      obtain rfl := hallowed.2 id email mandateId clear h
      simp [stamped] at hst
    | owner | cpAdmin =>
      refine ⟨by simp [TriggerEvent.MandateEdits, h, TriggerOp.written], r, hr, ?_⟩
      cases clear with
      | true => simp [stamped] at hst
      | false => exact ⟨rfl, rfl, rfl, rfl⟩
  · refine ⟨?_, r', hr, .refl r'⟩
    have hid : id ≠ r'.id := fun hid => hne ⟨hid.symm, rfl⟩
    simp [TriggerEvent.MandateEdits, h, TriggerOp.written, hid]

theorem consentSpec_updateFields {s : Store} {e : TriggerEvent} {id : String} {p : FieldParams}
    {scopes : List (String × String)} (h : e.op = .updateFields id p scopes) :
    ConsentSpec s (updateFields s id p scopes e.now).2 e := by
  have hedit : ∀ id, ¬e.MandateEdits id := fun id => by
    simp [TriggerEvent.MandateEdits, h, TriggerOp.written]
  unfold updateFields
  split
  · exact .quiet (.refl s) hedit
  · intro r' hr' hst
    obtain ⟨r, hr, ⟨-, -, rfl⟩ | ⟨-, rfl⟩⟩ := mem_update hr'
    · refine Or.inr ⟨hedit _, r, hr, ?_⟩
      rcases ht : p.title with _ | title
      · rcases hd : p.description with _ | description
        · exact ⟨rfl, by simp [FieldParams.apply, ht], by simp [FieldParams.apply, hd],
            by simp [FieldParams.apply, ht, hd]⟩
        · simp [FieldParams.apply, hd, stamped] at hst
      · simp [FieldParams.apply, ht, stamped] at hst
    · exact Or.inr ⟨hedit _, r', hr, .refl r'⟩

theorem mem_insertWebhook {s s' : Store} {p : WebhookParams} {now : String}
    (h : insertWebhook s p now = .ok s') {r' : Trigger} (hr' : r' ∈ s'.rows) :
    (r'.id = p.id ∧ r'.confirmedAt = p.confirmedAt) ∨ (r'.id ≠ p.id ∧ r' ∈ s.rows) := by
  unfold insertWebhook at h
  split at h
  · simp at h
  · split at h
    · simp at h
    · obtain rfl := Except.ok.inj h
      obtain ⟨r, hr, ⟨heq, -, rfl⟩ | ⟨hne, rfl⟩⟩ := mem_update hr'
      · rcases mem_upsert hr with ⟨hid, hc⟩ | ⟨hid, hold⟩
        · exact Or.inl ⟨hid, hc⟩
        · exact absurd heq hid
      · rcases mem_upsert hr with ⟨hid, hc⟩ | ⟨hid, hold⟩
        · exact absurd ⟨hid, rfl⟩ hne
        · exact Or.inr ⟨hid, hold⟩

/-- What an operation does to consent. -/
theorem consent_step (s : Store) (e : TriggerEvent) (h : e.Allowed s) :
    ConsentSpec s (s.step e) e := by
  obtain ⟨actor, op, now⟩ := e
  have hnone : op.written = none → (∀ id email mandateId clear,
      op ≠ .markEditedBy id (.mandate email mandateId) clear) →
      ∀ id, ¬TriggerEvent.MandateEdits ⟨actor, op, now⟩ id := by
    rintro hw hm id (⟨email, mandateId, clear, he⟩ | ⟨-, he⟩)
    · exact hm id email mandateId clear he
    · simp [hw] at he
  have hwritten : ∀ id', op.written = some id' → (∀ id email mandateId clear,
      op ≠ .markEditedBy id (.mandate email mandateId) clear) →
      ∀ id, TriggerEvent.MandateEdits ⟨actor, op, now⟩ id → id = id' := by
    rintro id' hw hm id (⟨email, mandateId, clear, he⟩ | ⟨-, he⟩)
    · exact absurd he (hm id email mandateId clear)
    · exact (Option.some.inj (hw.symm.trans he)).symm
  cases op with
  | upsert row createdAt updatedAt =>
    exact consentSpec_upsert _ (fun _ => mem_upsert) (fun c hc => by simp [TriggerOp.stamp, hc])
      (hwritten _ rfl (by simp))
  | insert p =>
    exact consentSpec_upsert p.row (fun _ => mem_upsert)
      (fun c (hc : p.confirmedAt = some c) => by simp [TriggerOp.stamp, hc, InsertParams.row])
      (hwritten _ rfl (by simp))
  | armBulkEffect runId effect title nextRunAt =>
    exact consentSpec_upsert _ (fun _ => mem_upsert) (fun c hc => by simp [bulkRow] at hc)
      (hwritten _ rfl (by simp))
  | insertWebhook p =>
    simp only [Store.step]
    split
    · rename_i s' hs'
      exact consentSpec_upsert (p.row "") (fun _ => mem_insertWebhook hs')
        (fun c (hc : p.confirmedAt = some c) => by simp [TriggerOp.stamp, hc, WebhookParams.row])
        (fun id he => absurd he (hnone rfl (by simp) id))
    · exact .quiet (.refl s) (hnone rfl (by simp))
  | setConfirmedAt id confirmedAt confirmedBy conns => exact consentSpec_setConfirmedAt rfl
  | markEditedBy id editor clear => exact consentSpec_markEditedBy rfl h
  | updateFields id p scopes => exact consentSpec_updateFields rfl
  | remove id =>
    intro r' hr' _
    refine Or.inr ⟨hnone rfl (by simp) _, r', ?_, .refl r'⟩
    simp only [Store.step, remove] at hr'
    split at hr'
    · exact hr'
    · exact List.mem_of_mem_filter hr'
  | workflowsChange workflows => exact .quiet (.refl s) (hnone rfl (by simp))
  | switchPlanPause planPauseOn => exact .quiet (.refl s) (hnone rfl (by simp))
  | claimLease id holder leaseUntil =>
    exact .quiet (quiet_claimLease s id holder leaseUntil now) (hnone rfl (by simp))
  | releasePlan id reopens nextRunAt =>
    exact .quiet (quiet_releasePlan s id now reopens nextRunAt) (hnone rfl (by simp))
  | _ =>
    exact .quiet (quiet_update fun r => ⟨rfl, rfl, rfl, rfl⟩) (hnone rfl (by simp))

/-! ## The key stays primary -/

theorem ids_upsert {s : Store} {row : TriggerRow} {createdAt updatedAt : String}
    (h : (s.rows.map Trigger.id).Nodup) :
    ((upsert s row createdAt updatedAt).rows.map Trigger.id).Nodup := by
  unfold upsert
  simp only
  split
  · rw [Table.map_key]
    · exact h
    · intro r
      split <;> rfl
  · rename_i hnew
    rw [List.map_append, List.map_singleton]
    refine h.append (List.nodup_singleton _) ?_
    intro id hid hid'
    obtain ⟨r, hr, rfl⟩ := List.mem_map.mp hid
    have heq : r.id = row.id := List.mem_singleton.mp hid'
    exact hnew (List.any_eq_true.mpr ⟨r, hr, by simpa using heq⟩)

theorem nodup_update {s : Store} {id : String} {p : Trigger → Bool} {f : Trigger → Trigger}
    (h : (s.rows.map Trigger.id).Nodup) (hf : ∀ r, (f r).id = r.id) :
    ((s.update id p f).2.rows.map Trigger.id).Nodup := by
  rw [ids_update hf]
  exact h

theorem ids_step (s : Store) (e : TriggerEvent) (h : (s.rows.map Trigger.id).Nodup) :
    ((s.step e).rows.map Trigger.id).Nodup := by
  obtain ⟨actor, op, now⟩ := e
  cases op with
  | upsert | insert | armBulkEffect => exact ids_upsert h
  | insertWebhook p =>
    simp only [Store.step]
    split
    · rename_i s' hs'
      unfold insertWebhook at hs'
      split at hs'
      · simp at hs'
      · split at hs'
        · simp at hs'
        · obtain rfl := Except.ok.inj hs'
          exact nodup_update (ids_upsert h) fun r => rfl
    · exact h
  | remove id =>
    simp only [Store.step, remove]
    split
    · exact h
    · exact h.sublist (List.filter_sublist.map _)
  | updateFields id p scopes =>
    simp only [Store.step, updateFields]
    split
    · exact h
    · exact nodup_update h fun r => rfl
  | markEditedBy id editor clear =>
    exact nodup_update h fun r => by cases editor <;> cases clear <;> rfl
  | claimLease id holder leaseUntil =>
    simp only [Store.step, (quiet_claimLease s id holder leaseUntil now).1]
    exact h
  | releasePlan id reopens nextRunAt =>
    simp only [Store.step, (quiet_releasePlan s id now reopens nextRunAt).1]
    exact h
  | workflowsChange | switchPlanPause => exact h
  | _ => exact nodup_update h fun r => rfl

/-! ## Whole runs -/

/-- The store after the events. -/
def Store.afterEvents (planPauseOn : Bool) (events : List TriggerEvent) : Store :=
  Run.after Store.step (Store.empty planPauseOn) events

/-- The stamp of `t` is the owner's, and since it was given no mandate edited the trigger and
its title and description stayed. -/
def Consented (planPauseOn : Bool) (events : List TriggerEvent) (t : Trigger) : Prop :=
  ∃ pre e post c, events = pre ++ e :: post ∧ e.actor = some .owner ∧
    e.op.stamp = some (t.id, c) ∧ t.confirmedAt = some c ∧ c ≠ "" ∧
    (∀ e' ∈ post, ¬e'.MandateEdits t.id) ∧
    ∀ mid rest, post = mid ++ rest →
      ∃ r, Table.find Trigger.id (Store.afterEvents planPauseOn (pre ++ e :: mid)).rows t.id = some r ∧
        r.title = t.title ∧ r.description = t.description

theorem afterEvents_snoc (planPauseOn : Bool) (events : List TriggerEvent) (e : TriggerEvent) :
    Store.afterEvents planPauseOn (events ++ [e]) = (Store.afterEvents planPauseOn events).step e := by
  rw [Store.afterEvents, Run.after_append]
  rfl

theorem ids_afterEvents (planPauseOn : Bool) (events : List TriggerEvent) :
    ((Store.afterEvents planPauseOn events).rows.map Trigger.id).Nodup :=
  Run.invariant (I := fun s : Store => (s.rows.map Trigger.id).Nodup) (fun s e h => ids_step s e h)
    (by simp [Store.empty])

/-- A stamp given by the last event. -/
theorem consented_of_stamp {planPauseOn : Bool} {events : List TriggerEvent} {e : TriggerEvent}
    {t : Trigger} {c : String} (ht : t ∈ (Store.afterEvents planPauseOn (events ++ [e])).rows)
    (howner : e.actor = some .owner) (hstamp : e.op.stamp = some (t.id, c))
    (hc : t.confirmedAt = some c) (hne : c ≠ "") : Consented planPauseOn (events ++ [e]) t := by
  refine ⟨events, e, [], c, rfl, howner, hstamp, hc, hne, by simp, fun mid rest hsplit => ?_⟩
  obtain ⟨rfl, -⟩ := List.append_eq_nil_iff.mp hsplit.symm
  exact ⟨t, Table.find_of_mem (ids_afterEvents ..) ht, rfl, rfl⟩

/-- A stamp that the last event left alone. -/
theorem Consented.snoc {planPauseOn : Bool} {events : List TriggerEvent} {e : TriggerEvent}
    {r t : Trigger} (hr : Consented planPauseOn events r) (ha : r.Alike t)
    (ht : t ∈ (Store.afterEvents planPauseOn (events ++ [e])).rows)
    (hedit : ¬e.MandateEdits t.id) : Consented planPauseOn (events ++ [e]) t := by
  obtain ⟨pre, e₀, post, c, rfl, howner, hstamp, hc, hne, hedits, hkept⟩ := hr
  refine ⟨pre, e₀, post ++ [e], c, by simp, howner, ha.id ▸ hstamp, ha.confirmedAt.trans hc, hne,
    ?_, ?_⟩
  · intro e' he'
    rcases List.mem_append.mp he' with he' | he'
    · exact ha.id ▸ hedits e' he'
    · exact List.mem_singleton.mp he' ▸ hedit
  · intro mid rest hsplit
    rcases List.eq_nil_or_concat rest with rfl | ⟨rest', x, rfl⟩
    · -- all of it : the trigger is there now
      obtain rfl : mid = post ++ [e] := by simpa using hsplit.symm
      refine ⟨t, ?_, rfl, rfl⟩
      have heq : pre ++ e₀ :: (post ++ [e]) = pre ++ e₀ :: post ++ [e] := by simp
      rw [heq]
      exact Table.find_of_mem (ids_afterEvents ..) ht
    · have hsplit' : post ++ [e] = (mid ++ rest') ++ [x] := by simpa using hsplit
      obtain ⟨r', hr', htitle, hdesc⟩ := hkept mid rest' (List.append_inj' hsplit' rfl).1
      exact ⟨r', ha.id ▸ hr', htitle.trans ha.title.symm, hdesc.trans ha.description.symm⟩

/-- Every stamped trigger is consented to. -/
theorem consented_of_stamped {planPauseOn : Bool} {events : List TriggerEvent}
    (hobeys : Run.Obeys Store.step TriggerEvent.Allowed (Store.empty planPauseOn) events) :
    ∀ t ∈ (Store.afterEvents planPauseOn events).rows, stamped t.confirmedAt = true →
      Consented planPauseOn events t := by
  induction events using List.reverseRecOn with
  | nil => simp [Store.afterEvents, Store.empty]
  | append_singleton events e ih =>
    obtain ⟨hbefore, hlast, -⟩ := Run.obeys_append.mp hobeys
    intro t ht hst
    have hmem := ht
    rw [afterEvents_snoc] at hmem
    rcases consent_step _ e hlast t hmem hst with ⟨c, hstamp, hc⟩ | ⟨hedit, r, hr, ha⟩
    · have hne : c ≠ "" := by simpa [stamped, hc] using hst
      exact consented_of_stamp ht (hlast.1 _ _ hstamp) hstamp hc hne
    · have hst' : stamped r.confirmedAt = true := ha.confirmedAt ▸ hst
      exact (ih hbefore r hr hst').snoc ha ht hedit

theorem likeMandateTag_principalTag (email : String) (mandateId : Option String) :
    likeMandateTag (principalTag (.mandate email mandateId)) = true := by
  have hlower : mandateTagPrefix.toList.map Char.toLower = mandateTagPrefix.toList := by decide
  rw [likeMandateTag, principalTag, String.toList_append, List.map_append, hlower,
    List.isPrefixOf_iff_prefix]
  exact List.prefix_append _ _

/-- A trigger that is due, and starts an agent run or was last changed by a mandate, carries an
owner's stamp given after the last mandate edit and after the last change of its title and
description. -/
theorem due_is_consented (planPauseOn : Bool) (events : List TriggerEvent)
    (hobeys : Run.Obeys Store.step TriggerEvent.Allowed (Store.empty planPauseOn) events)
    (now : String) (t : Trigger)
    (hdue : t ∈ getDue (Store.afterEvents planPauseOn events) now)
    (hgated : t.effect = .runAgent ∨
      ∃ email mandateId, t.lastParty = principalTag (.mandate email mandateId)) :
    Consented planPauseOn events t := by
  have hmem : t ∈ (Store.afterEvents planPauseOn events).rows ∧
      armed (Store.afterEvents planPauseOn events).planPauseOn t = true := by
    have := (List.perm_insertionSort ..).mem_iff.mp hdue
    simp only [List.mem_filter, Bool.and_eq_true] at this
    exact ⟨this.1, this.2.1.1⟩
  refine consented_of_stamped hobeys t hmem.1 ?_
  have haccepts := hmem.2
  simp only [armed, accepts, Bool.and_eq_true, Bool.not_eq_true', Bool.and_eq_false_iff,
    Bool.not_eq_false', decide_eq_false_iff_not] at haccepts
  rcases hgated with heffect | ⟨email, mandateId, hparty⟩
  · exact haccepts.2.1.2.resolve_left (by simp [heffect])
  · refine haccepts.2.2.resolve_right ?_
    rw [hparty, likeMandateTag_principalTag]
    simp

/-- A mandate schedules an agent run, and the owner confirms it. -/
def confirmedSchedule : List TriggerEvent :=
  [⟨some (.mandate "ops@example" none), .insert
      { id := "weekly", title := "Summarise the week", description := none, status := none
        scopeType := none, scopeId := none, scheduleCron := some "0 9 * * 1"
        nextRunAt := some "2026-01-05T09:00", source := some .cron, effect := some .runAgent
        watchConfig := none, maxRetries := none, notificationChannel := none, pipelineId := none
        pipelineParams := none, confirmedAt := none, createdUntrusted := none
        createdBy := some "mandate:ops@example", createdMandateId := none, confirmedBy := none },
      "2026-01-01T08:00"⟩,
    ⟨some .owner, .setConfirmedAt "weekly" (some "2026-01-02T08:00") (some "owner") none,
      "2026-01-02T08:00"⟩]

theorem confirmed_schedule_is_due :
    ∃ t ∈ getDue (Store.afterEvents true confirmedSchedule) "2026-01-05T10:00",
      t.id = "weekly" ∧ Consented true confirmedSchedule t := by
  have hobeys : Run.Obeys Store.step TriggerEvent.Allowed (Store.empty true) confirmedSchedule := by
    refine ⟨⟨by simp [TriggerOp.stamp], by simp⟩, ⟨by simp, by simp⟩, trivial⟩
  have hone : (getDue (Store.afterEvents true confirmedSchedule) "2026-01-05T10:00").map
      (fun t => (t.id, t.effect)) = [("weekly", .runAgent)] := by
    decide +kernel
  obtain ⟨t, hlist, ht⟩ := List.map_eq_singleton_iff.mp hone
  have hmem : t ∈ getDue (Store.afterEvents true confirmedSchedule) "2026-01-05T10:00" := by
    rw [hlist]
    exact List.mem_singleton.mpr rfl
  obtain ⟨hid, heffect⟩ := Prod.mk.inj ht
  exact ⟨t, hmem, hid,
    due_is_consented true confirmedSchedule hobeys "2026-01-05T10:00" t hmem (Or.inl heffect)⟩

end Lynox.Triggers
