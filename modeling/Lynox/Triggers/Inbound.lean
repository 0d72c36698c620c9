import Lynox.Data.Table
import Lynox.Text.Stringify
import Mathlib.Data.List.Sort
import Mathlib.Data.List.Dedup
import Mathlib.Data.String.Basic

/-!
# The ledger of inbound events

Each verified delivery of a webhook is a row, one for a dedup key. A row moves `received` →
`running` → `done`, `failed` or `dropped`, or `received` → `dropped`; every move is an update that
asks for the state it expects. Nothing deletes a row (`updated_at` is written and never read, and
has no field here).

Every statement is a step of each row (`InboundEvent.Moved`), and what has become of a row after any
number of them is `InboundEvent.Became`.
-/

namespace Lynox.Triggers

open Text

/-! ## Rows -/

inductive InboundEventState
  | received | running | done | failed | dropped
  deriving DecidableEq, Repr

/-- A row of `inbound_events`. `headers` is `headers_json`, `valuesJson` as it is stored. -/
structure InboundEvent where
  id : String
  triggerId : String
  dedupKey : String
  receivedAt : String
  state : InboundEventState
  reason : Option String
  runId : Option String
  valuesJson : Option String
  headers : List (String × String)
  attemptId : Option String
  reportedAt : Option String
  unknownReportedAt : Option String
  deriving DecidableEq

/-- How a run of an event ended. -/
inductive EventOutcome
  | done (runId : Option String)
  | failed (reason : String) (runId : Option String)
  | dropped (reason : String)
  deriving DecidableEq

def EventOutcome.state : EventOutcome → InboundEventState
  | .done _ => .done
  | .failed _ _ => .failed
  | .dropped _ => .dropped

def EventOutcome.reason : EventOutcome → Option String
  | .done _ => none
  | .failed reason _ | .dropped reason => some reason

def EventOutcome.runId : EventOutcome → Option String
  | .done runId | .failed _ runId => runId
  | .dropped _ => none

/-- The encryption of the stored values : what one process wrote another reads as it was, or, with
another key, not at all. -/
structure EventCipher where
  enc : JsString → String
  tryDec : String → String → Option JsString
  tryDec_enc : ∀ holder s t, tryDec holder (enc s) = some t → t = s

/-- A row as it is read by a process. -/
structure InboundEventRecord where
  row : InboundEvent
  valuesJson : Option JsString
  valuesUnreadable : Bool

def toRecord (c : EventCipher) (holder : String) (row : InboundEvent) : InboundEventRecord where
  row := row
  valuesJson := row.valuesJson.bind (c.tryDec holder)
  valuesUnreadable := row.valuesJson.any fun text => c.tryDec holder text = none

/-- What `record` is given : `values` is the JSON text of the mapped values. -/
structure RecordDelivery where
  triggerId : String
  dedupKey : String
  headers : List (String × String)
  state : InboundEventState
  reason : Option String
  values : Option JsString
  deriving DecidableEq

/-- The inserted row : the values of an event that is dropped are not kept. -/
def RecordDelivery.row (c : EventCipher) (input : RecordDelivery) (id now : String) : InboundEvent where
  id := id
  triggerId := input.triggerId
  dedupKey := input.dedupKey
  receivedAt := now
  state := input.state
  reason := input.reason
  runId := none
  valuesJson := if input.state = .received then input.values.map c.enc else none
  headers := input.headers
  attemptId := none
  reportedAt := none
  unknownReportedAt := none

/-- The mapped values a run gets. -/
def eventValues (valuesJson : Option JsString) : Json :=
  match (valuesJson.bind parse).bind fun kept => kept.get "values" with
  | some (.object fields) => .object fields
  | some (.array items) => .array items
  | _ => .object []

namespace InboundEvents

/-! ## Statements -/

/-- An `UPDATE` : how many rows it matched, and the table after it. -/
def update (rows : List InboundEvent) (p : InboundEvent → Bool) (f : InboundEvent → InboundEvent) :
    Nat × List InboundEvent :=
  (rows.countP p, rows.map fun r => if p r then f r else r)

def has (rows : List InboundEvent) (dedupKey : String) : Bool :=
  rows.any fun r => r.dedupKey = dedupKey

/-- A delivery is recorded under a new id. Nothing changes where its key is there. -/
def record (c : EventCipher) (rows : List InboundEvent) (input : RecordDelivery) (id now : String) :
    Bool × List InboundEvent :=
  if has rows input.dedupKey || rows.any (fun r => r.id = id) then (false, rows)
  else (true, rows ++ [input.row c id now])

/-- Oldest first. -/
def byAge (a b : InboundEvent) : Prop :=
  a.receivedAt < b.receivedAt ∨ a.receivedAt = b.receivedAt ∧ a.id ≤ b.id

instance : DecidableRel byAge := fun _ _ => inferInstanceAs (Decidable (_ ∨ _))

/-- A row the drain has something to do for. -/
def hasWork (r : InboundEvent) : Bool :=
  r.state = .received || ((r.state = .dropped || r.state = .failed) && r.reportedAt.isNone) ||
    (r.state = .running && r.unknownReportedAt.isNone)

def triggersWithWork (rows : List InboundEvent) : List String :=
  ((rows.filter hasWork).map InboundEvent.triggerId).dedup.insertionSort (· ≤ ·)

def waits (triggerId : String) (r : InboundEvent) : Bool :=
  r.triggerId = triggerId && r.state = .received

def oldestReceived (rows : List InboundEvent) (triggerId : String) : Option InboundEvent :=
  ((rows.filter (waits triggerId)).insertionSort byAge).head?

/-- `received` → `running`. -/
def begin (rows : List InboundEvent) (id attemptId : String) : Bool × List InboundEvent :=
  let out := update rows (fun r => r.id = id && r.state = .received) fun r =>
    { r with state := .running, attemptId := some attemptId }
  (out.1 = 1, out.2)

def finish (rows : List InboundEvent) (id attemptId : String) (outcome : EventOutcome) :
    Bool × List InboundEvent :=
  let out := update rows (fun r => r.id = id && r.state = .running && r.attemptId = some attemptId)
    fun r => { r with
      state := outcome.state
      reason := outcome.reason
      runId := outcome.runId.or r.runId
      valuesJson := if outcome.state = .failed then r.valuesJson else none }
  (out.1 = 1, out.2)

def drop (rows : List InboundEvent) (id reason : String) : Bool × List InboundEvent :=
  let out := update rows (fun r => r.id = id && r.state = .received) fun r =>
    { r with state := .dropped, reason := some reason, valuesJson := none }
  (out.1 = 1, out.2)

def dropWaiting (rows : List InboundEvent) (triggerId reason : String) : Nat × List InboundEvent :=
  update rows (waits triggerId) fun r =>
    { r with state := .dropped, reason := some reason, valuesJson := none }

def countWaiting (rows : List InboundEvent) (triggerId : String) : Nat :=
  rows.countP (waits triggerId)

def tombstoneRows (rows : List InboundEvent) (before : String) : Nat × List InboundEvent :=
  update rows (fun r => (r.state = .done || r.state = .dropped) && r.receivedAt < before &&
      (r.state = .done || r.reportedAt.isSome) && (!r.headers.isEmpty || r.reason.isSome ||
        r.runId.isSome || r.valuesJson.isSome || r.attemptId.isSome))
    fun r => { r with headers := [], reason := none, runId := none, valuesJson := none, attemptId := none }

def unreportedEnds (rows : List InboundEvent) (triggerId : String) : List InboundEvent :=
  (rows.filter fun r => r.triggerId = triggerId && (r.state = .dropped || r.state = .failed) &&
    r.reportedAt.isNone).insertionSort byAge

def unreportedRunning (rows : List InboundEvent) (triggerId : String) : List InboundEvent :=
  (rows.filter fun r => r.triggerId = triggerId && r.state = .running &&
    r.unknownReportedAt.isNone).insertionSort byAge

def markReported (rows : List InboundEvent) (id now : String) : Bool × List InboundEvent :=
  let out := update rows (fun r => r.id = id && (r.state = .dropped || r.state = .failed) &&
    r.reportedAt.isNone) fun r => { r with reportedAt := some now }
  (out.1 = 1, out.2)

def markUnknownReported (rows : List InboundEvent) (id now : String) : Bool × List InboundEvent :=
  let out := update rows (fun r => r.id = id && r.state = .running && r.unknownReportedAt.isNone)
    fun r => { r with unknownReportedAt := some now }
  (out.1 = 1, out.2)

def sweepValues (rows : List InboundEvent) (before : String) : Nat × List InboundEvent :=
  update rows (fun r => r.valuesJson.isSome && (r.state = .failed || r.state = .running) &&
    r.receivedAt < before) fun r => { r with valuesJson := none }

end InboundEvents

/-! ## What becomes of a row -/

/-- The moves of an event's state. -/
inductive InboundEventState.Moves : InboundEventState → InboundEventState → Prop
  | start : Moves .received .running
  | refuse : Moves .received .dropped
  | finish (outcome : EventOutcome) : Moves .running outcome.state

/-- Whether an event ended. -/
def InboundEventState.Ended : InboundEventState → Prop
  | .done | .failed | .dropped => True
  | .received | .running => False

instance : DecidablePred InboundEventState.Ended := fun s => by
  cases s <;> unfold InboundEventState.Ended <;> infer_instance

/-- What one statement does to a state : one move or none. -/
def InboundEventState.Steps (s s' : InboundEventState) : Prop :=
  s' = s ∨ s.Moves s'

/-- What any number of them do : an event does not wait again, and its end stays. -/
def InboundEventState.Reaches (s s' : InboundEventState) : Prop :=
  s' = s ∨ s' ≠ .received ∧ ¬ s.Ended

/-- A row and what it is later, its states related by `S`. -/
structure InboundEvent.Rel (S : InboundEventState → InboundEventState → Prop) (r r' : InboundEvent) :
    Prop where
  id : r'.id = r.id
  triggerId : r'.triggerId = r.triggerId
  dedupKey : r'.dedupKey = r.dedupKey
  state : S r.state r'.state
  waits : r'.state = .received → r' = r
  attempt : r.state = .running → r'.state = .running → r'.attemptId = r.attemptId
  reported : r.reportedAt.isSome → r'.reportedAt.isSome
  unknown : r.unknownReportedAt.isSome → r'.unknownReportedAt.isSome

abbrev InboundEvent.Moved (r r' : InboundEvent) : Prop :=
  r.Rel InboundEventState.Steps r'

abbrev InboundEvent.Became (r r' : InboundEvent) : Prop :=
  r.Rel InboundEventState.Reaches r'

section Became

variable {r r' r'' : InboundEvent} {s s' s'' : InboundEventState}

theorem InboundEventState.Steps.reaches (h : s.Steps s') : s.Reaches s' := by
  rcases h with rfl | h
  · exact Or.inl rfl
  · refine Or.inr ?_
    cases h with
    | start => exact ⟨by simp, id⟩
    | refuse => exact ⟨by simp, id⟩
    | finish outcome => cases outcome <;> exact ⟨by simp [EventOutcome.state], id⟩

theorem InboundEventState.Reaches.trans (h : s.Reaches s') (h' : s'.Reaches s'') : s.Reaches s'' := by
  rcases h' with rfl | ⟨hw, he⟩
  · exact h
  · rcases h with rfl | ⟨-, hs⟩
    · exact Or.inr ⟨hw, he⟩
    · exact Or.inr ⟨hw, hs⟩

theorem InboundEventState.Reaches.of_ended (h : s.Reaches s') (hs : s.Ended) : s' = s := by
  rcases h with h | ⟨-, he⟩
  · exact h
  · exact absurd hs he

theorem InboundEvent.Moved.refl (r : InboundEvent) : r.Moved r where
  id := rfl
  triggerId := rfl
  dedupKey := rfl
  state := Or.inl rfl
  waits _ := rfl
  attempt _ _ := rfl
  reported h := h
  unknown h := h

theorem InboundEvent.Moved.became (h : r.Moved r') : r.Became r' :=
  { h with state := h.state.reaches }

theorem InboundEvent.Became.trans (h : r.Became r') (h' : r'.Became r'') : r.Became r'' where
  id := h'.id.trans h.id
  triggerId := h'.triggerId.trans h.triggerId
  dedupKey := h'.dedupKey.trans h.dedupKey
  state := h.state.trans h'.state
  waits hw := by
    obtain rfl := h'.waits hw
    exact h.waits hw
  attempt hr hr'' := by
    have hr' : r'.state = .running := by
      rcases h'.state with he | ⟨-, he⟩
      · exact he.symm.trans hr''
      · rcases h.state with he' | ⟨hw, -⟩
        · exact he'.trans hr
        · cases hs : r'.state with
          | running => rfl
          | received => exact absurd hs hw
          | _ => exact absurd (hs ▸ trivial) he
    exact (h'.attempt hr' hr'').trans (h.attempt hr hr')
  reported hr := h'.reported (h.reported hr)
  unknown hr := h'.unknown (h.unknown hr)

end Became

/-! ## Statements move rows -/

namespace InboundEvents

section Moves

variable {rows : List InboundEvent} {r : InboundEvent} {p : InboundEvent → Bool}
  {f : InboundEvent → InboundEvent}

/-- A table whose rows are each related by `S` to what they were. -/
def AllRel (S : InboundEvent → InboundEvent → Prop) (rows rows' : List InboundEvent) : Prop :=
  ∃ g, rows' = rows.map g ∧ ∀ r ∈ rows, S r (g r)

abbrev AllMoved : List InboundEvent → List InboundEvent → Prop :=
  AllRel InboundEvent.Moved

/-- A move that neither begins an event nor ends one that was begun. -/
def MovedAside (r r' : InboundEvent) : Prop :=
  r.Moved r' ∧ (r'.state = r.state ∨ r.state = .received ∧ r'.state = .dropped)

abbrev AllAside : List InboundEvent → List InboundEvent → Prop :=
  AllRel MovedAside

theorem AllAside.moved {rows' : List InboundEvent} (h : AllAside rows rows') : AllMoved rows rows' := by
  obtain ⟨g, hg, hrel⟩ := h
  exact ⟨g, hg, fun r hr => (hrel r hr).1⟩

theorem allRel_update {S : InboundEvent → InboundEvent → Prop} (hrefl : ∀ r, S r r)
    (hf : ∀ r, p r = true → S r (f r)) : AllRel S rows (update rows p f).2 := by
  refine ⟨fun r => if p r then f r else r, rfl, fun r _ => ?_⟩
  dsimp only
  split_ifs with hp
  · exact hf r hp
  · exact hrefl r

theorem movedAside_refl (r : InboundEvent) : MovedAside r r :=
  ⟨.refl r, Or.inl rfl⟩

theorem allMoved_begin (id attemptId : String) : AllMoved rows (begin rows id attemptId).2 := by
  refine allRel_update .refl fun r hp => ?_
  have hs : r.state = .received := of_decide_eq_true ((Bool.and_eq_true _ _ ▸ hp).2)
  have hmoves : r.state.Moves .running := by
    rw [hs]
    exact .start
  exact ⟨rfl, rfl, rfl, Or.inr hmoves, fun h => absurd h (by simp),
    fun h => absurd (hs.symm.trans h) (by decide), fun h => h, fun h => h⟩

theorem ended_outcome (outcome : EventOutcome) : outcome.state.Ended := by
  cases outcome <;> trivial

theorem allMoved_finish (id attemptId : String) (outcome : EventOutcome) :
    AllMoved rows (finish rows id attemptId outcome).2 := by
  refine allRel_update .refl fun r hp => ?_
  have hs : r.state = .running := of_decide_eq_true (Bool.and_eq_true _ _ ▸ (Bool.and_eq_true _ _ ▸ hp).1).2
  have hmoves : r.state.Moves outcome.state := by
    rw [hs]
    exact .finish outcome
  refine ⟨rfl, rfl, rfl, Or.inr hmoves, fun h => ?_, fun _ _ => rfl, fun h => h, fun h => h⟩
  have hends := ended_outcome outcome
  rw [show outcome.state = .received from h] at hends
  exact absurd hends (by decide)

theorem aside_dropped {reason : String} (hs : r.state = .received) :
    MovedAside r { r with state := .dropped, reason := some reason, valuesJson := none } := by
  have hmoves : r.state.Moves .dropped := by
    rw [hs]
    exact .refuse
  exact ⟨⟨rfl, rfl, rfl, Or.inr hmoves, fun h => absurd h (by simp),
    fun h => absurd (hs.symm.trans h) (by decide), fun h => h, fun h => h⟩, Or.inr ⟨hs, rfl⟩⟩

theorem aside_drop (id reason : String) : AllAside rows (drop rows id reason).2 :=
  allRel_update movedAside_refl fun _ hp =>
    aside_dropped (of_decide_eq_true (Bool.and_eq_true _ _ ▸ hp).2)

theorem aside_dropWaiting (triggerId reason : String) :
    AllAside rows (dropWaiting rows triggerId reason).2 :=
  allRel_update movedAside_refl fun _ hp =>
    aside_dropped (of_decide_eq_true (Bool.and_eq_true _ _ ▸ hp).2)

/-- A change of an event that does not wait, of neither its state nor its attempt while it runs. -/
theorem aside_same {r' : InboundEvent} (hid : r'.id = r.id ∧ r'.triggerId = r.triggerId ∧
    r'.dedupKey = r.dedupKey) (hstate : r'.state = r.state) (hs : r.state ≠ .received)
    (hattempt : r.state = .running → r'.attemptId = r.attemptId)
    (hreported : r.reportedAt.isSome → r'.reportedAt.isSome)
    (hunknown : r.unknownReportedAt.isSome → r'.unknownReportedAt.isSome) : MovedAside r r' :=
  ⟨⟨hid.1, hid.2.1, hid.2.2, Or.inl hstate, fun h => absurd (hstate.symm.trans h) hs,
    fun h _ => hattempt h, hreported, hunknown⟩, Or.inl hstate⟩

theorem aside_tombstoneRows (before : String) : AllAside rows (tombstoneRows rows before).2 := by
  refine allRel_update movedAside_refl fun r hp => ?_
  simp only [Bool.and_eq_true, Bool.or_eq_true, decide_eq_true_eq] at hp
  refine aside_same ⟨rfl, rfl, rfl⟩ rfl ?_ ?_ (fun h => h) (fun h => h)
  · rcases hp.1.1.1 with h | h <;> rw [h] <;> decide
  · intro hr
    rcases hp.1.1.1 with h | h <;> rw [hr] at h <;> exact absurd h (by decide)

theorem aside_markReported (id now : String) : AllAside rows (markReported rows id now).2 := by
  refine allRel_update movedAside_refl fun r hp => ?_
  simp only [Bool.and_eq_true, Bool.or_eq_true, decide_eq_true_eq] at hp
  refine aside_same ⟨rfl, rfl, rfl⟩ rfl ?_ (fun _ => rfl) (fun _ => rfl) (fun h => h)
  rcases hp.1.2 with h | h <;> rw [h] <;> decide

theorem aside_markUnknownReported (id now : String) :
    AllAside rows (markUnknownReported rows id now).2 := by
  refine allRel_update movedAside_refl fun r hp => ?_
  simp only [Bool.and_eq_true, decide_eq_true_eq] at hp
  refine aside_same ⟨rfl, rfl, rfl⟩ rfl ?_ (fun _ => rfl) (fun h => h) (fun _ => rfl)
  rw [hp.1.2]
  decide

theorem aside_sweepValues (before : String) : AllAside rows (sweepValues rows before).2 := by
  refine allRel_update movedAside_refl fun r hp => ?_
  simp only [Bool.and_eq_true, Bool.or_eq_true, decide_eq_true_eq] at hp
  refine aside_same ⟨rfl, rfl, rfl⟩ rfl ?_ (fun _ => rfl) (fun h => h) (fun h => h)
  rcases hp.1.2 with h | h <;> rw [h] <;> decide

end Moves

/-! ## The row under an id -/

section Rows

variable {rows : List InboundEvent} {r : InboundEvent}

theorem mem_unreportedEnds {triggerId : String} : r ∈ unreportedEnds rows triggerId ↔
    r ∈ rows ∧ r.triggerId = triggerId ∧ (r.state = .dropped ∨ r.state = .failed) ∧
      r.reportedAt = none := by
  rw [unreportedEnds, List.mem_insertionSort, List.mem_filter]
  simp [and_assoc]

theorem mem_unreportedRunning {triggerId : String} : r ∈ unreportedRunning rows triggerId ↔
    r ∈ rows ∧ r.triggerId = triggerId ∧ r.state = .running ∧ r.unknownReportedAt = none := by
  rw [unreportedRunning, List.mem_insertionSort, List.mem_filter]
  simp [and_assoc]

theorem mem_triggersWithWork {triggerId : String} (hr : r ∈ rows) (hw : hasWork r = true)
    (ht : r.triggerId = triggerId) : triggerId ∈ triggersWithWork rows := by
  rw [triggersWithWork, List.mem_insertionSort, List.mem_dedup]
  exact List.mem_map.mpr ⟨r, List.mem_filter.mpr ⟨hr, hw⟩, ht⟩

theorem oldestReceived_eq_none {triggerId : String} (h : oldestReceived rows triggerId = none)
    (hr : r ∈ rows) (ht : r.triggerId = triggerId) : r.state ≠ .received := by
  intro hs
  have hnil := List.head?_eq_none_iff.mp h
  have hmem : r ∈ (rows.filter (waits triggerId)).insertionSort byAge := by
    rw [List.mem_insertionSort, List.mem_filter]
    exact ⟨hr, by simp [waits, ht, hs]⟩
  rw [hnil] at hmem
  exact absurd hmem List.not_mem_nil

theorem mem_oldestReceived {triggerId : String} (h : oldestReceived rows triggerId = some r) :
    r ∈ rows ∧ r.triggerId = triggerId ∧ r.state = .received := by
  have hmem := List.mem_of_mem_head? (Option.mem_def.mpr h)
  rw [List.mem_insertionSort, List.mem_filter, waits, Bool.and_eq_true, decide_eq_true_eq,
    decide_eq_true_eq] at hmem
  exact hmem

theorem mem_update_self {p : InboundEvent → Bool} {f : InboundEvent → InboundEvent} (hr : r ∈ rows)
    (hp : p r = true) : f r ∈ (update rows p f).2 :=
  List.mem_map.mpr ⟨r, hr, if_pos hp⟩

theorem mem_update_other {p : InboundEvent → Bool} {f : InboundEvent → InboundEvent} (hr : r ∈ rows)
    (hp : ¬ p r = true) : r ∈ (update rows p f).2 :=
  List.mem_map.mpr ⟨r, hr, if_neg hp⟩

/-- A row after an update was there, or is one that it matches. -/
theorem of_mem_update {p : InboundEvent → Bool} {f : InboundEvent → InboundEvent}
    (hr : r ∈ (update rows p f).2) : r ∈ rows ∨ ∃ r' ∈ rows, p r' = true ∧ f r' = r := by
  obtain ⟨r', hr', rfl⟩ := List.mem_map.mp hr
  split_ifs with hp
  · exact Or.inr ⟨r', hr', hp, rfl⟩
  · exact Or.inl hr'

/-- An update that matches nothing. -/
theorem update_none {p : InboundEvent → Bool} {f : InboundEvent → InboundEvent}
    (h : ¬ ∃ r ∈ rows, p r = true) : (update rows p f).2 = rows := by
  unfold update
  simp only
  conv_rhs => rw [← List.map_id rows]
  refine List.map_congr_left fun r hr => ?_
  rw [if_neg fun hp => h ⟨r, hr, hp⟩]
  rfl

/-- An update that leaves the table as it was leaves every row it matches as it was. -/
theorem eq_of_update {p : InboundEvent → Bool} {f : InboundEvent → InboundEvent}
    (h : (update rows p f).2 = rows) (hr : r ∈ rows) (hp : p r = true) : f r = r := by
  have hsame : rows.map (fun r => if p r then f r else r) = rows.map id := by
    rw [List.map_id]
    exact h
  have hrow := List.map_inj_left.mp hsame r hr
  rw [if_pos hp] at hrow
  exact hrow

/-- What an update does where ids are keys : it matches the one row under the id or none. -/
theorem update_id {p : InboundEvent → Bool} {f : InboundEvent → InboundEvent} {id : String}
    (hk : (rows.map InboundEvent.id).Nodup) (hp : ∀ r, p r = true → r.id = id) :
    (update rows p f).1 = 1 ↔ ∃ r ∈ rows, p r = true := by
  unfold update
  simp only
  constructor
  · intro h
    have hpos : 0 < rows.countP p := by rw [h]; exact Nat.one_pos
    exact List.countP_pos_iff.mp hpos
  · rintro ⟨r, hr, hpr⟩
    have hone : rows.countP p ≤ 1 := Table.countP_le_one hk fun r' _ => hp r'
    have hpos : 0 < rows.countP p := List.countP_pos_iff.mpr ⟨r, hr, hpr⟩
    omega

end Rows

end InboundEvents

end Lynox.Triggers
