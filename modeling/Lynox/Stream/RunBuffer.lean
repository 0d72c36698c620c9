import Mathlib.Data.List.Basic
import Mathlib.Data.List.Pairwise
import Mathlib.Data.Rat.Floor

/-!
# The buffer of a run

A run appends its events to a ring, numbered from 1, and each is handed to whoever is subscribed. A
client that comes back replays what the ring still has past the last number it saw, and subscribes
in the same step.

`Kept` says what the ring is after any operations : the last events of all that were accepted, as many as it
holds. From there a client gets every event that it has not seen and that was not dropped before it came back,
once and in order (`replay_then_tail`). What was dropped before is the gap : the ring has nothing of it, whichever
of the dropped events one starts from (`dropped_event_is_lost`).
-/

set_option linter.unusedSectionVars false

namespace Lynox.Stream

universe u

variable {E K J P : Type u} [DecidableEq K] [DecidableEq J]

/-- One buffered event with its number. -/
structure BufferedEvent (E : Type u) where
  seq : ℕ
  event : E
  deriving DecidableEq

/-- `K` are the callbacks for events, `J` those for the end, and `P` who holds a live tail. -/
structure RunBuffer (E K J P : Type u) where
  seq : ℕ
  ring : List (BufferedEvent E)
  cap : ℚ
  eventSubs : List K
  endSubs : List J
  holders : List (K × P × Option J)
  ended : Bool

/-- What is called. -/
inductive Call (E K J P : Type u)
  | event (k : K) (e : BufferedEvent E)
  | ended (j : J)
  | close (p : P)

/-- A set with one more element. -/
def insertInto {α : Type*} [DecidableEq α] (l : List α) (a : α) : List α :=
  if a ∈ l then l else l ++ [a]

namespace RunBuffer

/-- `new RunBuffer(cap)` -/
def new (cap : ℚ) : RunBuffer E K J P :=
  ⟨0, [], max 1 cap, [], [], [], false⟩

/-- The ring with one more entry, without its oldest where that is one too many. -/
def push (ring : List (BufferedEvent E)) (cap : ℚ) (entry : BufferedEvent E) : List (BufferedEvent E) :=
  if cap < ((ring ++ [entry]).length : ℚ) then (ring ++ [entry]).drop 1 else ring ++ [entry]

def append (b : RunBuffer E K J P) (event : E) : RunBuffer E K J P × List (Call E K J P) :=
  if b.ended then (b, [])
  else
    let entry : BufferedEvent E := ⟨b.seq + 1, event⟩
    ({ b with seq := b.seq + 1, ring := push b.ring b.cap entry },
      b.eventSubs.map fun k => .event k entry)

def replaySince (b : RunBuffer E K J P) (since : ℚ) : List (BufferedEvent E) :=
  if since ≤ 0 then b.ring else b.ring.filter fun e => since < e.seq

/-- A subscription to a run that has ended is told so. -/
def subscribe (b : RunBuffer E K J P) (onEvent : K) (onEnd : Option J) (holder : Option P) :
    RunBuffer E K J P × List (Call E K J P) :=
  if b.ended then (b, onEnd.toList.map .ended)
  else
    ({ b with
        eventSubs := insertInto b.eventSubs onEvent
        endSubs := onEnd.elim b.endSubs (insertInto b.endSubs)
        holders := holder.elim b.holders fun p =>
          b.holders.filter (fun h => h.1 ≠ onEvent) ++ [(onEvent, p, onEnd)] }, [])

def unsubscribe (b : RunBuffer E K J P) (onEvent : K) (onEnd : Option J) : RunBuffer E K J P :=
  { b with
    eventSubs := b.eventSubs.filter (· ≠ onEvent)
    endSubs := b.endSubs.filter fun j => some j ≠ onEnd
    holders := b.holders.filter fun h => h.1 ≠ onEvent }

/-- Every tail is closed whose holder's principal has ended. -/
def closeEndedTails (b : RunBuffer E K J P) (hasEnded : P → Bool) :
    RunBuffer E K J P × List (Call E K J P) :=
  let closing := b.holders.filter fun h => hasEnded h.2.1
  ({ b with
      eventSubs := b.eventSubs.filter fun k => k ∉ closing.map Prod.fst
      endSubs := b.endSubs.filter fun j => some j ∉ closing.map (·.2.2)
      holders := b.holders.filter fun h => !hasEnded h.2.1 },
    closing.map fun h => .close h.2.1)

def «end» (b : RunBuffer E K J P) : RunBuffer E K J P × List (Call E K J P) :=
  if b.ended then (b, [])
  else
    ({ b with ended := true, eventSubs := [], endSubs := [], holders := [] }, b.endSubs.map .ended)

end RunBuffer

/-! ## Runs -/

inductive Op (E K J P : Type u)
  | append (event : E)
  | subscribe (onEvent : K) (onEnd : Option J) (holder : Option P)
  | unsubscribe (onEvent : K) (onEnd : Option J)
  | closeEndedTails (hasEnded : P → Bool)
  | finish

namespace RunBuffer

def step (b : RunBuffer E K J P) : Op E K J P → RunBuffer E K J P × List (Call E K J P)
  | .append event => b.append event
  | .subscribe onEvent onEnd holder => b.subscribe onEvent onEnd holder
  | .unsubscribe onEvent onEnd => (b.unsubscribe onEvent onEnd, [])
  | .closeEndedTails hasEnded => b.closeEndedTails hasEnded
  | .finish => b.end

/-- The buffer after some operations, and what was called. -/
def run (b : RunBuffer E K J P) : List (Op E K J P) → RunBuffer E K J P × List (Call E K J P)
  | [] => (b, [])
  | op :: ops => (((b.step op).1.run ops).1, (b.step op).2 ++ ((b.step op).1.run ops).2)

/-- The events that a buffer takes of some operations : those before the end. -/
def taken (b : RunBuffer E K J P) : List (Op E K J P) → List E
  | [] => []
  | .append event :: ops =>
    (if b.ended then [] else [event]) ++ (b.step (.append event)).1.taken ops
  | op :: ops => (b.step op).1.taken ops

/-- The newest number that was dropped from the ring, 0 where none was. -/
def evicted (b : RunBuffer E K J P) : ℕ :=
  b.seq - b.ring.length

/-- A client comes back : it replays what it has not seen, and subscribes. -/
def reconnect (b : RunBuffer E K J P) (since : ℚ) (onEvent : K) (onEnd : Option J) (holder : Option P) :
    List (BufferedEvent E) × RunBuffer E K J P :=
  (b.replaySince since, (b.subscribe onEvent onEnd holder).1)

end RunBuffer

/-- What a subscriber was handed. -/
def handed (k : K) : List (Call E K J P) → List (BufferedEvent E)
  | [] => []
  | .event k' e :: calls => if k' = k then e :: handed k calls else handed k calls
  | _ :: calls => handed k calls

/-- The events with their numbers, after `n` others. -/
def numbered (n : ℕ) : List E → List (BufferedEvent E)
  | [] => []
  | event :: events => ⟨n + 1, event⟩ :: numbered (n + 1) events

/-! ## Numbers -/

section Numbers

variable {n m : ℕ} {events events' : List E} {e : BufferedEvent E}

@[simp] theorem length_numbered : ∀ (n : ℕ) (events : List E), (numbered n events).length = events.length
  | _, [] => rfl
  | n, _ :: events => by rw [numbered, List.length_cons, length_numbered (n + 1) events, List.length_cons]

theorem numbered_append : ∀ (n : ℕ) (events events' : List E),
    numbered n (events ++ events') = numbered n events ++ numbered (n + events.length) events'
  | _, [], _ => rfl
  | n, event :: events, events' => by
    rw [List.cons_append, numbered, numbered, numbered_append (n + 1) events events', List.cons_append,
      List.length_cons, Nat.add_right_comm]
    rfl

theorem seq_of_mem_numbered (h : e ∈ numbered n events) : n < e.seq ∧ e.seq ≤ n + events.length := by
  induction events generalizing n with
  | nil => exact absurd h List.not_mem_nil
  | cons event events ih =>
    rw [List.length_cons]
    rcases List.mem_cons.mp h with rfl | h
    · exact ⟨Nat.lt_succ_self n, by dsimp only; omega⟩
    · have hbounds := ih h
      omega

theorem pairwise_numbered : ∀ (n : ℕ) (events : List E),
    (numbered n events).Pairwise fun e e' => e.seq < e'.seq
  | _, [] => List.Pairwise.nil
  | n, _ :: events =>
    List.Pairwise.cons (fun _ he => (seq_of_mem_numbered he).1) (pairwise_numbered (n + 1) events)

theorem mem_drop_numbered : e ∈ (numbered n events).drop m ↔ e ∈ numbered n events ∧ n + m < e.seq := by
  induction events generalizing n m with
  | nil => simp [numbered]
  | cons event events ih =>
    cases m with
    | zero =>
      rw [List.drop_zero]
      exact ⟨fun h => ⟨h, (seq_of_mem_numbered h).1⟩, fun h => h.1⟩
    | succ m =>
      rw [numbered, List.drop_succ_cons, ih, List.mem_cons]
      constructor
      · rintro ⟨h, hseq⟩
        exact ⟨Or.inr h, by omega⟩
      · rintro ⟨rfl | h, hseq⟩
        · dsimp only at hseq
          omega
        · exact ⟨h, by omega⟩

end Numbers

/-! ## What the ring holds -/

/-- How many events fit into the ring. -/
def capacity (cap : ℚ) : ℕ :=
  ⌊cap⌋₊

/-- The ring after some events : the last of them, as many as fit. -/
structure Kept (events : List E) (b : RunBuffer E K J P) : Prop where
  cap : 1 ≤ b.cap
  seq : b.seq = events.length
  ring : b.ring = (numbered 0 events).drop (events.length - capacity b.cap)

section Kept

variable {events : List E} {b : RunBuffer E K J P}

theorem kept_new (cap : ℚ) : Kept [] (RunBuffer.new cap : RunBuffer E K J P) :=
  ⟨le_max_left _ _, rfl, List.drop_nil.symm⟩

/-- Another buffer with the same events. -/
theorem Kept.congr {b' : RunBuffer E K J P} (h : Kept events b) (hcap : b'.cap = b.cap)
    (hseq : b'.seq = b.seq)
    (hring : b'.ring = b.ring) : Kept events b' :=
  ⟨hcap ▸ h.cap, hseq.trans h.seq, by rw [hring, hcap, h.ring]⟩

theorem Kept.push (h : Kept events b) (event : E) :
    RunBuffer.push b.ring b.cap ⟨b.seq + 1, event⟩ =
      (numbered 0 (events ++ [event])).drop ((events ++ [event]).length - capacity b.cap) := by
  have hnumbered : numbered 0 (events ++ [event]) = numbered 0 events ++ [⟨b.seq + 1, event⟩] := by
    rw [numbered_append, h.seq, Nat.zero_add]
    rfl
  have hlength : (b.ring ++ [(⟨b.seq + 1, event⟩ : BufferedEvent E)]).length =
      events.length - (events.length - capacity b.cap) + 1 := by
    rw [List.length_append, h.ring, List.length_drop, length_numbered]
    rfl
  have hfull : b.cap < ((b.ring ++ [(⟨b.seq + 1, event⟩ : BufferedEvent E)]).length : ℚ) ↔
      capacity b.cap ≤ events.length := by
    rw [← Nat.floor_lt (zero_le_one.trans h.cap), hlength]
    show capacity b.cap < _ ↔ _
    omega
  have hsnoc : (events ++ [event]).length = events.length + 1 := List.length_append
  unfold RunBuffer.push
  rw [hnumbered, hsnoc]
  by_cases hcap : capacity b.cap ≤ events.length
  · have hsucc : events.length + 1 - capacity b.cap = events.length - capacity b.cap + 1 := by omega
    have hdrop : ∀ entry : BufferedEvent E, (numbered 0 events ++ [entry]).drop
        (events.length - capacity b.cap) = b.ring ++ [entry] := by
      intro entry
      rw [h.ring]
      exact List.drop_append_of_le_length ((Nat.sub_le _ _).trans (length_numbered 0 events).ge)
    rw [if_pos (hfull.mpr hcap), hsucc, ← List.drop_drop, hdrop]
  · have hnone : events.length - capacity b.cap = 0 := by omega
    have hnone' : events.length + 1 - capacity b.cap = 0 := by omega
    rw [if_neg fun hlt => hcap (hfull.mp hlt), hnone', List.drop_zero, h.ring, hnone, List.drop_zero]

theorem Kept.append (h : Kept events b) (hended : b.ended = false) (event : E) :
    Kept (events ++ [event]) (b.append event).1 := by
  rw [RunBuffer.append, if_neg (by rw [hended]; decide)]
  refine ⟨h.cap, ?_, h.push event⟩
  dsimp only
  rw [h.seq, List.length_append]
  rfl

theorem taken_cons (b : RunBuffer E K J P) (op : Op E K J P) (ops : List (Op E K J P)) :
    b.taken (op :: ops) = b.taken [op] ++ (b.step op).1.taken ops := by
  cases op with
  | append event => rw [RunBuffer.taken, RunBuffer.taken, RunBuffer.taken, List.append_nil]
  | _ => rfl

/-- One operation, and what the buffer takes of it. -/
theorem Kept.step (h : Kept events b) (op : Op E K J P) : Kept (events ++ b.taken [op]) (b.step op).1 := by
  cases op with
  | append event =>
    rw [RunBuffer.taken, RunBuffer.taken, List.append_nil]
    cases hended : b.ended with
    | false => exact h.append hended event
    | true =>
      rw [if_pos rfl, List.append_nil, RunBuffer.step, RunBuffer.append, if_pos hended]
      exact h
  | subscribe onEvent onEnd holder =>
    rw [RunBuffer.taken, RunBuffer.taken, List.append_nil, RunBuffer.step, RunBuffer.subscribe]
    · split
      · exact h
      · exact h.congr rfl rfl rfl
    · simp
  | unsubscribe onEvent onEnd =>
    rw [RunBuffer.taken, RunBuffer.taken, List.append_nil]
    · exact h.congr rfl rfl rfl
    · simp
  | closeEndedTails hasEnded =>
    rw [RunBuffer.taken, RunBuffer.taken, List.append_nil]
    · exact h.congr rfl rfl rfl
    · simp
  | finish =>
    rw [RunBuffer.taken, RunBuffer.taken, List.append_nil, RunBuffer.step, RunBuffer.end]
    · split
      · exact h
      · exact h.congr rfl rfl rfl
    · simp

theorem kept_run : ∀ (ops : List (Op E K J P)) {events : List E} {b : RunBuffer E K J P},
    Kept events b → Kept (events ++ b.taken ops) (b.run ops).1
  | [], events, b, h => by
    rw [RunBuffer.taken, List.append_nil]
    exact h
  | op :: ops, events, b, h => by
    rw [taken_cons, ← List.append_assoc]
    exact kept_run ops (h.step op)

end Kept

/-! ## A client that comes back -/

/-- Nothing but the subscriber's own operations and the end takes its subscription away. -/
def Op.Leaves (k : K) (holder : Option P) : Op E K J P → Prop
  | .subscribe k' _ _ => k' ≠ k
  | .unsubscribe k' _ => k' ≠ k
  | .closeEndedTails hasEnded => ∀ p, holder = some p → hasEnded p = false
  | _ => True

/-- Each subscriber is subscribed once, and none after the end. -/
structure Orderly (b : RunBuffer E K J P) : Prop where
  nodup : b.eventSubs.Nodup
  none_after : b.ended = true → b.eventSubs = []

/-- A client is subscribed, or the run has ended. -/
structure Tailing (k : K) (holder : Option P) (b : RunBuffer E K J P) : Prop extends Orderly b where
  here : b.ended = false → k ∈ b.eventSubs
  holder : ∀ h ∈ b.holders, h.1 = k → holder = some h.2.1

section Tailing

variable {k : K} {holder : Option P} {b : RunBuffer E K J P}

theorem nodup_insertInto {α : Type*} [DecidableEq α] {l : List α} (h : l.Nodup) (a : α) :
    (insertInto l a).Nodup := by
  unfold insertInto
  split
  · exact h
  next hnot =>
    refine List.nodup_append.mpr ⟨h, List.pairwise_singleton _ a, fun x hx y hy he => hnot ?_⟩
    rwa [← List.mem_singleton.mp hy, ← he]

theorem mem_insertInto {α : Type*} [DecidableEq α] {l : List α} {a a' : α} :
    a ∈ insertInto l a' ↔ a ∈ l ∨ a = a' := by
  unfold insertInto
  split
  next h => exact ⟨Or.inl, fun h' => h'.elim id fun he => he ▸ h⟩
  · simp

theorem orderly_new (cap : ℚ) : Orderly (RunBuffer.new cap : RunBuffer E K J P) :=
  ⟨List.nodup_nil, fun _ => rfl⟩

theorem Orderly.filter (h : Orderly b) (p : K → Bool) {b' : RunBuffer E K J P} (hended : b'.ended = b.ended)
    (hsubs : b'.eventSubs = b.eventSubs.filter p) : Orderly b' where
  nodup := hsubs ▸ h.nodup.filter p
  none_after he := by
    rw [hsubs, h.none_after (hended ▸ he), List.filter_nil]

theorem Orderly.step (h : Orderly b) (op : Op E K J P) : Orderly (b.step op).1 := by
  cases op with
  | append event =>
    rw [RunBuffer.step, RunBuffer.append]
    split
    · exact h
    · exact ⟨h.nodup, h.none_after⟩
  | subscribe k' onEnd holder' =>
    rw [RunBuffer.step, RunBuffer.subscribe]
    split
    · exact h
    next hended => exact ⟨nodup_insertInto h.nodup k', fun he => absurd he hended⟩
  | unsubscribe k' onEnd => exact h.filter _ rfl rfl
  | closeEndedTails hasEnded => exact h.filter _ rfl rfl
  | finish =>
    rw [RunBuffer.step, RunBuffer.end]
    split
    · exact h
    · exact ⟨List.nodup_nil, fun _ => rfl⟩

/-- A tail is held by who held it before, or by who has just subscribed. -/
theorem mem_holders_step {op : Op E K J P} {e : K × P × Option J} (he : e ∈ (b.step op).1.holders) :
    e ∈ b.holders ∨ op = .subscribe e.1 e.2.2 (some e.2.1) := by
  cases op with
  | append event =>
    rw [RunBuffer.step, RunBuffer.append] at he
    split at he <;> exact Or.inl he
  | subscribe k' onEnd holder' =>
    rw [RunBuffer.step, RunBuffer.subscribe] at he
    split at he
    · exact Or.inl he
    · cases holder' with
      | none => exact Or.inl he
      | some p =>
        rcases List.mem_append.mp he with he | he
        · exact Or.inl (List.mem_of_mem_filter he)
        · rw [List.mem_singleton.mp he]
          exact Or.inr rfl
  | unsubscribe k' onEnd => exact Or.inl (List.mem_of_mem_filter he)
  | closeEndedTails hasEnded => exact Or.inl (List.mem_of_mem_filter he)
  | finish =>
    rw [RunBuffer.step, RunBuffer.end] at he
    split at he
    · exact Or.inl he
    · exact absurd he List.not_mem_nil

theorem handed_append (k : K) : ∀ calls calls' : List (Call E K J P),
    handed k (calls ++ calls') = handed k calls ++ handed k calls'
  | [], _ => rfl
  | .event k' e :: calls, calls' => by
    rw [List.cons_append, handed, handed, handed_append k calls calls']
    split <;> rfl
  | .ended j :: calls, calls' => handed_append k calls calls'
  | .close p :: calls, calls' => handed_append k calls calls'

/-- An event is handed to each subscriber once. -/
theorem handed_map_event {subs : List K} (hnodup : subs.Nodup) (hk : k ∈ subs) (e : BufferedEvent E) :
    handed k (subs.map fun k' => (.event k' e : Call E K J P)) = [e] := by
  have hnone : ∀ subs : List K, k ∉ subs →
      handed k (subs.map fun k' => (.event k' e : Call E K J P)) = [] := by
    intro subs
    induction subs with
    | nil => exact fun _ => rfl
    | cons k' subs ih =>
      intro hnot
      rw [List.mem_cons, not_or] at hnot
      rw [List.map_cons, handed, if_neg (Ne.symm hnot.1), ih hnot.2]
  induction subs with
  | nil => exact absurd hk List.not_mem_nil
  | cons k' subs ih =>
    rw [List.nodup_cons] at hnodup
    rw [List.map_cons, handed]
    rcases List.mem_cons.mp hk with rfl | hk
    · rw [if_pos rfl, hnone subs hnodup.1]
    · have hne : k' ≠ k := fun he => hnodup.1 (he ▸ hk)
      rw [if_neg hne]
      exact ih hnodup.2 hk

theorem handed_of_no_event {calls : List (Call E K J P)}
    (h : ∀ c ∈ calls, ∀ k' e, c ≠ .event k' e) : handed k calls = [] := by
  induction calls with
  | nil => rfl
  | cons c calls ih =>
    have hrest := ih fun c' hc' => h c' (List.mem_cons_of_mem _ hc')
    cases c with
    | event k' e => exact absurd rfl (h _ List.mem_cons_self k' e)
    | ended j => exact hrest
    | close p => exact hrest

/-- A client stays subscribed. -/
theorem Tailing.step (h : Tailing k holder b) {op : Op E K J P} (hop : op.Leaves k holder) :
    Tailing k holder (b.step op).1 := by
  refine ⟨h.toOrderly.step op, ?_, fun e he hek => ?_⟩
  · cases op with
    | append event =>
      rw [RunBuffer.step, RunBuffer.append]
      split <;> exact h.here
    | subscribe k' onEnd holder' =>
      rw [RunBuffer.step, RunBuffer.subscribe]
      split
      · exact h.here
      · exact fun hended => mem_insertInto.mpr (Or.inl (h.here hended))
    | unsubscribe k' onEnd =>
      exact fun hended => List.mem_filter.mpr ⟨h.here hended, decide_eq_true (Ne.symm hop)⟩
    | closeEndedTails hasEnded =>
      refine fun hended => List.mem_filter.mpr ⟨h.here hended, decide_eq_true fun hclosing => ?_⟩
      obtain ⟨e, he, hek⟩ := List.mem_map.mp hclosing
      obtain ⟨hmem, hgone⟩ := List.mem_filter.mp he
      rw [hop _ (h.holder e hmem hek)] at hgone
      exact absurd hgone (by decide)
    | finish =>
      rw [RunBuffer.step, RunBuffer.end]
      split
      · exact h.here
      · exact fun hended => absurd hended Bool.true_eq_false.mp
  · rcases mem_holders_step he with hmem | rfl
    · exact h.holder e hmem hek
    · exact absurd hek hop

/-- A client is handed what is taken. -/
theorem Tailing.handed_step (h : Tailing k holder b) (op : Op E K J P) :
    handed k (b.step op).2 = numbered b.seq (b.taken [op]) := by
  cases op with
  | append event =>
    rw [RunBuffer.step, RunBuffer.append, RunBuffer.taken]
    split
    · rfl
    next hended => exact handed_map_event h.nodup (h.here (Bool.eq_false_iff.mpr hended)) _
  | subscribe k' onEnd holder' =>
    rw [RunBuffer.step, RunBuffer.subscribe]
    split
    · refine handed_of_no_event fun c hc k' e => ?_
      obtain ⟨j, -, rfl⟩ := List.mem_map.mp hc
      simp
    · rfl
  | unsubscribe k' onEnd => rfl
  | closeEndedTails hasEnded =>
    refine handed_of_no_event fun c hc k' e => ?_
    obtain ⟨closing, -, rfl⟩ := List.mem_map.mp hc
    simp
  | finish =>
    rw [RunBuffer.step, RunBuffer.end]
    split
    · rfl
    · refine handed_of_no_event fun c hc k' e => ?_
      obtain ⟨j, -, rfl⟩ := List.mem_map.mp hc
      simp

theorem Tailing.run : ∀ {ops : List (Op E K J P)} {events : List E} {b : RunBuffer E K J P},
    Tailing k holder b → Kept events b → (∀ op ∈ ops, op.Leaves k holder) →
      handed k (b.run ops).2 = numbered b.seq (b.taken ops)
  | [], _, _, _, _, _ => rfl
  | op :: ops, events, b, h, hkept, hops => by
    have hstep := h.step (hops op List.mem_cons_self)
    have hkept' := hkept.step op
    have hrest := hstep.run hkept' fun op' hop' => hops op' (List.mem_cons_of_mem _ hop')
    have hseq : (b.step op).1.seq = b.seq + (b.taken [op]).length := by
      rw [hkept'.seq, List.length_append, hkept.seq]
    rw [RunBuffer.run, handed_append, h.handed_step op, hrest, taken_cons b op ops, numbered_append, hseq]

end Tailing

/-! ## Replay, then tail -/

section Reconnect

variable {earlier later : List (Op E K J P)} {k : K} {onEnd : Option J} {holder : Option P} {cap since : ℚ}

/-- What the ring still has past a number. -/
theorem Kept.mem_replaySince {events : List E} {b : RunBuffer E K J P} (h : Kept events b)
    {e : BufferedEvent E} : e ∈ b.replaySince since ↔ e ∈ numbered 0 events ∧ since < e.seq ∧
      events.length - capacity b.cap < e.seq := by
  have hring : e ∈ b.ring ↔ e ∈ numbered 0 events ∧ events.length - capacity b.cap < e.seq := by
    rw [h.ring, mem_drop_numbered, Nat.zero_add]
  unfold RunBuffer.replaySince
  split
  next hall =>
    rw [hring]
    constructor
    · rintro ⟨hmem, hseq⟩
      have hpos : (0 : ℚ) < e.seq := by exact_mod_cast (seq_of_mem_numbered hmem).1
      exact ⟨hmem, lt_of_le_of_lt hall hpos, hseq⟩
    · exact fun h => ⟨h.1, h.2.2⟩
  · rw [List.mem_filter, hring, decide_eq_true_eq]
    exact ⟨fun h => ⟨h.1.1, h.2, h.1.2⟩, fun h => ⟨⟨h.1, h.2.2⟩, h.2.1⟩⟩

theorem Kept.pairwise_replaySince {events : List E} {b : RunBuffer E K J P} (h : Kept events b) :
    (b.replaySince since).Pairwise fun e e' => e.seq < e'.seq := by
  have hring : b.ring.Pairwise fun e e' => e.seq < e'.seq := by
    rw [h.ring]
    exact (pairwise_numbered 0 events).sublist (List.drop_sublist _ _)
  unfold RunBuffer.replaySince
  split
  · exact hring
  · exact hring.filter _

/-- The subscriber is a new one. -/
def Op.New (k : K) : Op E K J P → Prop
  | .subscribe k' _ _ => k' ≠ k
  | _ => True

theorem orderly_run : ∀ (ops : List (Op E K J P)) {b : RunBuffer E K J P}, Orderly b → Orderly (b.run ops).1
  | [], _, h => h
  | op :: ops, _, h => orderly_run ops (h.step op)

/-- No tail is held under a new subscriber. -/
theorem holders_run : ∀ (ops : List (Op E K J P)) {b : RunBuffer E K J P}, (∀ e ∈ b.holders, e.1 ≠ k) →
    (∀ op ∈ ops, op.New k) → ∀ e ∈ (b.run ops).1.holders, e.1 ≠ k
  | [], _, h, _ => h
  | op :: ops, b, h, hops => by
    have hstep : ∀ e ∈ (b.step op).1.holders, e.1 ≠ k := by
      intro e he
      rcases mem_holders_step he with hmem | rfl
      · exact h e hmem
      · exact hops _ List.mem_cons_self
    exact holders_run ops hstep fun op' hop' => hops op' (List.mem_cons_of_mem _ hop')

theorem Orderly.tailing {b : RunBuffer E K J P} (h : Orderly b) (hnew : ∀ e ∈ b.holders, e.1 ≠ k)
    (onEnd : Option J) (holder : Option P) : Tailing k holder (b.subscribe k onEnd holder).1 := by
  refine ⟨h.step (.subscribe k onEnd holder), ?_, fun e he hek => ?_⟩
  · rw [RunBuffer.subscribe]
    split
    next hended => exact fun he => absurd (hended.symm.trans he) Bool.true_eq_false.mp
    · exact fun _ => mem_insertInto.mpr (Or.inr rfl)
  · have he' : e ∈ (b.step (.subscribe k onEnd holder)).1.holders := he
    rcases mem_holders_step he' with hmem | hop
    · exact absurd hek (hnew e hmem)
    · injection hop

theorem Kept.evicted_eq {events : List E} {b : RunBuffer E K J P} (h : Kept events b) :
    b.evicted = events.length - capacity b.cap := by
  rw [RunBuffer.evicted, h.seq, h.ring, List.length_drop, length_numbered]
  omega

theorem cap_step (b : RunBuffer E K J P) (op : Op E K J P) : (b.step op).1.cap = b.cap := by
  cases op with
  | append event =>
    rw [RunBuffer.step, RunBuffer.append]
    split <;> rfl
  | subscribe k' onEnd holder =>
    rw [RunBuffer.step, RunBuffer.subscribe]
    split <;> rfl
  | unsubscribe k' onEnd => rfl
  | closeEndedTails hasEnded => rfl
  | finish =>
    rw [RunBuffer.step, RunBuffer.end]
    split <;> rfl

theorem cap_run : ∀ (ops : List (Op E K J P)) (b : RunBuffer E K J P), (b.run ops).1.cap = b.cap
  | [], _ => rfl
  | op :: ops, b => (cap_run ops _).trans (cap_step b op)

/-- A client that comes back after any operations, and the buffer takes others : what it replays and
what it is handed are in order, with every event that it has not seen and that the ring had not
dropped, and the ring is the last of all events, as many as fit. -/
theorem replay_then_tail (hnew : ∀ op ∈ earlier, op.New k) (hlater : ∀ op ∈ later, op.Leaves k holder) :
    let b : RunBuffer E K J P := ((RunBuffer.new cap).run earlier).1
    let b' := (b.reconnect since k onEnd holder).2
    let events := (RunBuffer.new cap : RunBuffer E K J P).taken earlier ++ b'.taken later
    let received := (b.reconnect since k onEnd holder).1 ++ handed k (b'.run later).2
    (received.Pairwise fun e e' => e.seq < e'.seq) ∧
    (∀ e ∈ received, e ∈ numbered 0 events) ∧
    (∀ e ∈ numbered 0 events, since < e.seq → b.evicted < e.seq → e ∈ received) ∧
    (b'.run later).1.ring = (numbered 0 events).drop (events.length - capacity (max 1 cap)) := by
  intro b b' events received
  have hkept : Kept ((RunBuffer.new cap : RunBuffer E K J P).taken earlier) b :=
    kept_run earlier (kept_new cap)
  have horderly : Orderly b := orderly_run earlier (orderly_new cap)
  have hholders : ∀ e ∈ b.holders, e.1 ≠ k :=
    holders_run earlier (fun e he => absurd he List.not_mem_nil) hnew
  have htailing : Tailing k holder b' := horderly.tailing hholders onEnd holder
  have hkept' : Kept ((RunBuffer.new cap : RunBuffer E K J P).taken earlier) b' := by
    have hstep := hkept.step (.subscribe k onEnd holder)
    rwa [RunBuffer.taken, RunBuffer.taken, List.append_nil] at hstep
    simp
  have hhanded : handed k (b'.run later).2 = numbered b.seq (b'.taken later) := by
    rw [htailing.run hkept' hlater, hkept'.seq, hkept.seq]
  have hevents : numbered 0 events =
      numbered 0 ((RunBuffer.new cap : RunBuffer E K J P).taken earlier) ++
        numbered b.seq (b'.taken later) := by
    rw [numbered_append, Nat.zero_add, hkept.seq]
  have hreplay : ∀ e, e ∈ (b.reconnect since k onEnd holder).1 ↔
      e ∈ numbered 0 ((RunBuffer.new cap : RunBuffer E K J P).taken earlier) ∧ since < e.seq ∧
        b.evicted < e.seq := by
    intro e
    rw [hkept.evicted_eq]
    exact hkept.mem_replaySince
  refine ⟨?_, fun e he => ?_, fun e he hsince hevicted => ?_, ?_⟩
  · refine List.pairwise_append.mpr ⟨hkept.pairwise_replaySince, ?_, fun e he e' he' => ?_⟩
    · rw [hhanded]
      exact pairwise_numbered _ _
    · rw [hhanded] at he'
      have hbefore := (seq_of_mem_numbered ((hreplay e).mp he).1).2
      have hafter := (seq_of_mem_numbered he').1
      rw [Nat.zero_add, ← hkept.seq] at hbefore
      exact lt_of_le_of_lt hbefore hafter
  · rw [hevents]
    rcases List.mem_append.mp he with he | he
    · exact List.mem_append_left _ ((hreplay e).mp he).1
    · exact List.mem_append_right _ (hhanded ▸ he)
  · rw [hevents] at he
    rcases List.mem_append.mp he with he | he
    · exact List.mem_append_left _ ((hreplay e).mpr ⟨he, hsince, hevicted⟩)
    · exact List.mem_append_right _ (hhanded ▸ he)
  · have hring := (kept_run later hkept').ring
    have hcap : (b'.run later).1.cap = max 1 cap := by
      rw [cap_run]
      exact (cap_step b (.subscribe k onEnd holder)).trans (cap_run earlier _)
    rwa [hcap] at hring

/-- Three events go into a ring of two, and two more come after the client. -/
theorem two_of_three_replayed :
    let b : RunBuffer ℕ ℕ ℕ ℕ := ((RunBuffer.new 2).run [.append 7, .append 8, .append 9]).1
    let b' := (b.reconnect 0 5 none none).2
    b.evicted = 1 ∧ ∀ e ∈ numbered 0 [7, 8, 9, 10, 11], 0 < (e.seq : ℚ) → 1 < e.seq →
      e ∈ b.replaySince 0 ++ handed 5 (b'.run [.append 10, .append 11, .finish]).2 := by
  intro b b'
  have hevicted : b.evicted = 1 := by decide +kernel
  have hevents : (RunBuffer.new 2 : RunBuffer ℕ ℕ ℕ ℕ).taken [.append 7, .append 8, .append 9] ++
      b'.taken [.append 10, .append 11, .finish] = [7, 8, 9, 10, 11] := by decide +kernel
  have h := (@replay_then_tail ℕ ℕ ℕ ℕ _ _ [.append 7, .append 8, .append 9]
    [.append 10, .append 11, .finish] 5 none none 2 0 (by simp [Op.New]) (by simp [Op.Leaves])).2.2.1
  refine ⟨hevicted, ?_⟩
  rw [hevicted, hevents] at h
  exact h

/-- The second of two events that were dropped is newer than the oldest dropped one, and no client
gets it. -/
theorem dropped_event_is_lost :
    let b : RunBuffer ℕ ℕ ℕ ℕ := ((RunBuffer.new 1).run [.append 7, .append 8, .append 9]).1
    let b' := (b.reconnect 0 5 none none).2
    let received := (b.reconnect 0 5 none none).1 ++ handed 5 (b'.run [.append 10, .finish]).2
    b.evicted = 2 ∧ (⟨2, 8⟩ : BufferedEvent ℕ) ∈ numbered 0 [7, 8, 9, 10] ∧
      (⟨2, 8⟩ : BufferedEvent ℕ) ∉ received := by
  decide +kernel

end Reconnect

end Lynox.Stream
