import Lynox.Text.Utf16
import Mathlib.Data.List.Sort

/-!
# Reading a calendar window

`parseIcsEvents` reads the appointments of a document that overlap a window: single events, the occurrences
of a series with the overrides that replace them, and the overrides whose series is missing. The library
yields the occurrences of a rule in ascending order (`Rule`) and puts an override in the place of its
occurrence (`getOccurrenceDetails`).
-/

namespace Lynox.Calendar

open Text

/-! ## The document -/

/-- What is asked of a time. -/
structure Clock (τ : Type) where
  /-- What `compare` compares. -/
  instant : τ → ℤ
  sortKey : τ → ℤ
  text : τ → JsString
  isDate : τ → Bool
  tzid : τ → Option JsString

/-- An appointment as its component states it. -/
structure Item (τ : Type) where
  start : τ
  stop : τ
  summary : Option JsString
  location : Option JsString
  cancelled : Bool

/-- A moved or edited instance of a series. -/
structure Exception (τ : Type) where
  uid : JsString
  recurrenceId : τ
  item : Item τ

/-- One call of the iterator. -/
inductive Next (τ : Type)
  | occurrence (t : τ)
  | ended
  | throws

/-- The occurrences of a rule: ascending, and none after one call that gave none. -/
structure Rule {τ : Type} (clock : Clock τ) where
  next : ℕ → Next τ
  ascending : ∀ {m n s t}, m ≤ n → next m = .occurrence s → next n = .occurrence t →
    clock.instant s ≤ clock.instant t
  ends : ∀ {m n t}, m ≤ n → next n = .occurrence t → ∃ s, next m = .occurrence s

/-- What a component that is no exception says of its dates. -/
inductive Dates {τ : Type} (clock : Clock τ)
  | once
  /-- A series; `endOf` adds the duration. -/
  | series (rule : Rule clock) (endOf : τ → τ)
  /-- A series whose rule cannot be expanded, with its explicit dates where they can be read. -/
  | refused (rdates : List (Option (τ × τ)))

structure Master {τ : Type} (clock : Clock τ) where
  uid : JsString
  item : Item τ
  dates : Dates clock

/-- A document after its components were separated. `skipped` counts what could not be read or was disarmed
by then. -/
structure Document {τ : Type} (clock : Clock τ) where
  masters : List (Master clock)
  exceptions : List (Exception τ)
  skipped : ℕ
  capped : Bool

structure CalendarEvent where
  summary : JsString
  start : JsString
  stop : JsString
  timezone : Option JsString
  allDay : Bool
  location : Option JsString
  sortKey : ℤ
  deriving DecidableEq

/-! ## Reading -/

/-- A window, its end exclusive. -/
structure Window where
  start : ℤ
  stop : ℤ

def DEFAULT_MAX_EVENTS : ℕ :=
  200

def MAX_TOTAL_ITERATIONS : ℕ :=
  50000

structure ParseIcsResult where
  events : List CalendarEvent
  truncated : Bool
  skipped : ℕ

/-- What the loop over the components holds. -/
structure Reading where
  events : List CalendarEvent
  truncated : Bool
  skipped : ℕ
  budget : ℕ

section Parse

variable {τ : Type} [DecidableEq τ] {clock : Clock τ}

def overlapsWindow (clock : Clock τ) (w : Window) (start stop : τ) : Bool :=
  let zeroLength : Bool := clock.instant start = clock.instant stop
  let endsAfterStart : Bool := if zeroLength then clock.instant stop ≥ w.start else clock.instant stop > w.start
  endsAfterStart && clock.instant start < w.stop

/-- A text that is set. -/
def present (s : Option JsString) : Option JsString :=
  s.filter fun s => s ≠ []

def toEvent (clock : Clock τ) (start stop : τ) (summary location : Option JsString) : CalendarEvent :=
  { summary := summary.getD []
    start := clock.text start
    stop := clock.text stop
    timezone := (present (clock.tzid start)).filter fun tzid => tzid ≠ utf16 "floating"
    allDay := clock.isDate start
    location := present location
    sortKey := clock.sortKey start }

def Reading.push (r : Reading) (e : CalendarEvent) : Reading :=
  { r with events := r.events ++ [e] }

/-- An appointment is noted where it overlaps the window. -/
def Reading.note (r : Reading) (clock : Clock τ) (w : Window) (i : Item τ) : Reading :=
  if overlapsWindow clock w i.start i.stop then r.push (toEvent clock i.start i.stop i.summary i.location) else r

/-- The exceptions of a series. -/
def Document.exceptionsOf (doc : Document clock) (m : Master clock) : List (Exception τ) :=
  doc.exceptions.filter fun x => x.uid = m.uid

/-- An occurrence, or the last exception in its place. -/
def getOccurrenceDetails (m : Master clock) (endOf : τ → τ) (exceptions : List (Exception τ)) (t : τ) : Item τ :=
  match exceptions.reverse.find? fun x => x.recurrenceId = t with
  | some x => x.item
  | none => { m.item with start := t, stop := endOf t }

/-- The loop over the occurrences of a series from the `n`th one. -/
def expand (w : Window) (details : τ → Item τ) (rule : Rule clock) : ℕ → ℕ → Reading → Reading
  | 0, _, r => { r with budget := 0, truncated := true }
  | budget + 1, n, r =>
    match rule.next n with
    | .throws => { r with budget := budget, skipped := r.skipped + 1 }
    | .ended => { r with budget := budget }
    | .occurrence t =>
      if clock.instant t ≥ w.stop then { r with budget := budget }
      else
        let i := details t
        expand w details rule budget (n + 1) (if i.cancelled then r else r.note clock w i)

/-- The explicit dates of a rule that was refused. -/
def readDates (clock : Clock τ) (w : Window) (i : Item τ) : List (Option (τ × τ)) → Reading → Reading
  | [], r => r
  | d :: dates, r =>
    if r.budget = 0 then { r with truncated := true }
    else
      let r := { r with budget := r.budget - 1 }
      readDates clock w i dates
        (match d with
        | none => r
        | some (start, stop) => r.note clock w { i with start := start, stop := stop })

def readMaster (doc : Document clock) (w : Window) (r : Reading) (m : Master clock) : Reading :=
  if m.item.cancelled then r
  else
    match m.dates with
    | .once => r.note clock w m.item
    | .refused rdates => readDates clock w m.item rdates { r with skipped := r.skipped + 1 }
    | .series rule endOf =>
      expand w (getOccurrenceDetails m endOf (doc.exceptionsOf m)) rule r.budget 0 r

def Master.isRecurring (m : Master clock) : Bool :=
  match m.dates with
  | .once => false
  | .series _ _ | .refused _ => true

/-- The exceptions without a series. -/
def Document.orphans (doc : Document clock) : List (Exception τ) :=
  doc.exceptions.filter fun x =>
    !((doc.masters.filter Master.isRecurring).map Master.uid).contains x.uid

def readOrphan (clock : Clock τ) (w : Window) (r : Reading) (x : Exception τ) : Reading :=
  if x.item.cancelled then r else r.note clock w x.item

def readDocument (doc : Document clock) (w : Window) : Reading :=
  doc.orphans.foldl (readOrphan clock w)
    (doc.masters.foldl (readMaster doc w) ⟨[], doc.capped, doc.skipped, MAX_TOTAL_ITERATIONS⟩)

def parseIcsEvents (doc : Document clock) (w : Window) (maxEvents : Option ℕ) : ParseIcsResult :=
  let max := maxEvents.getD DEFAULT_MAX_EVENTS
  let r := readDocument doc w
  let sorted := r.events.insertionSort fun a b => a.sortKey ≤ b.sortKey
  if sorted.length > max then ⟨sorted.take max, true, r.skipped⟩ else ⟨sorted, r.truncated, r.skipped⟩

end Parse

/-! ## The loop over a series -/

section Loop

variable {τ : Type} {clock : Clock τ} {w : Window}

/-- An appointment of the window that is not cancelled. -/
def visible (clock : Clock τ) (w : Window) (i : Item τ) : Bool :=
  !i.cancelled && overlapsWindow clock w i.start i.stop

def Item.toEvent (clock : Clock τ) (i : Item τ) : CalendarEvent :=
  Calendar.toEvent clock i.start i.stop i.summary i.location

/-- What is shown of an appointment. -/
def shown (clock : Clock τ) (w : Window) (i : Item τ) : Option CalendarEvent :=
  if visible clock w i then some (i.toEvent clock) else none

/-- A reading that was not cut short and took everything at face value. -/
def Reading.Quiet (r : Reading) : Prop :=
  r.truncated = false ∧ r.skipped = 0

theorem note_item (clock : Clock τ) (w : Window) (r : Reading) (i : Item τ) :
    (if i.cancelled then r else r.note clock w i) =
      { r with events := r.events ++ (shown clock w i).toList } := by
  unfold shown visible Reading.note Reading.push Item.toEvent
  cases i.cancelled <;> cases overlapsWindow clock w i.start i.stop <;> simp

/-- What a series shows of an occurrence before the end of the window. -/
def earlyShown (w : Window) (details : τ → Item τ) (rule : Rule clock) (n : ℕ) : Option CalendarEvent :=
  match rule.next n with
  | .occurrence t => if clock.instant t < w.stop then shown clock w (details t) else none
  | .ended | .throws => none

/-- Where the loop stops, no later occurrence is before the end of the window. -/
theorem earlyShown_of_stop {details : τ → Item τ} {rule : Rule clock} {n : ℕ}
    (hstop : ∀ t, rule.next n = .occurrence t → w.stop ≤ clock.instant t) {k : ℕ} (hk : n ≤ k) :
    earlyShown w details rule k = none := by
  unfold earlyShown
  split
  · next t ht =>
    obtain ⟨s, hs⟩ := rule.ends hk ht
    exact if_neg (not_lt.2 ((hstop s hs).trans (rule.ascending hk hs ht)))
  · rfl
  · rfl

theorem filterMap_of_stop {details : τ → Item τ} {rule : Rule clock} {n : ℕ}
    (hstop : ∀ t, rule.next n = .occurrence t → w.stop ≤ clock.instant t) (len : ℕ) :
    (List.range' n len).filterMap (earlyShown w details rule) = [] :=
  List.filterMap_eq_nil_iff.2 fun _ hk => earlyShown_of_stop hstop (List.mem_range'_1.1 hk).1

/-- The loop over a series that is not cut short notes the occurrences before the end of the window. -/
theorem expand_quiet {details : τ → Item τ} {rule : Rule clock} : ∀ (budget n : ℕ) (r : Reading),
    (expand w details rule budget n r).Quiet → r.Quiet ∧ ∃ k, ∀ N ≥ k,
      (expand w details rule budget n r).events =
        r.events ++ (List.range' n (N - n)).filterMap (earlyShown w details rule)
  | 0, _, _, h => nomatch h.1
  | budget + 1, n, r, h => by
    unfold expand at h ⊢
    cases hnext : rule.next n with
    | throws =>
      simp only [hnext] at h
      exact absurd h.2 (Nat.succ_ne_zero _)
    | ended =>
      simp only [hnext] at h ⊢
      refine ⟨h, n, fun N _ => ?_⟩
      rw [filterMap_of_stop (fun t ht => nomatch hnext.symm.trans ht), List.append_nil]
    | occurrence t =>
      simp only [hnext] at h ⊢
      by_cases hlate : clock.instant t ≥ w.stop
      · rw [if_pos hlate] at h ⊢
        refine ⟨h, n, fun N _ => ?_⟩
        have hstop : ∀ s, rule.next n = .occurrence s → w.stop ≤ clock.instant s := by
          intro s hs
          obtain rfl := Next.occurrence.inj (hnext.symm.trans hs)
          exact hlate
        rw [filterMap_of_stop hstop, List.append_nil]
      · rw [if_neg hlate, note_item] at h ⊢
        obtain ⟨hr, k, hk⟩ := expand_quiet budget (n + 1) _ h
        refine ⟨hr, max k (n + 1), fun N hN => ?_⟩
        have hrange : List.range' n (N - n) = n :: List.range' (n + 1) (N - (n + 1)) := by
          rw [show N - n = N - (n + 1) + 1 by omega, List.range'_succ]
        have hearly : earlyShown w details rule n = shown clock w (details t) := by
          unfold earlyShown
          rw [hnext]
          exact if_pos (not_le.1 hlate)
        rw [hk N (le_of_max_le_left hN), hrange, List.filterMap_cons, hearly]
        cases shown clock w (details t) <;> simp

theorem skipped_note (r : Reading) (i : Item τ) : (r.note clock w i).skipped = r.skipped := by
  unfold Reading.note
  split <;> rfl

theorem skipped_readDates (i : Item τ) : ∀ (dates : List (Option (τ × τ))) (r : Reading),
    (readDates clock w i dates r).skipped = r.skipped
  | [], _ => rfl
  | d :: dates, r => by
    unfold readDates
    split
    · rfl
    · rw [skipped_readDates i dates]
      rcases d with _ | ⟨start, stop⟩
      · rfl
      · exact skipped_note _ _

end Loop

/-! ## What a window holds -/

section Exact

variable {τ : Type} [DecidableEq τ] {clock : Clock τ}

/-- The `n`th occurrence of a series, after its override has replaced it. -/
def Document.entry (doc : Document clock) (m : Master clock) (n : ℕ) : Option (Item τ) :=
  match m.dates with
  | .series rule endOf =>
    match rule.next n with
    | .occurrence t => some (getOccurrenceDetails m endOf (doc.exceptionsOf m) t)
    | .ended | .throws => none
  | .once | .refused _ => none

/-- The date that the rule gives the `n`th occurrence. -/
def Master.ruleDate (m : Master clock) (n : ℕ) : Option τ :=
  match m.dates with
  | .series rule _ =>
    match rule.next n with
    | .occurrence t => some t
    | .ended | .throws => none
  | .once | .refused _ => none

/-- What a component shows of its first `N` occurrences that have `p`. -/
def Document.shownOf (doc : Document clock) (w : Window) (p : Master clock → ℕ → Bool) (N : ℕ) (m : Master clock) :
    List CalendarEvent :=
  if m.item.cancelled then []
  else
    match m.dates with
    | .once => (shown clock w m.item).toList
    | .series _ _ | .refused _ =>
      (List.range N).filterMap fun n => if p m n then (doc.entry m n).bind (shown clock w) else none

/-- The appointments of a window: single events, the first `N` occurrences of every series, and the exceptions
without a series. -/
def Document.expected (doc : Document clock) (w : Window) (p : Master clock → ℕ → Bool) (N : ℕ) :
    List CalendarEvent :=
  doc.masters.flatMap (doc.shownOf w p N) ++ doc.orphans.filterMap fun x => shown clock w x.item

/-- The events are the appointments of the window, each once and in order, however far the series are followed. -/
def Exact (doc : Document clock) (w : Window) (events : List CalendarEvent) : Prop :=
  (∃ N₀, ∀ N ≥ N₀, events.Perm (doc.expected w (fun _ _ => true) N)) ∧
    events.Pairwise fun a b => a.sortKey ≤ b.sortKey

/-- An occurrence whose rule date is before the end of the window. -/
def isEarly (w : Window) (m : Master clock) (n : ℕ) : Bool :=
  (m.ruleDate n).any fun t => clock.instant t < w.stop

/-- No series has an instance in the window that was moved there from its end or later. -/
def NoneMovedIn (doc : Document clock) (w : Window) : Prop :=
  ∀ m ∈ doc.masters, m.item.cancelled = false → ∀ n t i, m.ruleDate n = some t → doc.entry m n = some i →
    w.stop ≤ clock.instant t → visible clock w i = false

/-! ### What is read -/

variable {doc : Document clock} {w : Window} {r : Reading} {m : Master clock}

/-- One component of a reading that was not cut short. -/
theorem readMaster_quiet (h : (readMaster doc w r m).Quiet) : r.Quiet ∧ ∃ k, ∀ N ≥ k,
    (readMaster doc w r m).events = r.events ++ doc.shownOf w (isEarly w) N m := by
  unfold readMaster at h ⊢
  cases hcancelled : m.item.cancelled with
  | true =>
    rw [hcancelled, if_pos rfl] at h
    refine ⟨h, 0, fun N _ => ?_⟩
    rw [if_pos rfl, Document.shownOf, hcancelled, if_pos rfl, List.append_nil]
  | false =>
    rw [hcancelled, if_neg Bool.false_ne_true] at h
    cases hdates : m.dates with
    | once =>
      have hnote := note_item clock w r m.item
      rw [hcancelled, if_neg Bool.false_ne_true] at hnote
      simp only [hdates] at h ⊢
      rw [hnote] at h ⊢
      refine ⟨h, 0, fun N _ => ?_⟩
      simp only [Document.shownOf, hcancelled, hdates, Bool.false_eq_true, if_false]
    | refused rdates =>
      simp only [hdates] at h
      have hskip := h.2
      rw [skipped_readDates] at hskip
      exact absurd hskip (Nat.succ_ne_zero _)
    | series rule endOf =>
      simp only [hdates] at h ⊢
      obtain ⟨hr, k, hk⟩ := expand_quiet _ _ _ h
      refine ⟨hr, k, fun N hN => ?_⟩
      simp only [Bool.false_eq_true, if_false]
      rw [hk N hN, Nat.sub_zero, ← List.range_eq_range']
      simp only [Document.shownOf, hcancelled, hdates, Bool.false_eq_true, if_false]
      refine congrArg (r.events ++ ·) (List.filterMap_congr fun n _ => ?_)
      simp only [earlyShown, isEarly, Master.ruleDate, Document.entry, hdates]
      cases rule.next n with
      | occurrence t => by_cases ht : clock.instant t < w.stop <;> simp [ht]
      | ended => rfl
      | throws => rfl

theorem readMasters_quiet : ∀ (masters : List (Master clock)) (r : Reading),
    (masters.foldl (readMaster doc w) r).Quiet → r.Quiet ∧ ∃ k, ∀ N ≥ k,
      (masters.foldl (readMaster doc w) r).events =
        r.events ++ masters.flatMap (doc.shownOf w (isEarly w) N)
  | [], r, h => ⟨h, 0, fun N _ => (List.append_nil _).symm⟩
  | m :: masters, r, h => by
    obtain ⟨hfirst, k, hk⟩ := readMasters_quiet masters _ h
    obtain ⟨hr, k', hk'⟩ := readMaster_quiet hfirst
    refine ⟨hr, max k k', fun N hN => ?_⟩
    rw [List.foldl_cons, hk N (le_of_max_le_left hN), hk' N (le_of_max_le_right hN), List.append_assoc,
      List.flatMap_cons]

omit [DecidableEq τ] in
theorem readOrphans : ∀ (orphans : List (Exception τ)) (r : Reading),
    orphans.foldl (readOrphan clock w) r =
      { r with events := r.events ++ orphans.filterMap fun x => shown clock w x.item }
  | [], r => by simp
  | x :: orphans, r => by
    rw [List.foldl_cons, readOrphan, note_item, readOrphans orphans, List.filterMap_cons]
    cases shown clock w x.item <;> simp

/-- A document whose reading was not cut short gives the appointments whose rule date is before the end of the
window. -/
theorem readDocument_quiet (h : (readDocument doc w).Quiet) :
    ∃ k, ∀ N ≥ k, (readDocument doc w).events = doc.expected w (isEarly w) N := by
  unfold readDocument at h ⊢
  rw [readOrphans] at h ⊢
  obtain ⟨-, k, hk⟩ := readMasters_quiet doc.masters _ h
  refine ⟨k, fun N hN => ?_⟩
  show _ ++ _ = _
  rw [hk N hN, List.nil_append]
  rfl

/-! ### What is missed -/

/-- Of the values that a condition lets through none is new; as many are as many only where it stops nothing. -/
theorem length_filterMap_if {α β : Type*} (p : α → Bool) (f : α → Option β) : ∀ l : List α,
    (l.filterMap fun a => if p a then f a else none).length ≤ (l.filterMap f).length ∧
      ((l.filterMap fun a => if p a then f a else none).length = (l.filterMap f).length →
        ∀ a ∈ l, p a = false → f a = none)
  | [] => ⟨le_rfl, fun _ _ ha => absurd ha List.not_mem_nil⟩
  | a :: l => by
    obtain ⟨hle, heq⟩ := length_filterMap_if p f l
    rw [List.filterMap_cons, List.filterMap_cons]
    cases hp : p a with
    | true =>
      simp only [if_true]
      cases hf : f a with
      | none => exact ⟨hle, fun h b hb hpb => (List.mem_cons.1 hb).elim (fun hba => hba ▸ hf) fun hb =>
          heq h b hb hpb⟩
      | some x =>
        simp only [List.length_cons]
        refine ⟨Nat.succ_le_succ hle, fun h b hb hpb => ?_⟩
        rcases List.mem_cons.1 hb with rfl | hb
        · exact nomatch hp.symm.trans hpb
        · exact heq (Nat.succ.inj h) b hb hpb
    | false =>
      simp only [Bool.false_eq_true, if_false]
      cases hf : f a with
      | none => exact ⟨hle, fun h b hb hpb => (List.mem_cons.1 hb).elim (fun hba => hba ▸ hf) fun hb =>
          heq h b hb hpb⟩
      | some x =>
        simp only [List.length_cons]
        exact ⟨hle.trans (Nat.le_succ _), fun h => by omega⟩

theorem length_shownOf_le (doc : Document clock) (w : Window) (N : ℕ) (m : Master clock) :
    (doc.shownOf w (isEarly w) N m).length ≤ (doc.shownOf w (fun _ _ => true) N m).length ∧
      ((doc.shownOf w (isEarly w) N m).length = (doc.shownOf w (fun _ _ => true) N m).length →
        m.item.cancelled = false → ∀ n < N, isEarly w m n = false →
          (doc.entry m n).bind (shown clock w) = none) := by
  unfold Document.shownOf
  cases hcancelled : m.item.cancelled with
  | true => exact ⟨le_rfl, fun _ h => nomatch h⟩
  | false =>
    have hall := length_filterMap_if (isEarly w m) (fun n => (doc.entry m n).bind (shown clock w)) (List.range N)
    simp only [Bool.false_eq_true, if_false, if_true]
    cases hdates : m.dates with
    | once =>
      refine ⟨le_rfl, fun _ _ n _ _ => ?_⟩
      simp [Document.entry, hdates]
    | series rule endOf => exact ⟨hall.1, fun h _ n hn => hall.2 h n (List.mem_range.2 hn)⟩
    | refused rdates => exact ⟨hall.1, fun h _ n hn => hall.2 h n (List.mem_range.2 hn)⟩

theorem length_flatMap_shownOf (doc : Document clock) (w : Window) (N : ℕ) : ∀ masters : List (Master clock),
    (masters.flatMap (doc.shownOf w (isEarly w) N)).length ≤
        (masters.flatMap (doc.shownOf w (fun _ _ => true) N)).length ∧
      ((masters.flatMap (doc.shownOf w (isEarly w) N)).length =
          (masters.flatMap (doc.shownOf w (fun _ _ => true) N)).length →
        ∀ m ∈ masters, (doc.shownOf w (isEarly w) N m).length =
          (doc.shownOf w (fun _ _ => true) N m).length)
  | [] => ⟨le_rfl, fun _ _ hm => absurd hm List.not_mem_nil⟩
  | m :: masters => by
    obtain ⟨hle, heq⟩ := length_flatMap_shownOf doc w N masters
    have hone := (length_shownOf_le doc w N m).1
    simp only [List.flatMap_cons, List.length_append]
    refine ⟨Nat.add_le_add hone hle, fun h m' hm' => ?_⟩
    rcases List.mem_cons.1 hm' with rfl | hm'
    · omega
    · exact heq (by omega) m' hm'

/-- An occurrence that is not early is not shown where no override moves it into the window. -/
theorem late_shown {n : ℕ} (hearly : isEarly w m n = false) : (doc.entry m n).bind (shown clock w) = none ↔
    ∀ t i, m.ruleDate n = some t → doc.entry m n = some i → w.stop ≤ clock.instant t →
      visible clock w i = false := by
  have hdate : ∀ i, doc.entry m n = some i → ∃ t, m.ruleDate n = some t ∧ w.stop ≤ clock.instant t := by
    intro i hi
    cases hdates : m.dates with
    | once => simp [Document.entry, hdates] at hi
    | refused rdates => simp [Document.entry, hdates] at hi
    | series rule endOf =>
      cases hnext : rule.next n with
      | ended => simp [Document.entry, hdates, hnext] at hi
      | throws => simp [Document.entry, hdates, hnext] at hi
      | occurrence t =>
        simp only [isEarly, Master.ruleDate, hdates, hnext, Option.any_some, decide_eq_false_iff_not,
          not_lt] at hearly ⊢
        exact ⟨t, rfl, hearly⟩
  cases hentry : doc.entry m n with
  | none => exact iff_of_true rfl fun t i _ hi => nomatch hi
  | some i =>
    obtain ⟨t, ht, hlate⟩ := hdate i hentry
    rw [Option.bind_some, shown]
    constructor
    · intro h t' i' _ hi' _
      obtain rfl := Option.some.inj hi'
      by_contra hvisible
      rw [if_pos (Bool.not_eq_false _ ▸ hvisible)] at h
      exact nomatch h
    · intro h
      rw [h t i ht rfl hlate]
      rfl

/-- Where no instance was moved in, the early occurrences are all that is shown. -/
theorem expected_of_noneMovedIn (h : NoneMovedIn doc w) (N : ℕ) :
    doc.expected w (isEarly w) N = doc.expected w (fun _ _ => true) N := by
  unfold Document.expected
  refine congrArg (· ++ _) (List.flatMap_congr fun m hm => ?_)
  unfold Document.shownOf
  split
  · rfl
  next hcancelled =>
    have hmap : ((List.range N).filterMap fun n =>
        if isEarly w m n then (doc.entry m n).bind (shown clock w) else none) =
          (List.range N).filterMap fun n => if true then (doc.entry m n).bind (shown clock w) else none := by
      refine List.filterMap_congr fun n _ => ?_
      cases hearly : isEarly w m n with
      | true => rfl
      | false =>
        simp only [Bool.false_eq_true, if_false, if_true]
        exact ((late_shown hearly).2 (h m hm (Bool.eq_false_iff.2 hcancelled) n)).symm
    cases m.dates with
    | once => rfl
    | series rule endOf => exact hmap
    | refused rdates => exact hmap

/-- A series is followed to the end of the window by its rule's dates. What is read of a document, where it was
not cut short and nothing was skipped, is exactly what the window holds where no override moves an instance
into the window from its end or later. -/
theorem parseIcsEvents_exact_iff (doc : Document clock) (w : Window) (maxEvents : Option ℕ)
    (htruncated : (parseIcsEvents doc w maxEvents).truncated = false)
    (hskipped : (parseIcsEvents doc w maxEvents).skipped = 0) :
    Exact doc w (parseIcsEvents doc w maxEvents).events ↔ NoneMovedIn doc w := by
  -- The result is the sorted reading.
  have hresult : parseIcsEvents doc w maxEvents =
      ⟨(readDocument doc w).events.insertionSort fun a b => a.sortKey ≤ b.sortKey,
        (readDocument doc w).truncated, (readDocument doc w).skipped⟩ := by
    unfold parseIcsEvents at htruncated ⊢
    simp only at htruncated ⊢
    split at htruncated
    · exact nomatch htruncated
    · next hmax => rw [if_neg hmax]
  rw [hresult] at htruncated hskipped ⊢
  obtain ⟨k, hk⟩ := readDocument_quiet ⟨htruncated, hskipped⟩
  have hperm : ∀ N ≥ k, ((readDocument doc w).events.insertionSort fun a b => a.sortKey ≤ b.sortKey).Perm
      (doc.expected w (isEarly w) N) := fun N hN => hk N hN ▸ List.perm_insertionSort _ _
  constructor
  · rintro ⟨⟨N₀, hN₀⟩, -⟩ m hm hcancelled n t i hdate hentry hlate
    have hearly : isEarly w m n = false := by
      rw [isEarly, hdate]
      simpa using hlate
    refine (late_shown hearly).1 ?_ t i hdate hentry hlate
    -- As many are shown early as are shown, far enough out.
    have hlen := ((hperm (max (max k N₀) (n + 1)) (by omega)).symm.trans
      (hN₀ (max (max k N₀) (n + 1)) (by omega))).length_eq
    rw [Document.expected, Document.expected, List.length_append, List.length_append] at hlen
    have heq := (length_flatMap_shownOf doc w _ doc.masters).2 (Nat.add_right_cancel hlen) m hm
    exact (length_shownOf_le doc w _ m).2 heq hcancelled n (by omega) hearly
  · intro h
    refine ⟨⟨k, fun N hN => ?_⟩, ?_⟩
    · rw [← expected_of_noneMovedIn h]
      exact hperm N hN
    · exact List.pairwise_insertionSort _ _

end Exact

/-! ### An instance that is moved in -/

private def seconds : Clock ℤ :=
  ⟨id, id, fun _ => [], fun _ => false, fun _ => none⟩

/-- One occurrence, at `20`. -/
private def atTwenty : Rule seconds where
  next n := if n = 0 then .occurrence 20 else .ended
  ascending {m n s t} _ hm hn := by
    split at hm <;> split at hn <;> simp_all
  ends {m n t} h hn := by
    split at hn
    · next h0 =>
      obtain rfl : m = 0 := by omega
      exact ⟨20, rfl⟩
    · exact nomatch hn

private def standup (exceptions : List (Exception ℤ)) : Document seconds :=
  ⟨[⟨utf16 "a", ⟨20, 21, none, none, false⟩, .series atTwenty fun t => t + 1⟩], exceptions, 0, false⟩

/-- The window ends before the one occurrence. -/
theorem parseIcsEvents_exact_iff_standup :
    Exact (standup []) ⟨0, 10⟩ (parseIcsEvents (standup []) ⟨0, 10⟩ none).events ↔
      NoneMovedIn (standup []) ⟨0, 10⟩ :=
  parseIcsEvents_exact_iff (standup []) ⟨0, 10⟩ none (by decide) (by decide)

/-- The occurrence at `20` is moved to `5`, and the window up to `10` does not show it. -/
theorem moved_instance_is_missed :
    (parseIcsEvents (standup [⟨utf16 "a", 20, ⟨5, 6, none, none, false⟩⟩]) ⟨0, 10⟩ none).events = [] ∧
      (parseIcsEvents (standup [⟨utf16 "a", 20, ⟨5, 6, none, none, false⟩⟩]) ⟨0, 10⟩ none).truncated = false ∧
      (parseIcsEvents (standup [⟨utf16 "a", 20, ⟨5, 6, none, none, false⟩⟩]) ⟨0, 10⟩ none).skipped = 0 ∧
      ¬ Exact (standup [⟨utf16 "a", 20, ⟨5, 6, none, none, false⟩⟩]) ⟨0, 10⟩
        (parseIcsEvents (standup [⟨utf16 "a", 20, ⟨5, 6, none, none, false⟩⟩]) ⟨0, 10⟩ none).events := by
  refine ⟨by decide, by decide, by decide, fun ⟨⟨N₀, hN₀⟩, _⟩ => ?_⟩
  have hmem : (⟨[], [], [], none, false, none, 5⟩ : CalendarEvent) ∈
      (standup [⟨utf16 "a", 20, ⟨5, 6, none, none, false⟩⟩]).expected ⟨0, 10⟩ (fun _ _ => true) (N₀ + 1) :=
    List.mem_append_left _ (List.mem_flatMap.2 ⟨_, List.mem_singleton.2 rfl,
      List.mem_filterMap.2 ⟨0, List.mem_range.2 (Nat.succ_pos _), rfl⟩⟩)
  exact List.not_mem_nil ((hN₀ (N₀ + 1) (Nat.le_succ _)).mem_iff.2 hmem)

end Lynox.Calendar
