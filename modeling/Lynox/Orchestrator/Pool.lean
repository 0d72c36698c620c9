import Mathlib.Algebra.Order.BigOperators.Group.List
import Mathlib.Algebra.Order.Floor.Ring
import Mathlib.Data.List.Basic
import Mathlib.Data.List.Nodup
import Mathlib.Data.Rat.Floor
import Mathlib.Order.WithBot

/-!
# The bounded pool

`mapAllSettledWithConcurrency` starts workers that take the next index from one cursor, call `fn`,
await its promise and write the outcome at the index. The promises settle in any order, and a worker
goes on some time after the promise it awaits has settled. `fn` may also throw before it returns a
promise, and the worker then goes on at once.

`Sound` says where each index below the cursor is : with exactly one worker, which awaits it or holds its outcome,
or in the results with the outcome it settled with. A step moves one index along. When every worker has returned the
cursor is past the end and no index is with a worker, so all outcomes are in their places (`pool_settles_all`).
-/

namespace Lynox.Concurrent

universe u

/-! ## How many workers -/

/-- The numbers of the language that are ordered : with both infinities. -/
abbrev Extended := WithBot (WithTop ℚ)

/-- A number of the language, `none` being `NaN`. -/
abbrev Number := Option Extended

def finite (q : ℚ) : Extended :=
  ((q : WithTop ℚ) : WithBot (WithTop ℚ))

/-- `Math.max(1, Math.min(concurrency, items.length))` -/
def poolOf (concurrency : Number) (length : ℕ) : Number :=
  concurrency.map fun c => max (finite 1) (min c (finite length))

/-- The length `Array.from` takes : no number is none, a fraction is cut off. -/
def lengthOf : Number → ℕ
  | none => 0
  | some none => 0
  | some (some none) => 2 ^ 53 - 1
  | some (some (some q)) => min ⌊q⌋.toNat (2 ^ 53 - 1)

/-! ## Workers -/

variable {T V E : Type u}

/-- A `PromiseSettledResult`. -/
inductive Outcome (V E : Type u)
  | fulfilled (value : V)
  | rejected (reason : E)

/-- Where a worker stands between two of its turns : at its `await`, at its `await` with the promise
settled, or returned. -/
inductive Worker (V E : Type u)
  | awaiting (index : ℕ)
  | settled (index : ℕ) (outcome : Outcome V E)
  | returned

/-- What the workers share, the calls of `fn` in order, and the workers. -/
structure Pool (T V E : Type u) where
  cursor : ℕ
  started : List (T × ℕ)
  results : List (Option (Outcome V E))
  workers : List (Worker V E)

namespace Pool

/-- `worker` from the top of its loop. `throws` says what `fn` throws for an index before it has
returned a promise. -/
def loop (items : List T) (throws : ℕ → Option E) (p : Pool T V E) : Pool T V E × Worker V E :=
  let index := p.cursor
  if h : index < items.length then
    match throws index with
    | some err =>
      loop items throws
        { p with
          cursor := index + 1
          started := p.started ++ [(items[index], index)]
          results := p.results.set index (some (.rejected err)) }
    | none => ({ p with cursor := index + 1, started := p.started ++ [(items[index], index)] },
        .awaiting index)
  else ({ p with cursor := index + 1 }, .returned)
termination_by items.length - p.cursor

/-- One more worker, up to its first `await`. -/
def spawn (items : List T) (throws : ℕ → Option E) (p : Pool T V E) : Pool T V E :=
  let (p', w) := loop items throws p
  { p' with workers := p'.workers ++ [w] }

/-- The call, up to `await Promise.all`. -/
def mapAllSettledWithConcurrency (items : List T) (concurrency : Number) (throws : ℕ → Option E) :
    Pool T V E :=
  (spawn items throws)^[lengthOf (poolOf concurrency items.length)]
    { cursor := 0, started := [], results := List.replicate items.length none, workers := [] }

end Pool

/-- What happens while the call waits : the promise for an index settles, which the worker at
position `worker` awaits, or that worker goes on. -/
inductive Event (V E : Type u)
  | settle (worker : ℕ) (index : ℕ) (outcome : Outcome V E)
  | goOn (worker : ℕ)

namespace Pool

def step (items : List T) (throws : ℕ → Option E) (p : Pool T V E) : Event V E → Option (Pool T V E)
  | .settle k i o =>
    match p.workers[k]? with
    | some (.awaiting j) => if j =
        i then some { p with workers := p.workers.set k (.settled i o) } else none
    | _ => none
  | .goOn k =>
    match p.workers[k]? with
    | some (.settled i o) =>
      let (p', w) := loop items throws { p with results := p.results.set i (some o) }
      some { p' with workers := p'.workers.set k w }
    | _ => none

def run (items : List T) (throws : ℕ → Option E) (p : Pool T V E) (es : List (Event V E)) :
    Option (Pool T V E) :=
  es.foldlM (step items throws) p

/-- `Promise.all` is done, and the call returns `results`. -/
def Returned (p : Pool T V E) : Prop :=
  ∀ w ∈ p.workers, w = .returned

end Pool

namespace Worker

/-- The index a worker holds. -/
def index : Worker V E → Option ℕ
  | .awaiting i => some i
  | .settled i _ => some i
  | .returned => none

/-- The steps that a worker has still to make for its index. -/
def weight : Worker V E → ℕ
  | .awaiting _ => 2
  | .settled _ _ => 1
  | .returned => 0

/-- A promise that has not settled. -/
def isAwaiting : Worker V E → Bool
  | .awaiting _ => true
  | _ => false

end Worker

/-- How many started tasks have not settled. -/
def Pool.unsettled (p : Pool T V E) : ℕ :=
  p.workers.countP Worker.isAwaiting

/-! ## Where an index is -/

/-- What the promise for an index settled with, once for each time. -/
def settlements (es : List (Event V E)) (i : ℕ) : List (Outcome V E) :=
  es.filterMap fun
    | .settle _ j o => if j = i then some o else none
    | .goOn _ => none

/-- The outcome of an index : what its call threw, or what its promise settled with, the one time
that it did. -/
def Owns (throws : ℕ → Option E) (es : List (Event V E)) (i : ℕ) (o : Outcome V E) : Prop :=
  match throws i with
  | some err => o = .rejected err ∧ settlements es i = []
  | none => settlements es i = [o]

/-- What a worker holds is what happened to its index, and one that has returned found no index left. -/
def Fits (length : ℕ) (throws : ℕ → Option E) (es : List (Event V E)) (cursor : ℕ) : Worker V E → Prop
  | .awaiting i => throws i = none ∧ settlements es i = []
  | .settled i o => throws i = none ∧ settlements es i = [o]
  | .returned => length ≤ cursor

/-- The state between two turns, with the workers in any order. -/
structure Sound (items : List T) (throws : ℕ → Option E) (es : List (Event V E)) (p : Pool T V E)
    (ws : List (Worker V E)) : Prop where
  started : p.started = items.zipIdx.take p.cursor
  length : p.results.length = items.length
  nodup : (ws.filterMap Worker.index).Nodup
  below : ∀ i ∈ ws.filterMap Worker.index, i < p.cursor ∧ i < items.length
  fits : ∀ w ∈ ws, Fits items.length throws es p.cursor w
  settled : ∀ i < items.length, i < p.cursor → i ∉ ws.filterMap Worker.index →
    ∃ o, p.results[i]? = some (some o) ∧ Owns throws es i o
  fresh : ∀ i, p.cursor ≤ i → settlements es i = []
  paid : (ws.map Worker.weight).sum + es.length ≤ 2 * min p.cursor items.length

namespace Sound

variable {items : List T} {throws : ℕ → Option E} {es : List (Event V E)} {p : Pool T V E}
  {ws : List (Worker V E)}

theorem perm (h : Sound items throws es p ws) {ws' : List (Worker V E)} (hperm : ws.Perm ws') :
    Sound items throws es p ws' := by
  have hmem : ∀ i, i ∈ ws'.filterMap Worker.index ↔ i ∈ ws.filterMap Worker.index := fun i =>
    (hperm.filterMap Worker.index).mem_iff.symm
  exact {
    started := h.started
    length := h.length
    nodup := (hperm.filterMap Worker.index).nodup_iff.1 h.nodup
    below := fun i hi => h.below i ((hmem i).1 hi)
    fits := fun w hw => h.fits w (hperm.mem_iff.2 hw)
    settled := fun i hi hc hnot => h.settled i hi hc fun hin => hnot ((hmem i).2 hin)
    fresh := h.fresh
    paid := by
      rw [← (hperm.map Worker.weight).sum_eq]
      exact h.paid }

theorem fits_mono {cursor cursor' : ℕ} (hle : cursor ≤ cursor') {length : ℕ} {w : Worker V E}
    (h : Fits length throws es cursor w) : Fits length throws es cursor' w := by
  cases w with
  | awaiting => exact h
  | settled => exact h
  | returned => exact le_trans h hle

theorem take_zipIdx {c : ℕ} (hc : c < items.length) :
    items.zipIdx.take (c + 1) = items.zipIdx.take c ++ [(items[c], c)] := by
  rw [List.take_succ_eq_append_getElem (by simpa using hc)]
  simp

/-- A call of `fn` that throws is done at once. -/
theorem threw (h : Sound items throws es p ws) (hc : p.cursor < items.length) {err : E}
    (hthrows : throws p.cursor = some err) :
    Sound items throws es
      { p with
        cursor := p.cursor + 1
        started := p.started ++ [(items[p.cursor], p.cursor)]
        results := p.results.set p.cursor (some (.rejected err)) } ws where
  started := by
    simp only
    rw [take_zipIdx hc, h.started]
  length := by simpa using h.length
  nodup := h.nodup
  below := fun i hi => ⟨Nat.lt_succ_of_lt (h.below i hi).1, (h.below i hi).2⟩
  fits := fun w hw => fits_mono (Nat.le_succ _) (h.fits w hw)
  settled := fun i hi hlt hnot => by
    rcases Nat.lt_succ_iff_lt_or_eq.1 hlt with hlt | rfl
    · obtain ⟨o, hres, howns⟩ := h.settled i hi hlt hnot
      have hne : p.cursor ≠ i := hlt.ne'
      exact ⟨o, by rwa [List.getElem?_set_ne hne], howns⟩
    · refine ⟨.rejected err, ?_, ?_⟩
      · rw [List.getElem?_set_self (by rw [h.length]; exact hi)]
      · unfold Owns
        rw [hthrows]
        exact ⟨rfl, h.fresh _ le_rfl⟩
  fresh := fun i hi => h.fresh i (Nat.le_of_succ_le hi)
  paid := h.paid.trans (by simp only; omega)

/-- A call of `fn` that returns a promise leaves its index with the worker. -/
theorem awaits (h : Sound items throws es p ws) (hc : p.cursor < items.length)
    (hthrows : throws p.cursor = none) :
    Sound items throws es
      { p with cursor := p.cursor + 1, started := p.started ++ [(items[p.cursor], p.cursor)] }
      (.awaiting p.cursor :: ws) where
  started := by
    simp only
    rw [take_zipIdx hc, h.started]
  length := h.length
  nodup := List.nodup_cons.2 ⟨fun hin => absurd (h.below _ hin).1 (lt_irrefl _), h.nodup⟩
  below := fun i hi => by
    rcases List.mem_cons.1 hi with rfl | hi
    · exact ⟨Nat.lt_succ_self _, hc⟩
    · exact ⟨Nat.lt_succ_of_lt (h.below i hi).1, (h.below i hi).2⟩
  fits := fun w hw => by
    rcases List.mem_cons.1 hw with rfl | hw
    · exact ⟨hthrows, h.fresh _ le_rfl⟩
    · exact fits_mono (Nat.le_succ _) (h.fits w hw)
  settled := fun i hi hlt hnot => by
    have hne : i ≠ p.cursor := fun heq => hnot (by simp [Worker.index, heq])
    refine h.settled i hi (by simp only at hlt; omega) fun hin => hnot ?_
    simpa [Worker.index, hne] using hin
  fresh := fun i hi => h.fresh i (by simp only at hi; omega)
  paid := by
    have := h.paid
    simp only [List.map_cons, List.sum_cons, Worker.weight]
    omega

theorem returns (h : Sound items throws es p ws) (hc : ¬ p.cursor < items.length) :
    Sound items throws es { p with cursor := p.cursor + 1 } (.returned :: ws) where
  started := by
    simp only
    rw [h.started, List.take_of_length_le (by simp; omega), List.take_of_length_le (by simp; omega)]
  length := h.length
  nodup := h.nodup
  below := fun i hi => ⟨Nat.lt_succ_of_lt (h.below i hi).1, (h.below i hi).2⟩
  fits := fun w hw => by
    rcases List.mem_cons.1 hw with rfl | hw
    · simp only [Fits]
      omega
    · exact fits_mono (Nat.le_succ _) (h.fits w hw)
  settled := fun i hi _ hnot => h.settled i hi (by omega) hnot
  fresh := fun i hi => h.fresh i (by simp only at hi; omega)
  paid := by
    have := h.paid
    simp only [List.map_cons, List.sum_cons, Worker.weight]
    omega

theorem loop (h : Sound items throws es p ws) :
    Sound items throws es (p.loop items throws).1 ((p.loop items throws).2 :: ws) := by
  fun_induction Pool.loop items throws p with
  | case1 p index hc err hthrows ih => exact ih (h.threw hc hthrows)
  | case2 p index hc hthrows => exact h.awaits hc hthrows
  | case3 p index hc => exact h.returns hc

/-- One task settles. -/
theorem settle {i : ℕ} (h : Sound items throws es p (.awaiting i :: ws)) (k : ℕ) (o : Outcome V E) :
    Sound items throws (es ++ [.settle k i o]) p (.settled i o :: ws) := by
  have hsame : ∀ j, j ≠ i → settlements (es ++ [.settle k i o]) j = settlements es j := by
    intro j hj
    simp [settlements, hj.symm]
  have hheld : ∀ j ∈ ws.filterMap Worker.index, j ≠ i := by
    rintro j hj rfl
    exact (List.nodup_cons.1 h.nodup).1 hj
  obtain ⟨hcursor, -⟩ := h.below i (by simp [Worker.index])
  exact {
    started := h.started
    length := h.length
    nodup := h.nodup
    below := h.below
    fits := fun w hw => by
      rcases List.mem_cons.1 hw with rfl | hw
      · obtain ⟨hthrows, hnone⟩ := h.fits (.awaiting i) (by simp)
        refine ⟨hthrows, ?_⟩
        simpa [settlements] using hnone
      · have hfits := h.fits w (List.mem_cons_of_mem _ hw)
        cases w with
        | returned => exact hfits
        | awaiting j =>
          have hj := hheld j (List.mem_filterMap.2 ⟨_, hw, rfl⟩)
          exact ⟨hfits.1, (hsame j hj).trans hfits.2⟩
        | settled j o' =>
          have hj := hheld j (List.mem_filterMap.2 ⟨_, hw, rfl⟩)
          exact ⟨hfits.1, (hsame j hj).trans hfits.2⟩
    settled := fun j hj hc hnot => by
      have hne : j ≠ i := fun heq => hnot (by simp [Worker.index, heq])
      obtain ⟨o', hres, howns⟩ := h.settled j hj hc hnot
      refine ⟨o', hres, ?_⟩
      unfold Owns at howns ⊢
      rwa [hsame j hne]
    fresh := fun j hj => (hsame j (by omega)).trans (h.fresh j hj)
    paid := by
      have := h.paid
      simp only [List.map_cons, List.sum_cons, Worker.weight, List.length_append,
        List.length_singleton] at this ⊢
      omega }

/-- A worker writes the outcome it holds. -/
theorem wrote {i : ℕ} {o : Outcome V E} (h : Sound items throws es p (.settled i o :: ws)) (k : ℕ) :
    Sound items throws (es ++ [.goOn k]) { p with results := p.results.set i (some o) } ws := by
  have hsame : ∀ j, settlements (es ++ [.goOn k]) j = settlements es j := by
    intro j
    simp [settlements]
  have hOwns : ∀ j o', Owns throws es j o' → Owns throws (es ++ [.goOn k]) j o' := by
    intro j o' howns
    unfold Owns at howns ⊢
    rwa [hsame j]
  obtain ⟨-, hi⟩ := h.below i (by simp [Worker.index])
  exact {
    started := h.started
    length := by simpa using h.length
    nodup := (List.nodup_cons.1 h.nodup).2
    below := fun j hj => h.below j (List.mem_cons_of_mem _ hj)
    fits := fun w hw => by
      have hfits := h.fits w (List.mem_cons_of_mem _ hw)
      cases w with
      | returned => exact hfits
      | awaiting j => exact ⟨hfits.1, (hsame j).trans hfits.2⟩
      | settled j o' => exact ⟨hfits.1, (hsame j).trans hfits.2⟩
    settled := fun j hj hc hnot => by
      by_cases heq : j = i
      · subst heq
        obtain ⟨hthrows, hone⟩ := h.fits (.settled j o) (by simp)
        refine ⟨o, by rw [List.getElem?_set_self (by rw [h.length]; exact hi)], hOwns j o ?_⟩
        unfold Owns
        rw [hthrows]
        exact hone
      · obtain ⟨o', hres, howns⟩ := h.settled j hj hc (by simpa [Worker.index, heq] using hnot)
        exact ⟨o', by rwa [List.getElem?_set_ne (Ne.symm heq)], hOwns j o' howns⟩
    fresh := fun j hj => (hsame j).trans (h.fresh j hj)
    paid := by
      have := h.paid
      simp only [List.map_cons, List.sum_cons, Worker.weight, List.length_append,
        List.length_singleton] at this ⊢
      omega }

end Sound

theorem loop_workers (items : List T) (throws : ℕ → Option E) (p : Pool T V E) :
    (p.loop items throws).1.workers = p.workers := by
  fun_induction Pool.loop items throws p with
  | case1 p index hc err hthrows ih => exact ih
  | case2 p index hc hthrows => rfl
  | case3 p index hc => rfl

/-! ## Every run -/

section Runs

variable {items : List T} {throws : ℕ → Option E} {es : List (Event V E)} {p p' : Pool T V E}

theorem sound_spawn (h : Sound items throws es p p.workers) :
    Sound items throws es (p.spawn items throws) (p.spawn items throws).workers := by
  have hloop := h.loop
  unfold Pool.spawn
  rw [← loop_workers items throws p] at hloop
  refine Sound.perm (p := { (p.loop items throws).1 with
    workers := (p.loop items throws).1.workers ++ [(p.loop items throws).2] }) ?_
      (List.perm_append_singleton _ _).symm
  exact { hloop with }

theorem spawn_length (items : List T) (throws : ℕ → Option E) (p : Pool T V E) :
    (p.spawn items throws).workers.length = p.workers.length + 1 := by
  simp [Pool.spawn, loop_workers]

/-- The call up to its first `await`. -/
theorem sound_call (items : List T) (concurrency : Number) (throws : ℕ → Option E) :
    Sound items throws [] (Pool.mapAllSettledWithConcurrency (V := V) items concurrency throws)
      (Pool.mapAllSettledWithConcurrency (V := V) items concurrency throws).workers ∧
    (Pool.mapAllSettledWithConcurrency (V := V) items concurrency throws).workers.length =
      lengthOf (poolOf concurrency items.length) := by
  unfold Pool.mapAllSettledWithConcurrency
  generalize lengthOf (poolOf concurrency items.length) = n
  induction n with
  | zero =>
    refine ⟨?_, rfl⟩
    exact {
      started := rfl
      length := by simp
      nodup := List.nodup_nil
      below := by simp
      fits := by simp
      settled := by simp
      fresh := fun _ _ => rfl
      paid := by simp }
  | succ n ih =>
    rw [Function.iterate_succ_apply']
    exact ⟨sound_spawn ih.1, by rw [spawn_length, ih.2]⟩

theorem sound_step {e : Event V E} (h : Sound items throws es p p.workers)
    (hstep : p.step items throws e = some p') :
    Sound items throws (es ++ [e]) p' p'.workers ∧ p'.workers.length = p.workers.length := by
  -- the worker at a position, and the others
  have hsplit : ∀ {k : ℕ} {w : Worker V E}, p.workers[k]? = some w →
      ∃ ws, p.workers.Perm (w :: ws) ∧ ∀ w', (p.workers.set k w').Perm (w' :: ws) := by
    intro k w hw
    obtain ⟨hk, rfl⟩ := List.getElem?_eq_some_iff.1 hw
    exact ⟨p.workers.eraseIdx k, (List.getElem_cons_eraseIdx_perm hk).symm,
      fun w' => List.set_perm_cons_eraseIdx hk w'⟩
  cases e with
  | settle k i o =>
    simp only [Pool.step] at hstep
    split at hstep
    next j hw =>
      obtain ⟨rfl, rfl⟩ : j = i ∧ { p with workers := p.workers.set k (.settled i o) } = p' := by
        simpa [Option.ite_none_right_eq_some] using hstep
      obtain ⟨ws, hperm, hset⟩ := hsplit hw
      have hsettled := ((h.perm hperm).settle k o).perm (hset _).symm
      exact ⟨{ hsettled with }, by simp⟩
    next => cases hstep
  | goOn k =>
    simp only [Pool.step] at hstep
    split at hstep
    next i o hw =>
      obtain rfl := Option.some.inj hstep
      obtain ⟨ws, hperm, hset⟩ := hsplit hw
      have hloop := ((h.perm hperm).wrote k).loop
      rw [loop_workers]
      exact ⟨{ hloop.perm (hset _).symm with }, by simp⟩
    next => cases hstep

theorem sound_run {es' : List (Event V E)} (h : Sound items throws es p p.workers)
    (hrun : p.run items throws es' = some p') :
    Sound items throws (es ++ es') p' p'.workers ∧ p'.workers.length = p.workers.length := by
  induction es' generalizing es p with
  | nil =>
    obtain rfl : p = p' := Option.some.inj hrun
    exact ⟨by simpa using h, rfl⟩
  | cons e es' ih =>
    unfold Pool.run at hrun
    rw [List.foldlM_cons] at hrun
    obtain ⟨q, hstep, hrest⟩ := Option.bind_eq_some_iff.1 hrun
    obtain ⟨hq, hlen⟩ := sound_step h hstep
    obtain ⟨hp', hlen'⟩ := ih hq hrest
    exact ⟨by simpa using hp', hlen'.trans hlen⟩

/-- A worker that has not returned awaits a promise, or can go on. -/
theorem returned_of_stuck (hsettled : p.unsettled = 0) (h : ∀ k, p.step items throws (.goOn k) = none) :
    p.Returned := by
  intro w hw
  obtain ⟨k, hk⟩ := List.mem_iff_getElem?.1 hw
  cases w with
  | returned => rfl
  | awaiting i => exact absurd rfl (List.countP_eq_zero.1 hsettled _ hw)
  | settled i o => simpa [Pool.step, hk] using h k

/-- When the workers have returned no index is left with one of them. -/
theorem Sound.all_settled {ws : List (Worker V E)} (h : Sound items throws es p ws) (hne : ws ≠ [])
    (hreturned : ∀ w ∈ ws, w = .returned) :
    p.started = items.zipIdx ∧
    ∃ outcomes : List (Outcome V E), p.results = outcomes.map some ∧ outcomes.length = items.length ∧
      ∀ i o, outcomes[i]? = some o → Owns throws es i o := by
  obtain ⟨w, hw⟩ := List.exists_mem_of_ne_nil _ hne
  have hcursor : items.length ≤ p.cursor := by
    have hfits := h.fits w hw
    rwa [hreturned w hw] at hfits
  have hheld : ∀ i, i ∉ ws.filterMap Worker.index := by
    intro i hi
    obtain ⟨w, hw, hindex⟩ := List.mem_filterMap.1 hi
    rw [hreturned w hw] at hindex
    cases hindex
  have hall : ∀ i < items.length, ∃ o, p.results[i]? = some (some o) ∧ Owns throws es i o := fun i hi =>
    h.settled i hi (by omega) (hheld i)
  refine ⟨by rw [h.started, List.take_of_length_le (by simpa using hcursor)], ?_⟩
  have hsome : ∀ r ∈ p.results, ∃ o, r = some o := by
    intro r hr
    obtain ⟨i, hi, rfl⟩ := List.mem_iff_getElem.1 hr
    obtain ⟨o, ho, -⟩ := hall i (h.length ▸ hi)
    exact ⟨o, Option.some.inj ((List.getElem?_eq_getElem hi).symm.trans ho)⟩
  have hresults : p.results = (p.results.filterMap id).map some := by
    have hmap : ∀ l : List (Option (Outcome V E)), (∀ r ∈ l, ∃ o, r = some o) →
        l = (l.filterMap id).map some := by
      intro l hl
      induction l with
      | nil => rfl
      | cons r l ih =>
        obtain ⟨o, rfl⟩ := hl r (by simp)
        simpa using ih fun r hr => hl r (List.mem_cons_of_mem _ hr)
    exact hmap _ hsome
  refine ⟨p.results.filterMap id, hresults, ?_, fun i o hio => ?_⟩
  · rw [← h.length]
    conv_rhs => rw [hresults]
    simp
  · have hi : p.results[i]? = some (some o) := by
      rw [hresults, List.getElem?_map, hio]
      rfl
    have hlt : i < items.length := h.length ▸ (List.getElem?_eq_some_iff.1 hi).1
    obtain ⟨o', ho', howns⟩ := hall i hlt
    obtain rfl : o = o' := by simpa [hi] using ho'
    exact howns

end Runs

theorem lengthOf_le {x : Extended} (h : finite 1 ≤ x) : finite (lengthOf (some x)) ≤ x ∧
    1 ≤ lengthOf (some x) := by
  rcases x with _ | _ | q
  · exact absurd (le_bot_iff.1 h) WithBot.coe_ne_bot
  · exact ⟨le_top, by decide⟩
  · have hq : (1 : ℚ) ≤ q := WithTop.coe_le_coe.1 (WithBot.coe_le_coe.1 h)
    have hfloor : 1 ≤ ⌊q⌋ := Int.le_floor.2 (by exact_mod_cast hq)
    have hle : ((min ⌊q⌋.toNat (2 ^ 53 - 1) : ℕ) : ℚ) ≤ q := by
      calc ((min ⌊q⌋.toNat (2 ^ 53 - 1) : ℕ) : ℚ) ≤ (⌊q⌋.toNat : ℚ) := by exact_mod_cast min_le_left _ _
        _ = (⌊q⌋ : ℚ) := by exact_mod_cast Int.toNat_of_nonneg (by omega)
        _ ≤ q := Int.floor_le q
    refine ⟨WithBot.coe_le_coe.2 (WithTop.coe_le_coe.2 hle), ?_⟩
    simp only [lengthOf]
    omega

/-- For every number but `NaN`, whatever `fn` throws or its promises settle with and in whatever
order, no more tasks are unsettled at a time than the pool holds, the tasks are started in order and
each once, and the call returns every item's own outcome at its place. It does return : a run has at
most two steps for each item, and one in which every started task has settled and no worker can go
on has returned. -/
theorem pool_settles_all (items : List T) (concurrency : Extended) (throws : ℕ → Option E)
    (es : List (Event V E)) (p : Pool T V E)
    (hrun : (Pool.mapAllSettledWithConcurrency items
    (some concurrency) throws).run items throws es = some p) :
    (∃ k, p.started = items.zipIdx.take k) ∧
    finite p.unsettled ≤ max (finite 1) (min concurrency (finite items.length)) ∧
    es.length ≤ 2 * items.length ∧
    (p.unsettled = 0 → (∀ k, p.step items throws (.goOn k) = none) → p.Returned) ∧
    (p.Returned → p.started = items.zipIdx ∧
      ∃ outcomes : List (Outcome V E), p.results = outcomes.map some ∧ outcomes.length = items.length ∧
        ∀ i o, outcomes[i]? = some o → Owns throws es i o) := by
  obtain ⟨hcall, hlength⟩ := sound_call (V := V) items (some concurrency) throws
  obtain ⟨h, hlen⟩ := sound_run hcall hrun
  rw [List.nil_append] at h
  obtain ⟨hle, hpos⟩ := lengthOf_le (x := max (finite 1) (min concurrency (finite items.length)))
      (le_max_left _ _)
  have hworkers : p.workers.length =
      lengthOf (some (max (finite 1) (min concurrency (finite items.length)))) :=
    hlen.trans hlength
  refine ⟨⟨_, h.started⟩, ?_, ?_, returned_of_stuck, h.all_settled (List.length_pos_iff.1 (by omega))⟩
  · refine le_trans (WithBot.coe_le_coe.2 (WithTop.coe_le_coe.2 ?_)) hle
    rw [← hworkers]
    exact_mod_cast List.countP_le_length
  · have := h.paid
    omega

/-- Three tasks and a limit of two and a half : the second throws at once, and the third settles
before the first. -/
theorem three_tasks_two_workers :
    (Pool.mapAllSettledWithConcurrency (V := ℕ) ["a", "b", "c"] (some (finite (5 / 2)))
      fun i => if i = 1 then some "no" else none).unsettled = 2 ∧
    (∃ k, [("a", 0), ("b", 1), ("c", 2)] = ["a", "b", "c"].zipIdx.take k) ∧
    Owns (fun i => if i = 1 then some "no" else none)
      [.settle 1 2 (.rejected "late"), .settle 0 0 (.fulfilled 7), .goOn 0, .goOn 1] 2
        (.rejected "late") := by
  have hpool : lengthOf (poolOf (some (finite (5 / 2))) 3) = 2 := by decide +kernel
  have hcall : Pool.mapAllSettledWithConcurrency (V := ℕ) ["a", "b", "c"] (some (finite (5 / 2)))
      (fun i => if i = 1 then some "no" else none) =
      ⟨3, [("a", 0), ("b", 1), ("c", 2)], [none, some (.rejected "no"), none],
        [.awaiting 0, .awaiting 2]⟩ := by
    simp [Pool.mapAllSettledWithConcurrency, hpool, Pool.spawn, Pool.loop]
  have hrun := pool_settles_all ["a", "b", "c"] (finite (5 / 2))
      (fun i => if i = 1 then some "no" else none)
    [.settle 1 2 (.rejected "late"), .settle 0 0 (.fulfilled 7), .goOn 0, .goOn 1]
    ⟨5, [("a", 0), ("b", 1), ("c", 2)],
      [some (.fulfilled 7), some (.rejected "no"), some (.rejected "late")],
      [.returned, .returned]⟩
    (by rw [hcall]; simp [Pool.run, Pool.step, Pool.loop])
  obtain ⟨hstarted, -, -, -, hdone⟩ := hrun
  refine ⟨by rw [hcall]; rfl, hstarted, ?_⟩
  obtain ⟨-, outcomes, heq, -, howns⟩ := hdone (by simp [Pool.Returned])
  refine howns 2 _ ?_
  have htwo := congrArg (·[2]?) heq
  simpa using htwo.symm

/-- `NaN` is no length, so nobody starts the task, and the call returns. -/
theorem nan_starts_nothing :
    (Pool.mapAllSettledWithConcurrency (V := Unit) (E := Unit) ["step"] none fun _ => none).Returned ∧
    (Pool.mapAllSettledWithConcurrency (V := Unit) (E := Unit) ["step"] none fun _ =>
      none).started = [] := by
  simp [Pool.mapAllSettledWithConcurrency, poolOf, lengthOf, Pool.Returned]

end Lynox.Concurrent
