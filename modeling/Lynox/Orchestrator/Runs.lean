import Lynox.Orchestrator.Layers
import Lynox.Orchestrator.Runner

/-!
# What holds over whole runs

`PieceSpec` says once what a piece of `executeStep` can do to the run. Outputs are only
added; a step that ends with `ok` has one. The run's end is written only together with a
halt, and either while the run was running, for the owner's stop, a lost question or an
ended author, or over a run that is not `Held` by one of the three.

Two results follow by induction over the events. In parallel mode every step that is
waiting or in flight finds the outputs it takes input from
(`inputs_there_when_a_step_runs`), because a phase is entered only when all the steps of
the phases before it ended with `ok`. And a run that was ended by one of the three causes
stays as it is : nothing writes its status or error again, and no later phase begins
(`stopped_run_stays_stopped`).
-/

namespace Lynox.Orchestrator

/-! ## Pieces of a step -/

/-- The run has the output of `id`. -/
def RunState.Has (state : RunState) (id : String) : Prop :=
  ∃ out, Assoc.get state.outputs id = some out

theorem RunState.has_put {state : RunState} {id id' : String} {out : AgentOutput} :
    (state.put id out).Has id' ↔ id' = id ∨ state.Has id' := by
  unfold RunState.Has RunState.put
  by_cases h : id' = id
  · simp [h]
  · simp [h, Assoc.get_set_of_ne h]

/-- Status, error and cause are the same. -/
def RunState.SameEnd (s s' : RunState) : Prop :=
  s'.status = s.status ∧ s'.error = s.error ∧ s'.endedBy = s.endedBy

/-- The run has ended, and what ends every further step of it is still there. -/
def RunState.Held (signals : Signals) (s : RunState) : Prop :=
  s.status ≠ .running ∧ s.status ≠ .completed ∧
    (signals.stopped = true ∨ signals.unanswered.isSome = true ∨ isAuthorStop s.error = true)

/-- The three causes that hold a run. -/
def Cause.holds (c : Cause) : Prop :=
  c = .ownerStop ∨ c = .question ∨ c = .author

/-- The end of the run after a piece : as it was, or written together with a halt. -/
inductive EndSpec (signals : Signals) (s s' : RunState) : Except Stage StepResult → Prop
  | same {r : Except Stage StepResult} (h : s.SameEnd s') : EndSpec signals s s' r
  | stopped (hrun : s.status = .running) (hheld : s'.Held signals) :
      EndSpec signals s s' (.ok .halt)
  | failed (hfree : ¬s.Held signals) (hstatus : s'.status ≠ .running)
      (hcause : s'.endedBy = some .gate ∨ s'.endedBy = some .step) :
      EndSpec signals s s' (.ok .halt)

/-- What a piece of `step` can do to the run. -/
structure PieceSpec (signals : Signals) (step : ManifestStep) (s : RunState) (piece : Piece) :
    Prop where
  grows : ∀ id, s.Has id → piece.2.Has id
  has : piece.1 = .ok .ok → piece.2.Has step.id
  ends : EndSpec signals s piece.2 piece.1

theorem PieceSpec.same {signals : Signals} {step : ManifestStep} {s : RunState}
    {r : Except Stage StepResult} (h : r ≠ .ok .ok) : PieceSpec signals step s (r, s) :=
  ⟨fun _ => id, fun hr => absurd hr h, .same ⟨rfl, rfl, rfl⟩⟩

theorem PieceSpec.put {signals : Signals} {step : ManifestStep} {s : RunState}
    {r : Except Stage StepResult} {out : AgentOutput} :
    PieceSpec signals step s (r, s.put step.id out) :=
  ⟨fun _ h => RunState.has_put.mpr (Or.inr h), fun _ => RunState.has_put.mpr (Or.inl rfl),
    .same ⟨rfl, rfl, rfl⟩⟩

theorem PieceSpec.end {signals : Signals} {step : ManifestStep} {s s' : RunState}
    (h : EndSpec signals s s' (.ok .halt)) (hout : s'.outputs = s.outputs) :
    PieceSpec signals step s (.ok .halt, s') :=
  ⟨fun id ⟨out, hget⟩ => ⟨out, by rw [hout, hget]⟩, fun hr => by simp at hr, h⟩

/-- The output a step has set stays set through what follows. -/
theorem PieceSpec.after_put {signals : Signals} {step : ManifestStep} {s : RunState}
    {piece : Piece} {out : AgentOutput} (h : PieceSpec signals step (s.put step.id out) piece) :
    PieceSpec signals step s piece := by
  refine ⟨fun id hid => h.grows id (RunState.has_put.mpr (Or.inr hid)), h.has, ?_⟩
  obtain ⟨r, s'⟩ := piece
  cases h.ends with
  | same hs => exact .same hs
  | stopped hrun hheld => exact .stopped hrun hheld
  | failed hfree hstatus hcause => exact .failed hfree hstatus hcause

/-! ## The checks -/

/-- Ending a run that is running, and leaving one that is not, as each of the checks does. -/
theorem endSpec_of_check {signals : Signals} {s : RunState} {cause : Cause} {error : String}
    (hheld : (s.finish cause .failed error).Held signals) :
    ∃ s', (if s.status ≠ .running then (true, s) else (true, s.finish cause .failed error)) =
        (true, s') ∧ s'.outputs = s.outputs ∧ EndSpec signals s s' (.ok .halt) := by
  by_cases hrun : s.status = .running
  · exact ⟨s.finish cause .failed error, by simp [hrun], rfl, .stopped hrun hheld⟩
  · exact ⟨s, by simp [hrun], rfl, .same ⟨rfl, rfl, rfl⟩⟩

theorem stoppedByOwner_spec (signals : Signals) (s : RunState) :
    (signals.stopped = false ∧ stoppedByOwner signals s = (false, s)) ∨
      ∃ s', stoppedByOwner signals s = (true, s') ∧ s'.outputs = s.outputs ∧
        EndSpec signals s s' (.ok .halt) := by
  unfold stoppedByOwner
  rcases hstop : signals.stopped with _ | _
  · exact Or.inl ⟨rfl, rfl⟩
  · refine Or.inr (endSpec_of_check ?_)
    exact ⟨by simp [RunState.finish], by simp [RunState.finish], Or.inl hstop⟩

theorem questionUnanswered_spec (signals : Signals) (s : RunState) :
    (signals.unanswered = none ∧ questionUnanswered signals s = (false, s)) ∨
      ∃ s', questionUnanswered signals s = (true, s') ∧ s'.outputs = s.outputs ∧
        EndSpec signals s s' (.ok .halt) := by
  unfold questionUnanswered
  rcases hq : signals.unanswered with _ | because
  · exact Or.inl ⟨rfl, rfl⟩
  · refine Or.inr (endSpec_of_check ?_)
    exact ⟨by simp [RunState.finish], by simp [RunState.finish], Or.inr (Or.inl (by simp [hq]))⟩

/-- A run ended for its makers' access is held by its own error. -/
theorem held_of_author (signals : Signals) (s : RunState) {error : String}
    (h : isAuthorStop (some error) = true) : (s.finish .author .failed error).Held signals :=
  ⟨by simp [RunState.finish], by simp [RunState.finish], Or.inr (Or.inr h)⟩

theorem isAuthorStop_nestedRunError (checkFailed : Bool) :
    isAuthorStop (some (nestedRunError checkFailed)) = true := by
  cases checkFailed <;> simp [isAuthorStop, nestedRunError]

theorem stopForEndedAuthor_spec (signals : Signals) (check : AuthorCheck) (s : RunState) :
    stopForEndedAuthor check s = (false, s) ∨
      ∃ s', stopForEndedAuthor check s = (true, s') ∧ s'.outputs = s.outputs ∧
        EndSpec signals s s' (.ok .halt) := by
  cases check with
  | live => exact Or.inl rfl
  | ended => exact Or.inr (endSpec_of_check (held_of_author _ _ (by simp [isAuthorStop])))
  | threw => exact Or.inr (endSpec_of_check (held_of_author _ _ (by simp [isAuthorStop])))

/-! ## The pieces -/

theorem catchStep_spec (m : Manifest) (signals : Signals) (c : CatchChoice) (step : ManifestStep)
    (err : StepError) (s : RunState) :
    PieceSpec signals step s (settled (catchStep m signals c step err s)) := by
  unfold catchStep
  rcases c.onError with _ | message
  swap
  · exact .same (by simp)
  rcases stoppedByOwner_spec signals s with ⟨hstop, h⟩ | ⟨s', h, hout, hend⟩
  swap
  · simp only [h, if_true]
    exact .end hend hout
  simp only [h, Bool.false_eq_true, if_false]
  rcases questionUnanswered_spec signals s with ⟨hq, h⟩ | ⟨s', h, hout, hend⟩
  swap
  · simp only [h, if_true]
    exact .end hend hout
  simp only [h, Bool.false_eq_true, if_false]
  -- neither flag is raised, so the run is held only by its makers' access
  have hheld : s.Held signals ↔
      s.status ≠ .running ∧ s.status ≠ .completed ∧ isAuthorStop s.error = true := by
    simp [RunState.Held, hstop, hq]
  have hfree : ∀ b : Bool, b = true →
      ¬(b && decide (s.status ≠ .running) && isAuthorStop s.error) = true → ¬s.Held signals := by
    intro b hbt hb hh
    obtain ⟨hrun, -, hauthor⟩ := hheld.mp hh
    simp [hbt, hrun, hauthor] at hb
  rcases err with ⟨id, reason⟩ | id | ⟨id, checkFailed⟩ | message
  case nestedRunEnded =>
    by_cases hrun : s.status = .running
    · simp only [if_pos hrun]
      exact .end (.stopped hrun (held_of_author _ _ (isAuthorStop_nestedRunError _))) rfl
    · simp only [if_neg hrun]
      exact .same (by simp)
  case gateRejected | gateExpired =>
    simp only [StepError.ofGate, Bool.true_or, if_true]
    split
    · exact .same (by simp)
    · rename_i hb
      refine .end (.failed (hfree true rfl hb) (by simp [RunState.finish]) ?_) rfl
      exact Or.inl rfl
  case other =>
    simp only [StepError.ofGate, Bool.false_or, Bool.false_eq_true, if_false]
    split
    · exact .same (by simp)
    · rename_i hb
      rcases hfail : m.onFailure with _ | _ | _
      · refine .end (.failed (hfree _ (by simp [hfail]) hb) (by simp [RunState.finish]) ?_) rfl
        exact Or.inr rfl
      · exact .put
      · rcases c.onStepNotify with _ | message <;> exact .put

theorem startStep_spec (m : Manifest) (o : RunOptions) (signals : Signals) (c : StartChoice)
    (cc : CatchChoice) (step : ManifestStep) (s : RunState) :
    PieceSpec signals step s (startStep m o signals c cc step s) := by
  unfold startStep
  split
  · rcases c.hook with _ | err <;> exact .put
  rcases stoppedByOwner_spec signals s with ⟨-, h⟩ | ⟨s', h, hout, hend⟩
  swap
  · simp only [h, if_true]
    exact .end hend hout
  simp only [h, Bool.false_eq_true, if_false]
  rcases questionUnanswered_spec signals s with ⟨-, h⟩ | ⟨s', h, hout, hend⟩
  swap
  · simp only [h, if_true]
    exact .end hend hout
  simp only [h, Bool.false_eq_true, if_false]
  rcases stopForEndedAuthor_spec signals c.author s with h | ⟨s', h, hout, hend⟩
  swap
  · simp only [h, if_true]
    exact .end hend hout
  simp only [h, Bool.false_eq_true, if_false]
  split
  · exact catchStep_spec ..
  split
  · rcases c.hook with _ | err
    · exact .put
    · exact (catchStep_spec ..).after_put
  · rcases c.hook with _ | err
    · exact .same (by simp)
    · exact catchStep_spec ..

theorem completeStep_spec (m : Manifest) (signals : Signals) (hook : Option StepError)
    (cc : CatchChoice) (step : ManifestStep) (result : String) (costUsd : ℚ) (s : RunState) :
    PieceSpec signals step s (completeStep m signals hook cc step result costUsd s) := by
  unfold completeStep
  rcases hook with _ | err
  · exact .put
  · exact (catchStep_spec ..).after_put

theorem resumeStep_spec (m : Manifest) (o : RunOptions) (signals : Signals) (c : ResumeChoice)
    (cc : CatchChoice) (step : ManifestStep) (stage : Stage) (s : RunState) :
    PieceSpec signals step s (resumeStep m o signals c cc step stage s) := by
  unfold resumeStep
  rcases stage with _ | ⟨result, costUsd⟩ | ⟨result, costUsd⟩
  · rcases c.spawned with err | ⟨result, costUsd⟩
    · exact catchStep_spec ..
    · simp only
      split
      · split
        · exact catchStep_spec ..
        · exact .same (by simp)
      · exact completeStep_spec ..
  · rcases c.submitted with _ | err
    · exact .same (by simp)
    · exact catchStep_spec ..
  · rcases c.decided with err | _ | reason | _
    · exact catchStep_spec ..
    · exact completeStep_spec ..
    · exact catchStep_spec ..
    · exact catchStep_spec ..

/-! ## One event -/

/-- The steps of a phase that have not settled. -/
def PhaseRun.unsettled (p : PhaseRun) : List ManifestStep :=
  p.waiting ++ p.inFlight.map Prod.fst

/-- A flag that is raised stays raised. -/
def Signals.Grow (s s' : Signals) : Prop :=
  (s.stopped = true → s'.stopped = true) ∧
    (s.unanswered.isSome = true → s'.unanswered.isSome = true)

/-- What one event can do to a run. -/
inductive StepSpec (m : Manifest) (x : Machine) : Machine → Prop
  | signals (s : Signals) (h : x.signals.Grow s) : StepSpec m x { x with signals := s }
  | closed (hopen : x.closed = false)
      (h : (x.current = none ∧ x.phases = []) ∨ ∃ p, x.current = some p ∧ p.shouldHalt = true) :
      StepSpec m x x.close
  | bounded (hopen : x.closed = false) (hcur : x.current = none) (message : String) :
      StepSpec m x { x with state := x.state.finish .bound .failed message, closed := true }
  | threw (hopen : x.closed = false) (message : String) : StepSpec m x (x.throw message)
  | entered (hopen : x.closed = false) (hcur : x.current = none) {index : Nat}
      {steps : List ManifestStep} {phases : List (Nat × List ManifestStep)}
      (hphases : x.phases = (index, steps) :: phases) :
      StepSpec m x { x with phases := phases, current := some ⟨index, steps, [], false⟩ }
  | moved (hopen : x.closed = false) {p : PhaseRun} (p' : PhaseRun) (hcur : x.current = some p)
      (hindex : p'.index = p.index) (hhalt : p'.shouldHalt = p.shouldHalt) {step : ManifestStep}
      (hsteps : ∀ st, st ∈ p.unsettled ↔ st = step ∨ st ∈ p'.unsettled)
      (started : List (Nat × String)) (hstarted : ∀ e ∈ started, e.1 = p.index) {piece : Piece}
      (hpiece : PieceSpec x.signals step x.state piece) :
      StepSpec m x (Machine.moved (getExecutionMode m)
        { x with started := x.started ++ started } p' step piece)
  | left (hopen : x.closed = false) {p : PhaseRun} (hcur : x.current = some p)
      (hempty : p.unsettled = []) (hhalt : p.shouldHalt = false) :
      StepSpec m x { x with current := none }

theorem StepSpec.idle (m : Manifest) (x : Machine) : StepSpec m x x :=
  .signals x.signals ⟨id, id⟩

theorem step_spec (m : Manifest) (o : RunOptions) (x : Machine) (e : RunEvent) :
    StepSpec m x (x.step m o e) := by
  cases e with
  | ownerStops => exact .signals _ ⟨fun _ => rfl, id⟩
  | questionLost because => exact .signals _ ⟨id, fun _ => rfl⟩
  | enterPhase exceeded hook =>
    simp only [Machine.step]
    split
    · exact .idle m x
    rename_i hopen
    rw [Bool.not_eq_true] at hopen
    split
    · rename_i hcur hphases
      exact .closed hopen (Or.inl ⟨hcur, hphases⟩)
    · rename_i index steps phases hcur hphases
      rcases exceeded with _ | message
      · simp only
        split
        · exact .threw hopen _
        · exact .entered hopen hcur hphases
      · exact .bounded hopen hcur message
    · exact .idle m x
  | handOut c cc =>
    simp only [Machine.step]
    split
    · exact .idle m x
    rename_i hopen
    rw [Bool.not_eq_true] at hopen
    split
    · exact .idle m x
    rename_i p hcur
    split
    · exact .idle m x
    rename_i step waiting hwaiting
    split
    · exact .idle m x
    · refine .moved hopen { p with waiting := waiting } hcur rfl rfl (fun st => ?_)
        [(p.index, step.id)] (by simp) (startStep_spec ..)
      simp [PhaseRun.unsettled, hwaiting]
  | resume i c cc =>
    simp only [Machine.step]
    split
    · exact .idle m x
    rename_i hopen
    rw [Bool.not_eq_true] at hopen
    split
    · exact .idle m x
    rename_i p hcur
    split
    · exact .idle m x
    rename_i step stage hget
    have hperm : List.Perm ((step, stage) :: p.inFlight.eraseIdx i) p.inFlight := by
      obtain ⟨hi, hget⟩ := List.getElem?_eq_some_iff.mp hget
      rw [← hget]
      exact List.getElem_cons_eraseIdx_perm hi
    have hspec : StepSpec m x (Machine.moved (getExecutionMode m)
        { x with started := x.started ++ [] } { p with inFlight := p.inFlight.eraseIdx i } step
        (resumeStep m o x.signals c cc step stage x.state)) := by
      refine .moved hopen { p with inFlight := p.inFlight.eraseIdx i } hcur rfl rfl
        (fun st => ?_) [] (by simp) (resumeStep_spec ..)
      have hmem := (hperm.map Prod.fst).mem_iff (a := st)
      rw [List.map_cons, List.mem_cons] at hmem
      simp only [PhaseRun.unsettled, List.mem_append, ← hmem]
      tauto
    simpa using hspec
  | closePhase hook =>
    simp only [Machine.step]
    split
    · exact .idle m x
    rename_i hopen
    rw [Bool.not_eq_true] at hopen
    split
    · exact .idle m x
    rename_i p hcur
    split
    · exact .idle m x
    rename_i hsettled
    rw [not_or, not_not, not_not] at hsettled
    split
    · exact .threw hopen _
    · split
      · rename_i hhalt
        exact .closed hopen (Or.inr ⟨p, hcur, hhalt⟩)
      · rename_i hhalt
        refine .left hopen hcur ?_ (by simpa using hhalt)
        simp [PhaseRun.unsettled, hsettled.1, hsettled.2]

/-- What a moved piece leaves of the phase : the step waits again, or has settled, with a
halt wherever it did not end with `ok`. -/
theorem moved_spec (mode : Mode) (x : Machine) (p : PhaseRun) (step : ManifestStep)
    (piece : Piece) :
    (∃ message, piece.1 = .ok (.threw message) ∧ mode = .sequential ∧
      Machine.moved mode x p step piece = Machine.throw { x with state := piece.2 } message) ∨
    ∃ p', Machine.moved mode x p step piece = { x with state := piece.2, current := some p' } ∧
      p'.index = p.index ∧ (p.shouldHalt = true ∨ piece.1 = .ok .halt → p'.shouldHalt = true) ∧
      (((∀ st, st ∈ p'.unsettled ↔ st = step ∨ st ∈ p.unsettled)) ∨
        (p'.unsettled = p.unsettled ∧ (piece.1 = .ok .ok ∨ p'.shouldHalt = true))) := by
  obtain ⟨r, s'⟩ := piece
  rcases r with stage | _ | _ | message
  · refine Or.inr ⟨{ p with inFlight := p.inFlight ++ [(step, stage)] }, rfl, rfl, ?_, Or.inl ?_⟩
    · simp
    · intro st
      simp only [PhaseRun.unsettled, List.map_append, List.map_singleton, List.mem_append,
        List.mem_singleton]
      tauto
  · exact Or.inr ⟨p, rfl, rfl, by simp, Or.inr ⟨rfl, Or.inl rfl⟩⟩
  · exact Or.inr ⟨{ p with shouldHalt := true }, rfl, rfl, by simp, Or.inr ⟨rfl, Or.inr rfl⟩⟩
  · cases mode with
    | sequential => exact Or.inl ⟨message, rfl, rfl, rfl⟩
    | parallel =>
      exact Or.inr ⟨{ p with shouldHalt := true }, rfl, rfl, by simp, Or.inr ⟨rfl, Or.inr rfl⟩⟩

/-! ## Inputs are there -/

/-- Every unsettled step finds the outputs it takes input from, and what a step of a phase to
come takes input from is there, or still to settle, or in a phase before it; unless the run
does not go on. -/
structure Machine.Fed (x : Machine) : Prop where
  now : ∀ p, x.current = some p → ∀ step ∈ p.unsettled, ∀ d ∈ step.inputs, x.state.Has d
  toCome : x.closed = true ∨ (∃ p, x.current = some p ∧ p.shouldHalt = true) ∨
    ∀ pre q post, x.phases = pre ++ q :: post → ∀ step ∈ q.2, ∀ d ∈ step.inputs,
      x.state.Has d ∨ (∃ p, x.current = some p ∧ ∃ st ∈ p.unsettled, st.id = d) ∨
        ∃ q' ∈ pre, ∃ st ∈ q'.2, st.id = d

theorem Machine.Fed.entered {x : Machine} (hx : x.Fed) (hopen : x.closed = false)
    (hcur : x.current = none) {index : Nat} {steps : List ManifestStep}
    {phases : List (Nat × List ManifestStep)} (hphases : x.phases = (index, steps) :: phases) :
    Machine.Fed { x with phases := phases, current := some ⟨index, steps, [], false⟩ } := by
  have hrest := (hx.toCome.resolve_left (by simp [hopen])).resolve_left (by simp [hcur])
  refine ⟨?_, Or.inr (Or.inr ?_)⟩
  · rintro p ⟨rfl⟩ step hstep d hd
    have hstep : step ∈ steps := by simpa [PhaseRun.unsettled] using hstep
    rcases hrest [] (index, steps) phases (by simpa using hphases) step hstep d hd with
      h | ⟨p, hp, -⟩ | ⟨q, hq, -⟩
    · exact h
    · simp [hcur] at hp
    · simp at hq
  · intro pre q post hsplit step hstep d hd
    have hsplit' : x.phases = ((index, steps) :: pre) ++ q :: post :=
      hphases.trans (congrArg _ hsplit)
    rcases hrest _ q post hsplit' step hstep d hd with
      h | ⟨p, hp, -⟩ | ⟨q', hq', st, hst, hid⟩
    · exact Or.inl h
    · simp [hcur] at hp
    · rcases List.mem_cons.mp hq' with rfl | hq'
      · exact Or.inr (Or.inl ⟨_, rfl, st, by simpa [PhaseRun.unsettled] using hst, hid⟩)
      · exact Or.inr (Or.inr ⟨q', hq', st, hst, hid⟩)

theorem Machine.Fed.step {m : Manifest} (hmode : getExecutionMode m = .parallel) {x x' : Machine}
    (hx : x.Fed) (h : StepSpec m x x') : x'.Fed := by
  cases h with
  | signals s _ => exact ⟨hx.now, hx.toCome⟩
  | closed => exact ⟨fun p hp => by simp [Machine.close] at hp, Or.inl rfl⟩
  | bounded hopen hcur message => exact ⟨fun p hp => by simp [hcur] at hp, Or.inl rfl⟩
  | threw => exact ⟨fun p hp => by simp [Machine.throw] at hp, Or.inl rfl⟩
  | entered hopen hcur hphases => exact hx.entered hopen hcur hphases
  | left hopen hcur hempty hhalt =>
    refine ⟨fun p hp => by simp at hp, Or.inr (Or.inr ?_)⟩
    have hrest := (hx.toCome.resolve_left (by simp [hopen])).resolve_left (by simp [hcur, hhalt])
    intro pre q post hsplit step hstep d hd
    rcases hrest pre q post hsplit step hstep d hd with h | ⟨p, hp, st, hst, -⟩ | h
    · exact Or.inl h
    · obtain rfl := Option.some.inj (hcur.symm.trans hp)
      simp [hempty] at hst
    · exact Or.inr (Or.inr h)
  | @moved hopen p p' hcur hindex hhalt step hsteps started hstarted piece hpiece =>
    rcases moved_spec (getExecutionMode m) { x with started := x.started ++ started } p' step
        piece with ⟨_, _, hseq, _⟩ | ⟨p'', heq, -, hstays, hleft⟩
    · simp [hmode] at hseq
    rw [heq]
    -- what is unsettled now was unsettled before
    have hsub : ∀ st ∈ p''.unsettled, st ∈ p.unsettled := by
      intro st hst
      rcases hleft with h | ⟨h, -⟩
      · exact (hsteps st).mpr ((h st).mp hst)
      · exact (hsteps st).mpr (Or.inr (h ▸ hst))
    refine ⟨?_, ?_⟩
    · rintro q ⟨rfl⟩ st hst d hd
      exact hpiece.grows d (hx.now p hcur st (hsub st hst) d hd)
    · rcases hx.toCome.resolve_left (by simp [hopen]) with ⟨q, hq, hqhalt⟩ | hrest
      · obtain rfl := Option.some.inj (hcur.symm.trans hq)
        exact Or.inr (Or.inl ⟨p'', rfl, hstays (Or.inl (hhalt.trans hqhalt))⟩)
      · by_cases hhalt'' : p''.shouldHalt = true
        · exact Or.inr (Or.inl ⟨p'', rfl, hhalt''⟩)
        refine Or.inr (Or.inr fun pre q post hsplit st hst d hd => ?_)
        rcases hrest pre q post hsplit st hst d hd with h | ⟨q', hq', u, hu, hid⟩ | h
        · exact Or.inl (hpiece.grows d h)
        · obtain rfl := Option.some.inj (hcur.symm.trans hq')
          rcases hleft with h | ⟨h, hok⟩
          · exact Or.inr (Or.inl ⟨p'', rfl, u, (h u).mpr ((hsteps u).mp hu), hid⟩)
          · rcases (hsteps u).mp hu with rfl | hu
            · exact Or.inl (hid ▸ hpiece.has (hok.resolve_right hhalt''))
            · exact Or.inr (Or.inl ⟨p'', rfl, u, h ▸ hu, hid⟩)
        · exact Or.inr (Or.inr h)

/-! ## A stopped run stays stopped -/

/-- A run whose status has left `running` goes on no further than its phase, and one that a
held cause ended is held. -/
structure Machine.Coherent (x : Machine) : Prop where
  halts : x.state.status ≠ .running →
    x.closed = true ∨ ∃ p, x.current = some p ∧ p.shouldHalt = true
  held : ∀ c, x.state.endedBy = some c → c.holds → x.state.Held x.signals

theorem RunState.Held.mono {s : RunState} {signals signals' : Signals} (h : s.Held signals)
    (hg : signals.Grow signals') : s.Held signals' :=
  ⟨h.1, h.2.1, h.2.2.imp hg.1 (Or.imp_left hg.2)⟩

theorem RunState.Held.congr {s s' : RunState} {signals : Signals} (h : s.SameEnd s')
    (hs : s.Held signals) : s'.Held signals := by
  unfold RunState.Held at hs ⊢
  rwa [h.1, h.2.1]

theorem not_holds_of {c : Cause} (h : c = .gate ∨ c = .step ∨ c = .bound ∨ c = .thrown ∨
    c = .finished) : ¬c.holds := by
  rcases h with rfl | rfl | rfl | rfl | rfl <;> simp [Cause.holds]

/-- Throwing out of a run leaves its end, or writes one that holds nothing. -/
theorem Machine.Coherent.throw {x : Machine} {message : String}
    (held : ∀ c, x.state.endedBy = some c → c.holds → x.state.Held x.signals) :
    (x.throw message).Coherent := by
  refine ⟨fun _ => Or.inl rfl, ?_⟩
  unfold Machine.throw
  by_cases hrun : x.state.status = .running
  · simp only [if_pos hrun]
    rintro c ⟨rfl⟩ hc
    exact absurd hc (not_holds_of (by simp))
  · simpa only [if_neg hrun] using held

theorem Machine.Coherent.step {m : Manifest} {x x' : Machine} (hx : x.Coherent)
    (h : StepSpec m x x') : x'.Coherent := by
  cases h with
  | signals s hg => exact ⟨hx.halts, fun c hc hh => (hx.held c hc hh).mono hg⟩
  | closed =>
    refine ⟨fun _ => Or.inl rfl, ?_⟩
    unfold Machine.close
    by_cases hrun : x.state.status = .running
    · simp only [if_pos hrun]
      rintro c ⟨rfl⟩ hc
      exact absurd hc (not_holds_of (by simp))
    · simpa only [if_neg hrun] using hx.held
  | bounded hopen hcur message =>
    refine ⟨fun _ => Or.inl rfl, ?_⟩
    rintro c ⟨rfl⟩ hc
    exact absurd hc (not_holds_of (by simp))
  | threw hopen message => exact .throw hx.held
  | entered hopen hcur hphases =>
    refine ⟨fun hrun => ?_, hx.held⟩
    rcases hx.halts hrun with h | ⟨p, hp, -⟩
    · simp [hopen] at h
    · simp [hcur] at hp
  | left hopen hcur hempty hhalt =>
    refine ⟨fun hrun => ?_, hx.held⟩
    rcases hx.halts hrun with h | ⟨p, hp, hp'⟩
    · simp [hopen] at h
    · obtain rfl := Option.some.inj (hcur.symm.trans hp)
      simp [hhalt] at hp'
  | @moved hopen p p' hcur hindex hhalt step hsteps started hstarted piece hpiece =>
    have hheld : ∀ c, piece.2.endedBy = some c → c.holds → piece.2.Held x.signals := by
      intro c hc hh
      have hends := hpiece.ends
      generalize piece.1 = r at hends
      cases hends with
      | same hsame => exact (hx.held c (hsame.2.2 ▸ hc) hh).congr hsame
      | stopped hrun hheld => exact hheld
      | failed hfree hstatus hcause =>
        rcases hcause with hcause | hcause <;>
        · obtain rfl := Option.some.inj (hcause.symm.trans hc)
          exact absurd hh (not_holds_of (by simp))
    rcases moved_spec (getExecutionMode m) { x with started := x.started ++ started } p' step
        piece with ⟨message, _, _, heq⟩ | ⟨p'', heq, -, hstays, -⟩
    · rw [heq]
      exact .throw hheld
    · rw [heq]
      refine ⟨fun hrun => Or.inr ⟨p'', rfl, hstays ?_⟩, hheld⟩
      have hends := hpiece.ends
      generalize piece.1 = r at hends ⊢
      cases hends with
      | same hsame =>
        rcases hx.halts (hsame.1 ▸ hrun) with h | ⟨q, hq, hqhalt⟩
        · simp [hopen] at h
        · obtain rfl := Option.some.inj (hcur.symm.trans hq)
          exact Or.inl (hhalt.trans hqhalt)
      | stopped => exact Or.inr rfl
      | failed => exact Or.inr rfl

/-- From `x` to `x'` the run's end is the same, and only steps of the phase under way at `x`
were run. -/
structure Machine.Stays (x x' : Machine) : Prop where
  status : x'.state.status = x.state.status
  error : x'.state.error = x.state.error
  phase : ∀ p', x'.current = some p' → ∃ p, x.current = some p ∧ p.index = p'.index
  started : ∃ new, x'.started = x.started ++ new ∧
    ∀ e ∈ new, ∃ p, x.current = some p ∧ e.1 = p.index

theorem Machine.Stays.refl (x : Machine) : x.Stays x :=
  ⟨rfl, rfl, fun p hp => ⟨p, hp, rfl⟩, [], by simp⟩

theorem Machine.Stays.trans {x y z : Machine} (h : x.Stays y) (h' : y.Stays z) : x.Stays z := by
  obtain ⟨new, hnew, hall⟩ := h.started
  obtain ⟨new', hnew', hall'⟩ := h'.started
  refine ⟨h'.status.trans h.status, h'.error.trans h.error, fun p hp => ?_, new ++ new', ?_, ?_⟩
  · obtain ⟨q, hq, hi⟩ := h'.phase p hp
    obtain ⟨r, hr, hi'⟩ := h.phase q hq
    exact ⟨r, hr, hi'.trans hi⟩
  · rw [hnew', hnew, List.append_assoc]
  · intro e he
    rcases List.mem_append.mp he with he | he
    · exact hall e he
    · obtain ⟨q, hq, hi⟩ := hall' e he
      obtain ⟨r, hr, hi'⟩ := h.phase q hq
      exact ⟨r, hr, hi.trans hi'.symm⟩

/-- A held run keeps its end through an event. -/
theorem Machine.Coherent.stays {m : Manifest} {x x' : Machine} (hx : x.Coherent)
    (hheld : x.state.Held x.signals) (h : StepSpec m x x') :
    x.Stays x' ∧ x'.state.Held x'.signals := by
  have hgoes := hx.halts hheld.1
  cases h with
  | signals s hg => exact ⟨⟨rfl, rfl, fun p hp => ⟨p, hp, rfl⟩, [], by simp⟩, hheld.mono hg⟩
  | closed =>
    unfold Machine.close
    simp only [if_neg hheld.1]
    exact ⟨⟨rfl, rfl, fun p hp => by simp at hp, [], by simp⟩, hheld⟩
  | threw hopen message =>
    unfold Machine.throw
    simp only [if_neg hheld.1]
    exact ⟨⟨rfl, rfl, fun p hp => by simp at hp, [], by simp⟩, hheld⟩
  | bounded hopen hcur message => simp [hopen, hcur] at hgoes
  | entered hopen hcur hphases => simp [hopen, hcur] at hgoes
  | left hopen hcur hempty hhalt => simp [hopen, hcur, hhalt] at hgoes
  | @moved hopen p p' hcur hindex hhalt step hsteps started hstarted piece hpiece =>
    have hsame : x.state.SameEnd piece.2 := by
      have hends := hpiece.ends
      generalize piece.1 = r at hends
      cases hends with
      | same hsame => exact hsame
      | stopped hrun _ => exact absurd hrun hheld.1
      | failed hfree _ _ => exact absurd hheld hfree
    have hrun : piece.2.status ≠ .running := fun h => hheld.1 (hsame.1 ▸ h)
    have hnew : ∀ e ∈ started, ∃ q, x.current = some q ∧ e.1 = q.index :=
      fun e he => ⟨p, hcur, hstarted e he⟩
    rcases moved_spec (getExecutionMode m) { x with started := x.started ++ started } p' step
        piece with ⟨message, _, _, heq⟩ | ⟨p'', heq, hindex', -, -⟩
    · rw [heq]
      unfold Machine.throw
      simp only [if_neg hrun]
      exact ⟨⟨hsame.1, hsame.2.1, fun p hp => by simp at hp, started, rfl, hnew⟩,
        hheld.congr hsame⟩
    · rw [heq]
      refine ⟨⟨hsame.1, hsame.2.1, ?_, started, rfl, hnew⟩, hheld.congr hsame⟩
      rintro q ⟨rfl⟩
      exact ⟨p, hcur, (hindex'.trans hindex).symm⟩

/-! ## Whole runs -/

/-- The run of `m` after the events. -/
def Machine.afterEvents (m : Manifest) (o : RunOptions) (events : List RunEvent) : Machine :=
  Run.after (Machine.step m o) (runManifest m o) events

/-- In a plan of phases, what a step takes input from is in a phase before it. -/
theorem plan_ordered {m : Manifest} {phases : List (Nat × List ManifestStep)}
    (hmode : getExecutionMode m = .parallel) (hvalid : validateGraph m.agents = .ok ())
    (h : plan m = .ok phases) :
    ∀ pre q post, phases = pre ++ q :: post → ∀ step ∈ q.2, ∀ d ∈ step.inputs,
      ∃ q' ∈ pre, ∃ st ∈ q'.2, st.id = d := by
  have hv := validated_of_validateGraph hvalid
  simp only [plan, hmode] at h
  rcases ha : computePhases (some m.agents) with e | a
  · simp [ha, Except.map] at h
  rw [ha] at h
  obtain rfl := Except.ok.inj h
  obtain ⟨hlayered, hids⟩ := inputs_in_earlier_phase hvalid ha
  have hbyId : ∀ step ∈ m.agents, Assoc.get (m.agents.foldl (fun byId step =>
      Assoc.set byId step.id step) []) step.id = some step :=
    fun step hstep => Assoc.get_foldl_set (·.id) id hv.nodup hstep
  intro pre q post hsplit step hstep d hd
  obtain ⟨pre', rest, hphases, rfl, hrest⟩ := List.map_eq_append_iff.mp hsplit
  obtain ⟨p, post', rfl, rfl, rfl⟩ := List.map_eq_cons_iff.mp hrest
  obtain ⟨id, hid, hget⟩ := List.mem_filterMap.mp hstep
  obtain ⟨step', hstep', rfl⟩ := List.mem_map.mp (hids p (by simp [hphases]) id hid)
  obtain rfl := Option.some.inj ((hbyId step' hstep').symm.trans hget)
  obtain ⟨p', hp', hd'⟩ := hlayered pre' p post' hphases step' hstep' hid d hd
  obtain ⟨dep, hdep, rfl⟩ := List.mem_map.mp (hids p' (by simp [hphases, hp']) d hd')
  exact ⟨_, List.mem_map_of_mem hp', dep, List.mem_filterMap.mpr ⟨_, hd', hbyId dep hdep⟩, rfl⟩

theorem fed_runManifest {m : Manifest} (o : RunOptions) (hmode : getExecutionMode m = .parallel)
    (hvalid : validateGraph m.agents = .ok ()) : (runManifest m o).Fed := by
  unfold runManifest
  split
  · exact ⟨fun p hp => by simp [Machine.throw] at hp, Or.inl rfl⟩
  · rename_i phases hplan
    refine ⟨fun p hp => by simp at hp, Or.inr (Or.inr ?_)⟩
    intro pre q post hsplit step hstep d hd
    exact Or.inr (Or.inr (plan_ordered hmode hvalid hplan pre q post hsplit step hstep d hd))

theorem coherent_runManifest (m : Manifest) (o : RunOptions) : (runManifest m o).Coherent := by
  unfold runManifest
  split
  · exact .throw (by simp)
  · exact ⟨by simp, by simp⟩

/-- With the outputs a step takes input from, its context is built. -/
theorem buildStepContext_ok (limit : Nat) (step : ManifestStep)
    {outputs : List (String × AgentOutput)} :
    ∀ {ids : List String} (ctx : List (String × String × ℚ)),
      (∀ id ∈ ids, ∃ out, Assoc.get outputs id = some out) →
        ∃ ctx', buildStepContext limit step outputs ids ctx = .ok ctx'
  | [], ctx, _ => ⟨ctx, rfl⟩
  | id :: ids, ctx, h => by
    obtain ⟨out, hout⟩ := h id List.mem_cons_self
    simp only [buildStepContext, hout]
    exact buildStepContext_ok limit step _ fun id hid => h id (List.mem_cons_of_mem _ hid)

/-- In parallel mode, whichever step of an accepted manifest runs next, handed out or in
flight, finds an output for every id it takes input from, so its context is built. -/
theorem inputs_there_when_a_step_runs (m : Manifest) (o : RunOptions)
    (hmode : getExecutionMode m = .parallel) (hvalid : validateGraph m.agents = .ok ())
    (events : List RunEvent) (p : PhaseRun)
    (hcur : (Machine.afterEvents m o events).current = some p) (step : ManifestStep)
    (hstep : step ∈ p.waiting ∨ ∃ stage, (step, stage) ∈ p.inFlight) :
    (∀ id ∈ step.inputs,
      ∃ out, Assoc.get (Machine.afterEvents m o events).state.outputs id = some out) ∧
      ∃ ctx, buildStepContext o.contextLimit step
        (Machine.afterEvents m o events).state.outputs step.inputs [] = .ok ctx := by
  have hfed : (Machine.afterEvents m o events).Fed :=
    Run.invariant (fun x e hx => hx.step hmode (step_spec m o x e)) (fed_runManifest o hmode hvalid)
  have hmem : step ∈ p.unsettled := by
    rcases hstep with h | ⟨stage, h⟩
    · exact List.mem_append_left _ h
    · exact List.mem_append_right _ (List.mem_map_of_mem (f := Prod.fst) h)
  have hall := hfed.now p hcur step hmem
  exact ⟨hall, buildStepContext_ok o.contextLimit step [] hall⟩

/-- The diamond as a manifest, with a gate after `right`. -/
def diamondManifest : Manifest :=
  ⟨"diamond", false, none, diamond, ["right"], .stop⟩

/-- A gate, no cache and no cap. -/
def gatedOptions : RunOptions :=
  ⟨none, true, none, 16000⟩

/-- A step starts, and its runtime answers. -/
def handedOut : RunEvent := .handOut ⟨.live, true, none⟩ ⟨none, none⟩

def answered (i : Nat) (answer : Except StepError (String × ℚ)) : RunEvent :=
  .resume i ⟨answer, none, .ok .approved, none⟩ ⟨none, none⟩

/-- The first phase of the diamond runs, and the second begins. -/
def secondPhase : List RunEvent :=
  [.enterPhase none none, handedOut, answered 0 (.ok ("rows", 0)), .closePhase none,
    .enterPhase none none]

theorem left_finds_fetch :
    ∃ out, Assoc.get (Machine.afterEvents diamondManifest gatedOptions secondPhase).state.outputs
      "fetch" = some out := by
  have hcur : (Machine.afterEvents diamondManifest gatedOptions secondPhase).current =
      some ⟨1, [⟨"left", "writer", .mock, some ["fetch"]⟩, ⟨"right", "writer", .mock, some ["fetch"]⟩],
        [], false⟩ := by decide +kernel
  exact (inputs_there_when_a_step_runs diamondManifest gatedOptions rfl (by decide +kernel)
    secondPhase _ hcur ⟨"left", "writer", .mock, some ["fetch"]⟩ (Or.inl (by simp))).1 "fetch"
    (by decide)

/-- Once the owner's stop, a lost question or an ended author has taken a run's status out of
`running`, whatever follows leaves status and error as they are, the run does not end as
completed, and `executeStep` is called on steps of the phase under way only. -/
theorem stopped_run_stays_stopped (m : Manifest) (o : RunOptions) (events later : List RunEvent)
    (c : Cause) (hc : c = .ownerStop ∨ c = .question ∨ c = .author)
    (hended : (Machine.afterEvents m o events).state.endedBy = some c) :
    (Machine.afterEvents m o (events ++ later)).state.status =
        (Machine.afterEvents m o events).state.status ∧
      (Machine.afterEvents m o (events ++ later)).state.error =
        (Machine.afterEvents m o events).state.error ∧
      (Machine.afterEvents m o (events ++ later)).state.status ≠ .completed ∧
      ∃ new, (Machine.afterEvents m o (events ++ later)).started =
          (Machine.afterEvents m o events).started ++ new ∧
        ∀ e ∈ new, ∃ p, (Machine.afterEvents m o events).current = some p ∧ e.1 = p.index := by
  have hcoh : (Machine.afterEvents m o events).Coherent :=
    Run.invariant (fun x e hx => hx.step (step_spec m o x e)) (coherent_runManifest m o)
  have hheld := hcoh.held c hended hc
  have hstays : (Machine.afterEvents m o events).Stays (Machine.afterEvents m o (events ++ later)) := by
    rw [Machine.afterEvents, Machine.afterEvents, Run.after_append]
    refine Run.relates (I := fun x => x.Coherent ∧ x.state.Held x.signals) Machine.Stays.refl
      (fun _ _ _ => Machine.Stays.trans) (fun x e hx => ?_) ⟨hcoh, hheld⟩
    obtain ⟨hs, hh⟩ := hx.1.stays hx.2 (step_spec m o x e)
    exact ⟨⟨hx.1.step (step_spec m o x e), hh⟩, hs⟩
  exact ⟨hstays.status, hstays.error, hstays.status ▸ hheld.2.1, hstays.started⟩

/-- Both steps of the second phase are in flight when the owner stops the run and one of them
fails. -/
def stoppedInFlight : List RunEvent :=
  secondPhase ++ [handedOut, handedOut, .ownerStops, answered 0 (.error (.other "aborted"))]

/-- The gate then rejects the other. -/
def lateRejection : List RunEvent :=
  [answered 0 (.ok ("draft", 0)), answered 0 (.ok ("draft", 0)),
    .resume 0 ⟨.ok ("", 0), none, .ok (.rejected none), none⟩ ⟨none, none⟩, .closePhase none]

theorem late_rejection_changes_nothing :
    (Machine.afterEvents diamondManifest gatedOptions stoppedInFlight).state.endedBy =
        some .ownerStop ∧
      (Machine.afterEvents diamondManifest gatedOptions (stoppedInFlight ++ lateRejection)).state.error =
        some workflowStoppedError := by
  have hended : (Machine.afterEvents diamondManifest gatedOptions stoppedInFlight).state.endedBy =
      some .ownerStop := by decide +kernel
  have herror : (Machine.afterEvents diamondManifest gatedOptions stoppedInFlight).state.error =
      some workflowStoppedError := by decide +kernel
  obtain ⟨-, hsame, -⟩ := stopped_run_stays_stopped diamondManifest gatedOptions stoppedInFlight
    lateRejection .ownerStop (Or.inl rfl) hended
  exact ⟨hended, hsame.trans herror⟩

end Lynox.Orchestrator
