import Lynox.Orchestrator.Graph
import Lynox.Process.Run
import Mathlib.Data.Rat.Defs

/-!
# The workflow runner

A run goes through its steps phase by phase : in sequential mode each step is a phase of
its own, in parallel mode the phases are those of `computePhases`. The steps of a phase are
handed out in order, up to a cap at a time, and then settle in any order. `executeStep` is
cut where the source awaits : `startStep` runs up to the runtime, `resumeStep` goes on with
what the runtime, the gate's submission or its decision answered, and `catchStep` is the
catch block of both. Between two of these pieces any other step of the phase may move.

What the surroundings decide comes with each event : whether the conditions hold, what the
read of the makers' access says, what a runtime answers or throws, how a gate decides, and
which hook throws. The owner's stop and an unanswered question are flags that are raised
once and stay.
-/

namespace Lynox.Orchestrator

/-! ## What ends a run -/

def workflowStoppedError : String := "Workflow stopped by its owner."

/-- Why an answer a run asked for is missing. -/
inductive UnansweredBecause
  | ttl | notAsked | threadDeleted
  deriving DecidableEq, Repr

def UnansweredBecause.error : UnansweredBecause → String
  | .ttl =>
    "Question not answered: the workflow waited for an answer until the question expired."
  | .notAsked => "Question not asked: the workflow could not put its question to its owner, " ++
    "so it stopped before acting without an answer."
  | .threadDeleted => "Question withdrawn: the conversation it was asked in was deleted, " ++
    "so the workflow stopped before acting without an answer."

def workflowEndedMidRunError : String :=
  "The access of someone who set up or changed this workflow ended while it ran, " ++
  "so it stopped before its next step. Starting it again will not work. " ++
  "To finish the remaining steps, ask lynox in a chat to do them or to write a new workflow for them."

def workflowEndCheckFailedError : String :=
  "Could not check whether the access of everyone who set up or changed this workflow is still " ++
  "active, so it stopped before its next step. No one's access is known to have ended. " ++
  "You can start it again, but the steps that already ran will run again, so first check that " ++
  "this does no harm."

/-- Whether an error is one of the two that stop a run for its makers' access. -/
def isAuthorStop (error : Option String) : Bool :=
  error = some workflowEndedMidRunError || error = some workflowEndCheckFailedError

/-- What a step throws. -/
inductive StepError
  | gateRejected (stepId : String) (reason : Option String)
  | gateExpired (stepId : String)
  /-- A sub-run stopped for its makers' access, or because that read failed. -/
  | nestedRunEnded (stepId : String) (checkFailed : Bool)
  | other (message : String)
  deriving DecidableEq, Repr

/-- The cause a sub-run hands to the run that holds it. -/
def nestedRunError (checkFailed : Bool) : String :=
  if checkFailed then workflowEndCheckFailedError else workflowEndedMidRunError

def StepError.message : StepError → String
  | .gateRejected stepId reason => "Gate rejected step \"" ++ stepId ++ "\"" ++
    match reason with
    | none | some "" => ""
    | some reason => ": " ++ reason
  | .gateExpired stepId => "Gate timed out for step \"" ++ stepId ++ "\""
  | .nestedRunEnded stepId checkFailed =>
    "Nested pipeline \"" ++ stepId ++ "\" failed: " ++ nestedRunError checkFailed
  | .other message => message

/-- Whether the gate refused or timed out. -/
def StepError.ofGate : StepError → Bool
  | .gateRejected _ _ | .gateExpired _ => true
  | _ => false

/-! ## Manifests and runs -/

inductive OnFailure
  | stop | continue | notify
  deriving DecidableEq, Repr

inductive Mode
  | sequential | parallel
  deriving DecidableEq, Repr

structure Manifest where
  name : String
  /-- `manifest_version` is 1.0. -/
  versionOne : Bool
  execution : Option Mode
  agents : List ManifestStep
  gatePoints : List String
  onFailure : OnFailure

def getExecutionMode (m : Manifest) : Mode :=
  if m.versionOne then .sequential else m.execution.getD .parallel

structure AgentOutput where
  stepId : String
  result : String
  costUsd : ℚ
  skipped : Bool
  skipReason : Option String
  error : Option String
  deriving DecidableEq

inductive Status
  | running | completed | failed | rejected
  deriving DecidableEq, Repr

/-- What made a run's status leave `running`. -/
inductive Cause
  | ownerStop | question | author | gate | step | bound | thrown | finished
  deriving DecidableEq, Repr

structure RunState where
  status : Status
  error : Option String
  outputs : List (String × AgentOutput)
  /-- The write that took the status out of `running`, or over it. -/
  endedBy : Option Cause
  deriving DecidableEq

def RunState.finish (state : RunState) (cause : Cause) (status : Status) (error : String) :
    RunState :=
  { state with status := status, error := some error, endedBy := some cause }

def RunState.put (state : RunState) (id : String) (output : AgentOutput) : RunState :=
  { state with outputs := Assoc.set state.outputs id output }

structure RunOptions where
  cachedOutputs : Option (List (String × AgentOutput))
  /-- The run has a gate adapter. -/
  gateAdapter : Bool
  /-- How many steps may be in flight at once, any number where there is no cap. -/
  parallelStepCap : Option Nat
  contextLimit : Nat

/-! ## The checks before a step -/

/-- The flags a run reads. -/
structure Signals where
  stopped : Bool
  unanswered : Option UnansweredBecause
  deriving DecidableEq

/-- What reading the makers' access of the saved workflow says. -/
inductive AuthorCheck
  | live | ended | threw
  deriving DecidableEq, Repr

def stoppedByOwner (signals : Signals) (state : RunState) : Bool × RunState :=
  if !signals.stopped then (false, state)
  else if state.status ≠ .running then (true, state)
  else (true, state.finish .ownerStop .failed workflowStoppedError)

def questionUnanswered (signals : Signals) (state : RunState) : Bool × RunState :=
  match signals.unanswered with
  | none => (false, state)
  | some because =>
    if state.status ≠ .running then (true, state)
    else (true, state.finish .question .failed because.error)

def stopForEndedAuthor (check : AuthorCheck) (state : RunState) : Bool × RunState :=
  let error := match check with
    | .live => none
    | .ended => some workflowEndedMidRunError
    | .threw => some workflowEndCheckFailedError
  match error with
  | none => (false, state)
  | some error =>
    if state.status ≠ .running then (true, state)
    else (true, state.finish .author .failed error)

/-! ## The context of a step -/

/-- What a step reads of an output, cut at the limit. -/
def clipResult (limit : Nat) (fromId result : String) : String :=
  if (codeUnits result).length > limit then
    String.ofList (result.toList.take limit) ++ "\n...[truncated — step \"" ++ fromId ++
      "\" produced " ++ toString (codeUnits result).length ++ " chars, showing first " ++
      toString limit ++ ". Set \"pipeline_context_limit\" in config to increase.]"
  else result

/-- The outputs a step takes input from, without the skipped ones. -/
def buildStepContext (limit : Nat) (step : ManifestStep) (outputs : List (String × AgentOutput)) :
    List String → List (String × String × ℚ) → Except String (List (String × String × ℚ))
  | [], ctx => .ok ctx
  | fromId :: rest, ctx =>
    match Assoc.get outputs fromId with
    | none => .error ("Step \"" ++ step.id ++ "\" input_from \"" ++ fromId ++ "\" has not run yet")
    | some out =>
      buildStepContext limit step outputs rest
        (if out.skipped then ctx
         else Assoc.set ctx fromId (clipResult limit fromId out.result, out.costUsd))

/-! ## One step -/

/-- How `executeStep` ends : its two results, or a hook's error out of it. -/
inductive StepResult
  | ok | halt
  | threw (message : String)
  deriving DecidableEq, Repr

/-- What the gate decides. -/
inductive GateDecision
  | approved
  | rejected (reason : Option String)
  | timeout
  deriving DecidableEq, Repr

/-- Where an unsettled step waits. -/
inductive Stage
  | spawning
  | submitting (result : String) (costUsd : ℚ)
  | deciding (result : String) (costUsd : ℚ)
  deriving DecidableEq

/-- What the surroundings decide while a step starts. -/
structure StartChoice where
  author : AuthorCheck
  conditions : Bool
  /-- What the hook called on this path throws. -/
  hook : Option StepError
  deriving DecidableEq

/-- What the surroundings decide when an awaited answer arrives. -/
structure ResumeChoice where
  /-- The runtime's result and its cost, or what it threw. -/
  spawned : Except StepError (String × ℚ)
  /-- What submitting to the gate threw. -/
  submitted : Option StepError
  decided : Except StepError GateDecision
  /-- What the hook after completion throws. -/
  completeHook : Option StepError

/-- The hooks of the catch block that throw. -/
structure CatchChoice where
  onError : Option String
  onStepNotify : Option String

def failedOutput (step : ManifestStep) (message : String) : AgentOutput :=
  ⟨step.id, "", 0, false, none, some message⟩

def makeSkipped (stepId reason : String) : AgentOutput :=
  ⟨stepId, "", 0, true, some reason, none⟩

/-- The catch block. -/
def catchStep (m : Manifest) (signals : Signals) (c : CatchChoice) (step : ManifestStep)
    (err : StepError) (state : RunState) : StepResult × RunState :=
  match c.onError with
  | some message => (.threw message, state)
  | none =>
  let (stopped, state) := stoppedByOwner signals state
  if stopped then (.halt, state) else
  let (unanswered, state) := questionUnanswered signals state
  if unanswered then (.halt, state) else
  match err with
  | .nestedRunEnded _ checkFailed =>
    if state.status = .running then
      (.halt, state.finish .author .failed (nestedRunError checkFailed))
    else (.halt, state)
  | err =>
    let overwritesCause := err.ofGate || m.onFailure = .stop
    if overwritesCause && state.status ≠ .running && isAuthorStop state.error then (.halt, state)
    else if err.ofGate then (.halt, state.finish .gate .rejected err.message)
    else match m.onFailure with
      | .stop => (.halt, state.finish .step .failed err.message)
      | .continue => (.ok, state.put step.id (failedOutput step err.message))
      | .notify =>
        match c.onStepNotify with
        | some message => (.threw message, state.put step.id (failedOutput step err.message))
        | none => (.ok, state.put step.id (failedOutput step err.message))

/-- How a piece of a step ends : settled, or waiting at a stage. -/
abbrev Piece := Except Stage StepResult × RunState

def settled (r : StepResult × RunState) : Piece :=
  (.ok r.1, r.2)

/-- From the top to the runtime. -/
def startStep (m : Manifest) (o : RunOptions) (signals : Signals) (c : StartChoice)
    (cc : CatchChoice) (step : ManifestStep) (state : RunState) : Piece :=
  match o.cachedOutputs.bind (Assoc.get · step.id) with
  | some cached =>
    -- the hook of a cached step is called outside the try block
    match c.hook with
    | some err => (.ok (.threw err.message), state.put step.id cached)
    | none => (.ok .ok, state.put step.id cached)
  | none =>
  let (stopped, state) := stoppedByOwner signals state
  if stopped then (.ok .halt, state) else
  let (unanswered, state) := questionUnanswered signals state
  if unanswered then (.ok .halt, state) else
  let (ended, state) := stopForEndedAuthor c.author state
  if ended then (.ok .halt, state) else
  match buildStepContext o.contextLimit step state.outputs step.inputs [] with
  | .error message => settled (catchStep m signals cc step (.other message) state)
  | .ok _ =>
    if !c.conditions then
      let state := state.put step.id (makeSkipped step.id "conditions not met")
      match c.hook with
      | some err => settled (catchStep m signals cc step err state)
      | none => (.ok .ok, state)
    else match c.hook with
      | some err => settled (catchStep m signals cc step err state)
      | none => (.error .spawning, state)

/-- A step that is through : its output is set, and its hook called. -/
def completeStep (m : Manifest) (signals : Signals) (hook : Option StepError) (cc : CatchChoice)
    (step : ManifestStep) (result : String) (costUsd : ℚ) (state : RunState) : Piece :=
  let state := state.put step.id ⟨step.id, result, costUsd, false, none, none⟩
  match hook with
  | some err => settled (catchStep m signals cc step err state)
  | none => (.ok .ok, state)

/-- From an awaited answer to the next await, or to the end. -/
def resumeStep (m : Manifest) (o : RunOptions) (signals : Signals) (c : ResumeChoice)
    (cc : CatchChoice) (step : ManifestStep) (stage : Stage) (state : RunState) : Piece :=
  match stage with
  | .spawning =>
    match c.spawned with
    | .error err => settled (catchStep m signals cc step err state)
    | .ok (result, costUsd) =>
      if step.id ∈ m.gatePoints && o.gateAdapter then
        match buildStepContext o.contextLimit step state.outputs step.inputs [] with
        | .error message => settled (catchStep m signals cc step (.other message) state)
        | .ok _ => (.error (.submitting result costUsd), state)
      else completeStep m signals c.completeHook cc step result costUsd state
  | .submitting result costUsd =>
    match c.submitted with
    | some err => settled (catchStep m signals cc step err state)
    | none => (.error (.deciding result costUsd), state)
  | .deciding result costUsd =>
    match c.decided with
    | .error err => settled (catchStep m signals cc step err state)
    | .ok (.rejected reason) =>
      settled (catchStep m signals cc step (.gateRejected step.id reason) state)
    | .ok .timeout => settled (catchStep m signals cc step (.gateExpired step.id) state)
    | .ok .approved => completeStep m signals c.completeHook cc step result costUsd state

/-! ## The run -/

/-- A phase under way. -/
structure PhaseRun where
  index : Nat
  waiting : List ManifestStep
  inFlight : List (ManifestStep × Stage)
  /-- A step of the phase ended with a halt, or threw. -/
  shouldHalt : Bool
  deriving DecidableEq

/-- A run of a manifest. -/
structure Machine where
  state : RunState
  signals : Signals
  /-- The phases still to come. -/
  phases : List (Nat × List ManifestStep)
  current : Option PhaseRun
  /-- `runManifest` has returned or thrown. -/
  closed : Bool
  /-- The steps `executeStep` was called on, with their phase. -/
  started : List (Nat × String)
  deriving DecidableEq

/-- `runManifest` catches an error. -/
def Machine.throw (x : Machine) (message : String) : Machine :=
  { x with
    state := if x.state.status = .running then
        x.state.finish .thrown .failed (x.state.error.getD message)
      else x.state
    current := none
    closed := true }

/-- The loop over the phases is through. -/
def Machine.close (x : Machine) : Machine :=
  { x with
    state := if x.state.status = .running then
        { x.state with status := .completed, endedBy := some .finished }
      else x.state
    current := none
    closed := true }

/-- What a settled step leaves : in sequential mode an error ends the run at once. -/
def Machine.settle (mode : Mode) (x : Machine) (p : PhaseRun) : StepResult → Machine
  | .ok => { x with current := some p }
  | .halt => { x with current := some { p with shouldHalt := true } }
  | .threw message =>
    match mode with
    | .parallel => { x with current := some { p with shouldHalt := true } }
    | .sequential => x.throw message

/-- What happens next. -/
inductive RunEvent
  | ownerStops
  | questionLost (because : UnansweredBecause)
  /-- The next phase begins, unless a bound is exceeded or the hook throws. -/
  | enterPhase (exceeded : Option String) (hook : Option String)
  /-- The next step of the phase is handed out. -/
  | handOut (c : StartChoice) (cc : CatchChoice)
  /-- What the `i`-th step in flight waits for arrives. -/
  | resume (i : Nat) (c : ResumeChoice) (cc : CatchChoice)
  /-- Every step of the phase has settled. -/
  | closePhase (hook : Option String)

/-- A piece of a step that left the phase is put back : settled, or in flight again. -/
def Machine.moved (mode : Mode) (x : Machine) (p : PhaseRun) (step : ManifestStep)
    (piece : Piece) : Machine :=
  match piece.1 with
  | .error stage =>
    { x with state := piece.2, current := some { p with inFlight := p.inFlight ++ [(step, stage)] } }
  | .ok result => Machine.settle mode { x with state := piece.2 } p result

def Machine.step (m : Manifest) (o : RunOptions) (x : Machine) : RunEvent → Machine
  | .ownerStops => { x with signals := { x.signals with stopped := true } }
  | .questionLost because =>
    { x with signals := { x.signals with unanswered := some because } }
  | .enterPhase exceeded hook =>
    if x.closed then x else
    match x.current, x.phases with
    | none, [] => x.close
    | none, (index, steps) :: phases =>
      match exceeded with
      | some message =>
        { x with state := x.state.finish .bound .failed message, closed := true }
      | none =>
        match getExecutionMode m, hook with
        | .parallel, some message => x.throw message
        | _, _ => { x with phases := phases, current := some ⟨index, steps, [], false⟩ }
    | some _, _ => x
  | .handOut c cc =>
    if x.closed then x else
    match x.current with
    | none => x
    | some p =>
      match p.waiting with
      | [] => x
      | step :: waiting =>
        if o.parallelStepCap.any (· ≤ p.inFlight.length) then x
        else
          Machine.moved (getExecutionMode m)
            { x with started := x.started ++ [(p.index, step.id)] }
            { p with waiting := waiting } step (startStep m o x.signals c cc step x.state)
  | .resume i c cc =>
    if x.closed then x else
    match x.current with
    | none => x
    | some p =>
      match p.inFlight[i]? with
      | none => x
      | some (step, stage) =>
        Machine.moved (getExecutionMode m) x { p with inFlight := p.inFlight.eraseIdx i } step
          (resumeStep m o x.signals c cc step stage x.state)
  | .closePhase hook =>
    if x.closed then x else
    match x.current with
    | none => x
    | some p =>
      if p.waiting ≠ [] ∨ p.inFlight ≠ [] then x
      else match getExecutionMode m, hook with
        | .parallel, some message => x.throw message
        | _, _ => if p.shouldHalt then x.close else { x with current := none }

/-- The phases a run goes through. -/
def plan (m : Manifest) : Except GraphError (List (Nat × List ManifestStep)) :=
  match getExecutionMode m with
  | .sequential => .ok (m.agents.mapIdx fun i step => (i, [step]))
  | .parallel =>
    (computePhases (some m.agents)).map fun a =>
      let stepsById := m.agents.foldl (fun byId step => Assoc.set byId step.id step) []
      a.phases.map fun phase => (phase.phaseIndex, phase.stepIds.filterMap (Assoc.get stepsById))

/-- `runManifest`, up to its first phase. -/
def runManifest (m : Manifest) (o : RunOptions) : Machine :=
  let outputs := (o.cachedOutputs.getD []).foldl (fun outputs e => Assoc.set outputs e.1 e.2) []
  let start : Machine := ⟨⟨.running, none, outputs, none⟩, ⟨false, none⟩, [], none, false, []⟩
  match plan m with
  | .error e => start.throw e.message
  | .ok phases => { start with phases := phases }

end Lynox.Orchestrator
