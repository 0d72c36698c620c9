import Lynox.Data.Assoc
import Mathlib.Data.Char
import Mathlib.Data.List.Sort
import Mathlib.Data.List.Lex

/-!
# The step graph of a workflow

Steps name the steps they take input from. `validateGraph` refuses repeated ids, self
references, references to no step and cycles; the cycles are searched for by `detectCycle`,
a depth-first search with three colours and its own stack over the sets of dependencies.
`computePhases` layers the steps by peeling off, again and again, the steps whose in-degree
has come down to 0. A run in parallel starts one phase after the other.

Both loops are written as the source has them. The search ends because each turn either
colours a white node, which pays for the nodes it pushes, or pops one (`Search.size`); the
layering ends because each turn takes at least one step out of what remains.
-/

namespace Lynox.Orchestrator

/-- How a step is run. -/
inductive Runtime
  | agent | mock | inline | pipeline
  deriving DecidableEq, Repr

/-- A step of a manifest. -/
structure ManifestStep where
  id : String
  agent : String
  runtime : Runtime
  inputFrom : Option (List String)
  deriving DecidableEq, Repr

/-- The ids a step takes input from, as written. -/
def ManifestStep.inputs (step : ManifestStep) : List String :=
  step.inputFrom.getD []

structure ExecutionPhase where
  phaseIndex : Nat
  stepIds : List String
  deriving DecidableEq, Repr

structure GraphAnalysis where
  phases : List ExecutionPhase
  stepOrder : List String
  deriving DecidableEq, Repr

/-- What the graph functions throw. -/
inductive GraphError
  | duplicateId (id : String)
  | selfLoop (id : String)
  | orphan (id dep : String)
  /-- `CycleError`, with the path it names. -/
  | cycle (path : List String)
  deriving DecidableEq, Repr

def GraphError.message : GraphError → String
  | .duplicateId id => "Duplicate step ID: \"" ++ id ++ "\""
  | .selfLoop id => "Self-loop: step \"" ++ id ++ "\" references itself in input_from"
  | .orphan id dep =>
    "Orphan reference: step \"" ++ id ++ "\" references unknown step \"" ++ dep ++ "\""
  | .cycle path => "Dependency cycle detected: " ++ String.intercalate " → " path

/-- A step id to the set of ids it depends on. -/
abbrev Adjacency := List (String × List String)

/-- The set of ids under `id`, empty where there is none. -/
def Adjacency.deps (adj : Adjacency) (id : String) : List String :=
  (Assoc.get adj id).getD []

def buildDependencyGraph (steps : List ManifestStep) : Adjacency :=
  steps.foldl (fun adj step => Assoc.set adj step.id step.inputs.eraseDups) []

/-! ## The search for a cycle -/

inductive Color
  | white | gray | black
  deriving DecidableEq, Repr

/-- What the search carries : the colours, who pushed whom, and the stack, top first. -/
structure Search where
  color : List (String × Color)
  parent : List (String × Option String)
  stack : List String
  deriving DecidableEq, Repr

/-- The path from `cur` up to `dep` over the parents. The parents of a gray node were gray
before it, so a climb reads each entry at most once. -/
def climb (parent : List (String × Option String)) (dep : String) :
    Nat → String → List String → List String
  | 0, _, cycle => cycle
  | n + 1, cur, cycle =>
    if cur = dep then cycle
    else match Assoc.get parent cur with
      | some (some p) => climb parent dep n p (cycle ++ [p])
      | _ => cycle

/-- The cycle named when `node` reaches the gray node `dep`. -/
def cyclePath (parent : List (String × Option String)) (dep node : String) : List String :=
  (climb parent dep parent.length node [dep, node]).reverse

/-- The loop over the dependencies of `node`, just turned gray : a gray one closes a cycle,
a white one is pushed. -/
def scan (adj : Adjacency) (node : String) :
    List String → Search → Except (List String) Search
  | [], s => .ok s
  | dep :: deps, s =>
    if dep ∉ adj.map Prod.fst then scan adj node deps s
    else match Assoc.get s.color dep with
      | some .gray => .error (cyclePath s.parent dep node)
      | some .white => scan adj node deps
          { s with parent := Assoc.set s.parent dep (some node), stack := dep :: s.stack }
      | _ => scan adj node deps s

/-- Turns the search can still take : a white node pays for itself and for what it pushes,
an entry of the stack for its pop. -/
def Search.size (adj : Adjacency) (s : Search) : Nat :=
  (s.color.map fun e => if e.2 = .white then (adj.deps e.1).length + 1 else 0).sum
    + s.stack.length

theorem scan_ok {adj : Adjacency} {node : String} {deps : List String} {s s' : Search}
    (h : scan adj node deps s = .ok s') :
    s'.color = s.color ∧
    (∀ d ∈ deps, d ∈ adj.map Prod.fst → Assoc.get s.color d ≠ some .gray) ∧
    ∃ pushed, s'.stack = pushed ++ s.stack ∧ pushed.length ≤ deps.length ∧
      (∀ d ∈ pushed, d ∈ adj.map Prod.fst ∧ Assoc.get s.color d = some .white) ∧
      ∀ d ∈ deps, d ∈ adj.map Prod.fst → Assoc.get s.color d = some .white → d ∈ pushed := by
  induction deps generalizing s with
  | nil =>
    obtain rfl : s = s' := by simpa [scan] using h
    exact ⟨rfl, by simp, [], by simp⟩
  | cons dep deps ih =>
    unfold scan at h
    split at h
    · rename_i hkey
      obtain ⟨hcolor, hgray, pushed, hstack, hlen, hwhite, hall⟩ := ih h
      refine ⟨hcolor, ?_, pushed, hstack, by simp only [List.length_cons]; omega, hwhite, ?_⟩
      · rintro d (_ | ⟨_, hd⟩) hk
        · exact absurd hk hkey
        · exact hgray d hd hk
      · rintro d (_ | ⟨_, hd⟩) hk
        · exact absurd hk hkey
        · exact hall d hd hk
    · rename_i hkey
      rw [not_not] at hkey
      split at h
      · simp at h
      · rename_i hdep
        obtain ⟨hcolor, hgray, pushed, hstack, hlen, hwhite, hall⟩ := ih h
        refine ⟨hcolor, ?_, pushed ++ [dep], by simp [hstack], by simp; omega, ?_, ?_⟩
        · rintro d (_ | ⟨_, hd⟩) hk
          · simp [hdep]
          · exact hgray d hd hk
        · intro d hd
          rcases List.mem_append.mp hd with hd | hd
          · exact hwhite d hd
          · obtain rfl := List.mem_singleton.mp hd
            exact ⟨hkey, hdep⟩
        · rintro d (_ | ⟨_, hd⟩) hk hw
          · simp
          · exact List.mem_append_left _ (hall d hd hk hw)
      · rename_i hngray hnwhite
        obtain ⟨hcolor, hgray, pushed, hstack, hlen, hwhite, hall⟩ := ih h
        refine ⟨hcolor, ?_, pushed, hstack, by simp only [List.length_cons]; omega, hwhite, ?_⟩
        · rintro d (_ | ⟨_, hd⟩) hk
          · exact hngray
          · exact hgray d hd hk
        · rintro d (_ | ⟨_, hd⟩) hk hw
          · exact absurd hw hnwhite
          · exact hall d hd hk hw

theorem size_scan_lt {adj : Adjacency} {node : String} {s s' : Search}
    (hnode : Assoc.get s.color node = some .white)
    (h : scan adj node (adj.deps node) { s with color := Assoc.set s.color node .gray } = .ok s') :
    s'.size adj < s.size adj := by
  obtain ⟨hcolor, -, pushed, hstack, hlen, -⟩ := scan_ok h
  have hw := Assoc.weight_set_le
    (fun e : String × Color => if e.2 = .white then (adj.deps e.1).length + 1 else 0)
    (v := .gray) hnode (fun b => by simp)
  simp only [Search.size, hcolor, hstack, List.length_append]
  simp only [if_true, reduceCtorEq, if_false] at hw
  omega

theorem size_pop_lt {adj : Adjacency} {node : String} {rest : List String} {s : Search}
    (hstack : s.stack = node :: rest) :
    Search.size adj { s with color := Assoc.set s.color node .black, stack := rest } <
      s.size adj := by
  have hw : ((Assoc.set s.color node .black).map fun e =>
      if e.2 = Color.white then (adj.deps e.1).length + 1 else 0).sum ≤
      (s.color.map fun e => if e.2 = .white then (adj.deps e.1).length + 1 else 0).sum := by
    rcases hg : Assoc.get s.color node with _ | c
    · rw [Assoc.set, if_neg (Assoc.get_eq_none.mp hg)]
      simp
    · have := Assoc.weight_set_le
        (fun e : String × Color => if e.2 = .white then (adj.deps e.1).length + 1 else 0)
        (v := .black) hg (fun b => by simp)
      simp only [reduceCtorEq, if_false] at this
      omega
  simp only [Search.size, hstack, List.length_cons]
  omega

/-- The loop over the stack. -/
def descend (adj : Adjacency) (s : Search) : Except (List String) Search :=
  match _hstack : s.stack with
  | [] => .ok s
  | node :: rest =>
    if _hnode : Assoc.get s.color node = some .white then
      match _hscan : scan adj node (adj.deps node)
          { s with color := Assoc.set s.color node .gray } with
      | .error path => .error path
      | .ok s' => descend adj s'
    else descend adj { s with color := Assoc.set s.color node .black, stack := rest }
termination_by s.size adj
decreasing_by
  · exact size_scan_lt _hnode _hscan
  · exact size_pop_lt _hstack

/-- The loop over the keys. -/
def searchFrom (adj : Adjacency) : List String → Search → Except (List String) Search
  | [], s => .ok s
  | start :: starts, s =>
    if Assoc.get s.color start ≠ some .white then searchFrom adj starts s
    else match descend adj
        { s with parent := Assoc.set s.parent start none, stack := [start] } with
      | .error path => .error path
      | .ok s' => searchFrom adj starts s'

/-- The path of a cycle, `none` where there is none. -/
def detectCycle (adj : Adjacency) : Option (List String) :=
  match searchFrom adj (adj.map Prod.fst) ⟨adj.map fun e => (e.1, .white), [], []⟩ with
  | .error path => some path
  | .ok _ => none

/-! ## Phases -/

/-- The code units of a string, as the default sort order reads them. -/
def codeUnits (s : String) : List Nat :=
  s.toList.flatMap fun c =>
    if c.toNat < 0x10000 then [c.toNat]
    else [0xd800 + (c.toNat - 0x10000) / 0x400, 0xdc00 + (c.toNat - 0x10000) % 0x400]

def sort (ids : List String) : List String :=
  ids.insertionSort fun a b => codeUnits a ≤ codeUnits b

/-- What the layering carries. -/
structure Layering where
  inDegree : List (String × Int)
  phases : List ExecutionPhase
  stepOrder : List String
  remaining : List String
  deriving DecidableEq, Repr

/-- The remaining steps that wait for nothing. -/
def Layering.ready (g : Layering) : List String :=
  g.remaining.filter fun id => (Assoc.get g.inDegree id).getD 0 = 0

/-- Lower the in-degree of `id` once for each of `ready` it depends on. -/
def lower (adj : Adjacency) (id : String) (inDegree : List (String × Int)) (ready : List String) :
    List (String × Int) :=
  ready.foldl (fun inDegree r =>
    if r ∈ adj.deps id then Assoc.set inDegree id ((Assoc.get inDegree id).getD 1 - 1)
    else inDegree) inDegree

/-- One phase : the ready steps, in order, leave what remains. -/
def Layering.peel (adj : Adjacency) (g : Layering) : Layering :=
  let ready := sort g.ready
  let remaining := g.remaining.filter fun id => id ∉ ready
  { inDegree := remaining.foldl (fun inDegree id => lower adj id inDegree ready) g.inDegree
    phases := g.phases ++ [⟨g.phases.length, ready⟩]
    stepOrder := g.stepOrder ++ ready
    remaining := remaining }

theorem mem_sort {ids : List String} {id : String} : id ∈ sort ids ↔ id ∈ ids :=
  (List.perm_insertionSort ..).mem_iff

theorem length_remaining_peel_lt {adj : Adjacency} {g : Layering} (h : g.ready ≠ []) :
    (g.peel adj).remaining.length < g.remaining.length := by
  obtain ⟨id, hid⟩ := List.exists_mem_of_ne_nil _ h
  have hmem : id ∈ g.remaining := List.mem_of_mem_filter hid
  refine List.length_filter_lt_length_iff_exists.mpr ⟨id, hmem, ?_⟩
  simpa [mem_sort] using hid

/-- What the layering reports when nothing is ready. -/
def Layering.stuck (adj : Adjacency) (g : Layering) : List String :=
  let subAdj := g.remaining.foldl (fun sub id =>
    Assoc.set sub id ((adj.deps id).filter fun d => d ∈ g.remaining)) []
  (detectCycle subAdj).getD g.remaining

def layer (adj : Adjacency) (g : Layering) : Except GraphError GraphAnalysis :=
  if g.remaining = [] then .ok ⟨g.phases, g.stepOrder⟩
  else if _h : g.ready = [] then .error (.cycle (g.stuck adj))
  else layer adj (g.peel adj)
termination_by g.remaining.length
decreasing_by exact length_remaining_peel_lt _h

/-- The in-degrees the layering starts from : every reference to a known step counts. -/
def inDegrees (ids : List String) (steps : List ManifestStep) : List (String × Int) :=
  steps.foldl (fun inDegree step =>
    Assoc.set inDegree step.id (step.inputs.countP fun dep => dep ∈ ids)) []

def computePhases (steps : Option (List ManifestStep)) : Except GraphError GraphAnalysis :=
  match steps with
  | none | some [] => .ok ⟨[], []⟩
  | some steps =>
    let ids := (steps.map (·.id)).eraseDups
    layer (buildDependencyGraph steps) ⟨inDegrees ids steps, [], [], ids⟩

/-! ## Validation -/

/-- The first id that repeats an earlier one. -/
def duplicateIn : List ManifestStep → List String → Option String
  | [], _ => none
  | step :: steps, ids =>
    if step.id ∈ ids then some step.id else duplicateIn steps (ids ++ [step.id])

def validateGraph (steps : List ManifestStep) : Except GraphError Unit :=
  match duplicateIn steps [] with
  | some id => .error (.duplicateId id)
  | none =>
    match steps.find? fun step => step.id ∈ step.inputs with
    | some step => .error (.selfLoop step.id)
    | none =>
      match steps.findSome? fun step =>
        (step.inputs.find? fun dep => dep ∉ steps.map (·.id)).map fun dep => (step.id, dep) with
      | some (id, dep) => .error (.orphan id dep)
      | none =>
        match detectCycle (buildDependencyGraph steps) with
        | some path => .error (.cycle path)
        | none => .ok ()

end Lynox.Orchestrator
