import Lynox.Data.Throws
import Lynox.Orchestrator.Template
import Mathlib.Logic.Relation

/-!
# Edits of a workflow's steps

`applyModifications` edits the list of steps in order : it adds a step that reads steps that are
there, takes one out of the list and of what the others read, gives one a new task, or a new id that
every reference follows. An edit names a step by its id, by an id that reads the same once the
characters that do not show are gone, or by its position, and is refused where that names no step or
two of them.

A list is valid where its ids are its steps', each once, the steps read steps of the list, and none reads itself
over others (`ValidGraph`). Each edit keeps that : what is added is read by nobody, what stays reads no more than
it did, and a new id is a renaming of the graph (`applyModifications_keeps_valid`).
-/

namespace Lynox.Workflow

open Text Template

/-! ## Steps and edits -/

/-- A step. `rest` holds its other fields, which no edit looks at. -/
structure InlineStep where
  id : JsString
  task : JsString
  inputFrom : Option (List JsString)
  inputTemplate : Option Fields
  rest : Fields

/-- The ids of the steps a step reads. -/
def InlineStep.inputs (s : InlineStep) : List JsString :=
  s.inputFrom.getD []

inductive Action
  | remove
  | updateTask
  | addStep
  | renameStep
  deriving DecidableEq

structure StepModification where
  action : Action
  stepId : JsString
  value : Option JsString
  inputFrom : Option (List JsString)
  after : Option JsString

/-! ## Characters that do not show -/

def codePointOf : Piece → ℕ
  | .scalar n => n
  | .lone u => u.toNat

/-- A tab, a line end, or what `hidden` does not hold of, shows. `hidden` is the class of code
points that render as nothing, which the Unicode tables of the language decide. -/
def isHidden (hidden : ℕ → Bool) (p : Piece) : Bool :=
  hidden (codePointOf p) && !(codePointOf p = 0x09 || codePointOf p = 0x0A || codePointOf p = 0x0D)

/-- `U+XXXX` -/
def shownCodePoint (n : ℕ) : JsString :=
  let shown := (Nat.digits 16 n).reverse.map fun d => if d < 10 then digit d else .ofNat (0x41 + (d - 10))
  utf16 "U+" ++ List.replicate (4 - shown.length) (digit 0) ++ shown

variable (hidden : ℕ → Bool)

/-- The first hidden character in a name, by its code point. -/
def findHiddenInName (name : JsString) : Option JsString :=
  ((pieces name).find? (isHidden hidden)).map fun p => shownCodePoint (codePointOf p)

def shownPieces (name : JsString) : List Piece :=
  (pieces name).filter fun p => !isHidden hidden p

def stripHiddenInName (name : JsString) : JsString :=
  (shownPieces hidden name).flatMap Piece.units

/-! ## Which step an id names -/

/-- A control character, `\p{Cc}`. -/
def isControl (u : UInt16) : Bool :=
  u.toNat < 0x20 || (0x7F ≤ u.toNat && u.toNat < 0xA0)

/-- Why a text cannot be a new step's id. -/
def newIdProblem (id : JsString) : Option JsString :=
  if id.length = 0 ∨ 64 < id.length then some (utf16 "is empty or longer than 64 characters")
  else if id.head? = some 0x23 then some (utf16 "starts with \"#\", which names a step by its position")
  else if id.any fun u => u = 0x2E || u = 0x7B || u = 0x7D then
    some (utf16 "holds \".\", \"\x7b\" or \"\x7d\", which a reference \x7b\x7b<id>.result\x7d\x7d cannot name")
  else if trim id ≠ id ∨ id.any isControl then
    some (utf16 "starts or ends with a space, or holds a control character")
  else none

/-- A step id as a refusal quotes it. -/
def quotedId (id : JsString) : JsString :=
  let shown := shownPieces hidden id
  if 64 < shown.length then quote ((shown.take 64).flatMap Piece.units) ++ utf16 "…"
  else quote (shown.flatMap Piece.units)

/-- The positions of the steps whose id reads as `id`. -/
def alikeIndexes (steps : List InlineStep) (id : JsString) : List ℕ :=
  (List.range steps.length).filter fun i =>
    steps[i]?.any fun s => stripHiddenInName hidden s.id = stripHiddenInName hidden id

/-- What an id names : the step at a position, none, or several. -/
inductive Named
  | index (i : ℕ)
  | missing
  | ambiguous
  deriving DecidableEq

/-- `/^#([1-9]\d{0,3})$/` : a position, counted from 1. -/
def positionOf : JsString → Option ℕ
  | 0x23 :: u :: ds =>
    if isDigit u ∧ u ≠ 0x30 ∧ ds.all isDigit ∧ ds.length ≤ 3 then some (digitsVal (u :: ds)) else none
  | _ => none

def resolveStep (steps : List InlineStep) (id : JsString) : Named :=
  match positionOf id with
  | some position =>
    match steps.findIdx? fun s => s.id = id with
    | some i => .index i
    | none => if position - 1 < steps.length then .index (position - 1) else .missing
  | none =>
    match alikeIndexes hidden steps id with
    | [] => .missing
    | [i] => .index i
    | _ =>
      match steps.findIdx? fun s => s.id = id with
      | some i => if id ≠ stripHiddenInName hidden id then .index i else .ambiguous
      | none => .ambiguous

/-- How a refusal names the step at `i` by its position. -/
def byPosition (steps : List InlineStep) (i : ℕ) : JsString :=
  let ref := utf16 "#" ++ shownDigits (i + 1)
  match (List.range steps.length).find? fun j => j ≠ i && steps[j]?.any fun s => s.id = ref with
  | none => utf16 "step_id \"" ++ ref ++ utf16 "\""
  | some other =>
    utf16 "step_id \"" ++ ref ++ utf16 "\", after a rename_step with step_id \"" ++ ref ++
      utf16 "\" that gives step #" ++ shownDigits (other + 1) ++ utf16 ", stored with the id \"" ++ ref ++
      utf16 "\", a new id"

/-- `texts` with commas between them. -/
def commas (texts : List JsString) : JsString :=
  (texts.intersperse (utf16 ", ")).flatten

def ambiguousText (steps : List InlineStep) (id what : JsString) : JsString :=
  let alike := alikeIndexes hidden steps id
  utf16 "Error: Steps " ++ commas (alike.map fun i => utf16 "#" ++ shownDigits (i + 1)) ++
    utf16 " all read as " ++ quotedId hidden id ++
    utf16 " (their ids differ only in characters that do not show), so " ++ what ++
    utf16 " cannot tell which one is meant. Name the step by its position instead, e.g. " ++
    byPosition steps (alike.getLast?.getD 0) ++ utf16 "."

/-! ## References -/

/-- The white space in front of a reference's path, and the path : `\{\{(\s*)([^}]+)\}\}` leaves the
path one unit at least. -/
def spaced (body : JsString) : JsString × JsString :=
  if body.all isWhite then (body.dropLast, body.drop (body.length - 1))
  else (body.takeWhile isWhite, body.dropWhile isWhite)

def trimEnd (s : JsString) : JsString :=
  (s.reverse.dropWhile isWhite).reverse

/-- A reference to `source`'s output, pointed at `target`. -/
def renamedRef (source target : JsString) (body : JsString) : JsString :=
  let (ws, path) := spaced body
  if trimEnd path ≠ source ∧ ¬ (source ++ [0x2E]).isPrefixOf path then utf16 "\x7b\x7b" ++ body ++
    utf16 "\x7d\x7d"
  else utf16 "\x7b\x7b" ++ ws ++ target ++ path.drop source.length ++ utf16 "\x7d\x7d"

def renamedRefs (text source target : JsString) : JsString :=
  replace placeholder (renamedRef source target) text

mutual

/-- A step's input template with every text's references renamed. -/
def renamedInTemplate (source target : JsString) : Value → Value
  | .string s => .string (renamedRefs s source target)
  | .array items => .array (renamedInItems source target items)
  | .object fields => .object (renamedInFields source target fields)
  | v => v

def renamedInItems (source target : JsString) : List Value → List Value
  | [] => []
  | item :: items => renamedInTemplate source target item :: renamedInItems source target items

def renamedInFields (source target : JsString) : List (JsString × Value) → List (JsString × Value)
  | [] => []
  | (name, value) :: fields =>
    (name, renamedInTemplate source target value) :: renamedInFields source target fields

end

/-! ## One edit -/

/-- What an id names, and the note where it is a position that another step has for its id. -/
def stepIndex (steps : List InlineStep) (id : JsString) : Named × List JsString :=
  let found := resolveStep hidden steps id
  match found, id with
  | .index i, 0x23 :: ds =>
    if ds ≠ [] ∧ ds.all isDigit ∧ i + 1 ≠ digitsVal ds then
      (found, [quotedId hidden id ++ utf16 " named step #" ++ shownDigits (i + 1) ++
        utf16 ", stored with that id, not the step at position " ++ ds ++ utf16 "."])
    else (found, [])
  | _, _ => (found, [])

/-- The steps that a new step reads, by their ids, and the ids that name none. -/
def readInputs (steps : List InlineStep) (stepId : JsString) :
    List JsString → List JsString × Except JsString (List JsString × List JsString)
  | [] => ([], .ok ([], []))
  | dep :: deps =>
    let (found, note) := stepIndex hidden steps dep
    match found with
    | .ambiguous =>
      (note, .error (ambiguousText hidden steps dep
        (utf16 "the input of add_step " ++ quotedId hidden stepId)))
    | .missing =>
      let (notes, rest) := readInputs steps stepId deps
      (note ++ notes, rest.map fun r => (r.1, quotedId hidden dep :: r.2))
    | .index i =>
      let (notes, rest) := readInputs steps stepId deps
      (note ++ notes, rest.map fun r => ((steps[i]?.map (·.id)).toList ++ r.1, r.2))

def withoutStep (steps : List InlineStep) (i : ℕ) (removedId : JsString) : List InlineStep :=
  (steps.eraseIdx i).map fun s =>
    { s with
      inputFrom := s.inputFrom.bind fun deps =>
        let left := deps.filter (· ≠ removedId)
        if left.length = 0 then none else some left }

/-- A step with every reference to `source` pointed at `target`. -/
def InlineStep.renamed (source target : JsString) (s : InlineStep) : InlineStep :=
  { s with
    inputFrom := s.inputFrom.map fun deps => deps.map fun dep => if dep = source then target else dep
    task := renamedRefs s.task source target
    inputTemplate := s.inputTemplate.map (renamedInFields source target) }

/-- The step at `i` under its new id, and every reference to it with it. -/
def withNewId (steps : List InlineStep) (i : ℕ) (source target : JsString) : List InlineStep :=
  (steps.modify i fun s => { s with id := target }).map (InlineStep.renamed source target)

/-- A value that is there and not empty. -/
def given (value : Option JsString) : Option JsString :=
  value.filter (· ≠ [])

/-- `add_step` : the notes, and the steps or a refusal. -/
def addStep (steps : List InlineStep) (mod : StepModification) :
    List JsString × Except JsString (List InlineStep) :=
  let id := quotedId hidden mod.stepId
  if steps.any fun s => s.id = mod.stepId then
    ([], .error (utf16 "Error: Step " ++ id ++ utf16 " already exists — cannot add a duplicate id."))
  else
    match newIdProblem mod.stepId, given mod.value with
    | some problem, _ =>
      ([], .error (utf16 "Error: add_step: the new id " ++ id ++ utf16 " " ++ problem ++
        utf16 ". Choose another."))
    | none, none =>
      ([], .error (utf16 "Error: \"value\" (the task) is required for add_step " ++ id ++ utf16 "."))
    | none, some value =>
      match readInputs hidden steps mod.stepId (mod.inputFrom.getD []) with
      | (notes, .error e) => (notes, .error e)
      | (notes, .ok (inputFrom, missing)) =>
        if missing.length > 0 then
          (notes, .error (utf16 "Error: add_step " ++ id ++ utf16 " depends on unknown step(s): " ++
            commas missing ++ utf16 "."))
        else
          let newStep : InlineStep :=
            { id := mod.stepId, task := value
              inputFrom := if inputFrom.length > 0 then some inputFrom else none
              inputTemplate := none, rest := [] }
          match mod.after with
          | none => (notes, .ok (steps ++ [newStep]))
          | some after =>
            let (found, note) := stepIndex hidden steps after
            match found with
            | .ambiguous =>
              (notes ++ note, .error (ambiguousText hidden steps after
                (utf16 "the insertion after it (add_step " ++ id ++ utf16 ")")))
            | .missing =>
              (notes ++ note, .error (utf16 "Error: add_step " ++ id ++
                utf16 " requests insertion after " ++
                quotedId hidden after ++ utf16 ", which does not exist."))
            | .index i => (notes ++ note, .ok (steps.insertIdx (i + 1) newStep))

/-- What an edit of a step is called in a refusal. -/
def Action.what : Action → JsString
  | .remove => utf16 "removal"
  | .updateTask => utf16 "task update"
  | _ => utf16 "renaming"

/-- `rename_step` of the step at `i`. -/
def renameStep (steps : List InlineStep) (mod : StepModification) (i : ℕ) (source : JsString) :
    Except JsString (List InlineStep) :=
  match given mod.value with
  | none =>
    .error (utf16 "Error: \"value\" (the new id) is required for rename_step " ++
      quotedId hidden mod.stepId ++
      utf16 ".")
  | some target =>
    match findHiddenInName hidden target, newIdProblem target with
    | some codePoint, _ =>
      .error (utf16 "Error: rename_step: the new id contains a character that renders as nothing (" ++ codePoint ++
        utf16 "). Type the id again.")
    | none, some problem =>
      .error (utf16 "Error: rename_step: the new id " ++ quotedId hidden target ++ utf16 " " ++ problem ++
        utf16 ". Choose another.")
    | none, none =>
      if target ≠ source ∧ steps.any fun s => s.id = target then
        .error (utf16 "Error: Step " ++ quotedId hidden target ++
          utf16 " already exists — cannot rename " ++
          quotedId hidden source ++ utf16 " to it.")
      else .ok (withNewId steps i source target)

/-- An edit of the step at `i`. -/
def editStep (steps : List InlineStep) (mod : StepModification) (i : ℕ) (s : InlineStep) :
    Except JsString (List InlineStep) :=
  match mod.action with
  | .remove => .ok (withoutStep steps i s.id)
  | .updateTask =>
    match given mod.value with
    | none => .error (utf16 "Error: \"value\" is required for update_task modification.")
    | some value => .ok (steps.modify i fun s => { s with task := value })
  | _ => renameStep hidden steps mod i s.id

def applyModification (steps : List InlineStep) (mod : StepModification) :
    List JsString × Except JsString (List InlineStep) :=
  if mod.action = .addStep then addStep hidden steps mod
  else
    let (found, note) := stepIndex hidden steps mod.stepId
    match found with
    | .ambiguous => (note, .error (ambiguousText hidden steps mod.stepId mod.action.what))
    | .missing =>
      (note, .error (utf16 "Error: Step " ++ quotedId hidden mod.stepId ++ utf16 " not found for " ++
        mod.action.what ++ utf16 "."))
    | .index i =>
      match steps[i]? with
      | none => (note, .ok steps)
      | some s => (note, editStep hidden steps mod i s)

/-- What a list of edits comes to : the notes, the first refusal if there is one, and the steps up
to there. -/
structure Edited where
  notes : List JsString
  error : Option JsString
  steps : List InlineStep

def applyModifications (steps : List InlineStep) : List StepModification → Edited
  | [] => ⟨[], none, steps⟩
  | mod :: mods =>
    match applyModification hidden steps mod with
    | (notes, .error e) => ⟨notes, some e, steps⟩
    | (notes, .ok steps') =>
      let edited := applyModifications steps' mods
      { edited with notes := notes ++ edited.notes }

/-! ## What an id names is a step of the list -/

variable {hidden} {steps : List InlineStep} {id : JsString} {i : ℕ}

theorem lt_of_findIdx {p : InlineStep → Bool} (h : steps.findIdx? p = some i) : i < steps.length :=
  (List.findIdx?_eq_some_iff_getElem.1 h).1

theorem lt_of_mem_alike (h : i ∈ alikeIndexes hidden steps id) : i < steps.length :=
  List.mem_range.1 (List.mem_filter.1 h).1

theorem lt_of_resolveStep (h : resolveStep hidden steps id = .index i) : i < steps.length := by
  unfold resolveStep at h
  rcases hposition : positionOf id with _ | position <;> simp only [hposition] at h
  · rcases halike : alikeIndexes hidden steps id with _ | ⟨j, _ | ⟨k, alike⟩⟩ <;> simp only [halike] at h
    · cases h
    · obtain rfl := Named.index.inj h
      exact lt_of_mem_alike (halike ▸ List.mem_singleton_self _)
    · rcases hfind : steps.findIdx? (fun s => s.id = id) with _ | j <;> simp only [hfind] at h
      · cases h
      · split_ifs at h
        obtain rfl := Named.index.inj h
        exact lt_of_findIdx hfind
  · rcases hfind : steps.findIdx? (fun s => s.id = id) with _ | j <;> simp only [hfind] at h
    · split_ifs at h with hlt
      obtain rfl := Named.index.inj h
      exact hlt
    · obtain rfl := Named.index.inj h
      exact lt_of_findIdx hfind

theorem stepIndex_fst (steps : List InlineStep) (id : JsString) :
    (stepIndex hidden steps id).1 = resolveStep hidden steps id := by
  unfold stepIndex
  dsimp only
  split
  · split_ifs <;> rfl
  · rfl

theorem lt_of_stepIndex {note : List JsString} (h : stepIndex hidden steps id = (.index i, note)) :
    i < steps.length :=
  lt_of_resolveStep (by rw [← stepIndex_fst, h])

/-! ## The graph of the steps -/

/-- A step reads another's output. -/
def Reads (steps : List InlineStep) (a b : JsString) : Prop :=
  ∃ s ∈ steps, s.id = a ∧ b ∈ s.inputs

/-- The ids are the steps', what is read is there, and no step reads itself, directly or over others. -/
structure ValidGraph (steps : List InlineStep) : Prop where
  unique : (steps.map (·.id)).Nodup
  known : ∀ {a b}, Reads steps a b → b ∈ steps.map (·.id)
  acyclic : ∀ a, ¬ Relation.TransGen (Reads steps) a a

/-- Fewer steps, or steps that read less, each of which reads steps of the list. -/
theorem ValidGraph.mono {steps' : List InlineStep} (h : ValidGraph steps)
    (hids : (steps'.map (·.id)).Nodup) (hreads : ∀ {a b}, Reads steps' a b → Reads steps a b)
    (hknown : ∀ {a b}, Reads steps' a b → b ∈ steps'.map (·.id)) : ValidGraph steps' := by
  have hle : Reads steps' ≤ Reads steps := fun _ _ => hreads
  exact ⟨hids, hknown, fun a hcycle => h.acyclic a (Relation.TransGen.mono hle a a hcycle)⟩

/-- The ids and what the steps read are all that counts. -/
theorem ValidGraph.of_perm {steps' : List InlineStep} (h : ValidGraph steps)
    (hperm : (steps.map fun s => (s.id, s.inputs)).Perm (steps'.map fun s => (s.id, s.inputs))) :
    ValidGraph steps' := by
  have hids : (steps.map (·.id)).Perm (steps'.map (·.id)) := by
    simpa [Function.comp_def] using hperm.map Prod.fst
  have hreads : ∀ {a b}, Reads steps' a b → Reads steps a b := by
    rintro a b ⟨s, hs, rfl, hb⟩
    obtain ⟨t, ht, heq⟩ := List.mem_map.1
        (hperm.mem_iff.2 (List.mem_map_of_mem (f := fun s => (s.id, s.inputs)) hs))
    obtain ⟨hid, hinputs⟩ := Prod.mk.inj heq
    exact ⟨t, ht, hid, hinputs ▸ hb⟩
  exact h.mono (hids.nodup_iff.1 h.unique) hreads fun hr => hids.mem_iff.1 (h.known (hreads hr))

/-- A step that nobody reads and that reads steps of the list. -/
theorem ValidGraph.cons (h : ValidGraph steps) {s : InlineStep} (hnew : s.id ∉ steps.map (·.id))
    (hinputs : ∀ dep ∈ s.inputs, dep ∈ steps.map (·.id)) : ValidGraph (s :: steps) := by
  have hcases : ∀ {a b}, Reads (s :: steps) a b → a = s.id ∧ b ∈ s.inputs ∨ Reads steps a b := by
    rintro a b ⟨t, ht, rfl, hb⟩
    rcases List.mem_cons.1 ht with rfl | ht
    · exact .inl ⟨rfl, hb⟩
    · exact .inr ⟨t, ht, rfl, hb⟩
  have hread : ∀ {a b}, Reads (s :: steps) a b → b ∈ steps.map (·.id) := by
    intro a b hr
    rcases hcases hr with ⟨-, hb⟩ | hr
    · exact hinputs b hb
    · exact h.known hr
  -- a walk from a step of the old list stays in it
  have hold : ∀ {a b}, Relation.TransGen (Reads (s :: steps)) a b → a ≠ s.id →
      Relation.TransGen (Reads steps) a b := by
    intro a b hwalk ha
    induction hwalk with
    | single hr => exact .single ((hcases hr).resolve_left fun hs => ha hs.1)
    | @tail b c hwalk hr ih =>
      have hb : b ≠ s.id := by
        rintro rfl
        obtain ⟨_, -, hlast⟩ := Relation.TransGen.tail'_iff.1 hwalk
        exact hnew (hread hlast)
      exact ih.tail ((hcases hr).resolve_left fun hs => hb hs.1)
  refine ⟨List.nodup_cons.2 ⟨hnew, h.unique⟩, fun hr => List.mem_cons_of_mem _ (hread hr),
    fun a hcycle => ?_⟩
  obtain ⟨_, -, hlast⟩ := Relation.TransGen.tail'_iff.1 hcycle
  have ha : a ≠ s.id := fun heq => hnew (heq ▸ hread hlast)
  exact h.acyclic a (hold hcycle ha)

/-- The ids get other names, different ones for different ids. -/
theorem ValidGraph.rename (h : ValidGraph steps) {f : JsString → JsString}
    (hf : ∀ a ∈ steps.map (·.id), ∀ b ∈ steps.map (·.id), f a = f b → a = b) {steps' : List InlineStep}
    (heq : steps'.map (fun s => (s.id, s.inputs)) = steps.map fun s => (f s.id, s.inputs.map f)) :
    ValidGraph steps' := by
  have hids : steps'.map (·.id) = (steps.map (·.id)).map f := by
    have hfst := congrArg (List.map Prod.fst) heq
    simpa [Function.comp_def] using hfst
  have hreads : ∀ {a b}, Reads steps' a b → ∃ c d, a = f c ∧ b = f d ∧ Reads steps c d := by
    rintro a b ⟨s, hs, rfl, hb⟩
    have hmem : (s.id, s.inputs) ∈ steps.map fun s => (f s.id, s.inputs.map f) :=
      heq ▸ List.mem_map_of_mem (f := fun s => (s.id, s.inputs)) hs
    obtain ⟨t, ht, hpair⟩ := List.mem_map.1 hmem
    obtain ⟨hid, hinputs⟩ := Prod.mk.inj hpair
    obtain ⟨d, hd, rfl⟩ := List.mem_map.1 (hinputs ▸ hb)
    exact ⟨t.id, d, hid.symm, rfl, t, ht, rfl, hd⟩
  have hsource : ∀ {c d}, Reads steps c d → c ∈ steps.map (·.id) := by
    rintro c d ⟨t, ht, rfl, -⟩
    exact List.mem_map_of_mem (f := (·.id)) ht
  have hwalk : ∀ {a b}, Relation.TransGen (Reads steps') a b →
      ∃ c d, a = f c ∧ b = f d ∧ Relation.TransGen (Reads steps) c d := by
    intro a b hw
    induction hw with
    | single hr =>
      obtain ⟨c, d, ha, hb, hcd⟩ := hreads hr
      exact ⟨c, d, ha, hb, .single hcd⟩
    | tail _ hr ih =>
      obtain ⟨c, d, ha, hb, hcd⟩ := ih
      obtain ⟨d', e, hb', he, hde⟩ := hreads hr
      obtain ⟨_, -, hlast⟩ := Relation.TransGen.tail'_iff.1 hcd
      obtain rfl : d = d' := hf d (h.known hlast) d' (hsource hde) (hb.symm.trans hb')
      exact ⟨c, e, ha, he, hcd.tail hde⟩
  refine ⟨?_, fun hr => ?_, fun a hcycle => ?_⟩
  · rw [hids]
    exact List.Nodup.map_on (fun a ha b hb => hf a ha b hb) h.unique
  · obtain ⟨c, d, -, rfl, hcd⟩ := hreads hr
    rw [hids]
    exact List.mem_map_of_mem (h.known hcd)
  · obtain ⟨c, d, hc, hd, hcd⟩ := hwalk hcycle
    obtain ⟨_, hfirst, -⟩ := Relation.TransGen.head'_iff.1 hcd
    obtain ⟨_, -, hlast⟩ := Relation.TransGen.tail'_iff.1 hcd
    obtain rfl : c = d := hf c (hsource hfirst) d (h.known hlast) (hc.symm.trans hd)
    exact h.acyclic c hcd

/-! ## Each edit keeps the graph valid -/

/-- Taking a step out, also of what the others read. -/
theorem ValidGraph.withoutStep (h : ValidGraph steps) {s : InlineStep} (hs : steps[i]? = some s) :
    ValidGraph (withoutStep steps i s.id) := by
  obtain ⟨hi, rfl⟩ := List.getElem?_eq_some_iff.1 hs
  have hids : (Workflow.withoutStep steps i steps[i].id).map (·.id) = (steps.eraseIdx i).map (·.id) := by
    simp [Workflow.withoutStep, Function.comp_def]
  have hreads : ∀ {a b}, Reads (Workflow.withoutStep steps i steps[i].id) a b →
      Reads steps a b ∧ b ≠ steps[i].id := by
    rintro a b ⟨t, ht, rfl, hb⟩
    obtain ⟨t₀, ht₀, rfl⟩ := List.mem_map.1 ht
    rcases hdeps : t₀.inputFrom with _ | deps
    · simp [InlineStep.inputs, hdeps] at hb
    · have hmem : b ∈ deps ∧ b ≠ steps[i].id := by
        simp only [InlineStep.inputs, hdeps, Option.bind_some] at hb
        split_ifs at hb
        · simp at hb
        · simpa using hb
      exact ⟨⟨t₀, List.mem_of_mem_eraseIdx ht₀,
        rfl, by simpa [InlineStep.inputs, hdeps] using hmem.1⟩, hmem.2⟩
  have hperm : (steps.map (·.id)).Perm (steps[i].id :: (steps.eraseIdx i).map (·.id)) :=
    (List.getElem_cons_eraseIdx_perm hi).symm.map _
  refine h.mono ?_ (fun hr => (hreads hr).1) fun hr => ?_
  · rw [hids]
    exact (List.nodup_cons.1 (hperm.nodup_iff.1 h.unique)).2
  · obtain ⟨hr, hne⟩ := hreads hr
    rw [hids]
    exact (List.mem_cons.1 (hperm.mem_iff.1 (h.known hr))).resolve_left hne

/-- A new id for a step, and for it wherever it is read. -/
theorem ValidGraph.withNewId (h : ValidGraph steps) {s : InlineStep} (hs : steps[i]? = some s)
    {target : JsString}
    (htarget : target = s.id ∨ target ∉ steps.map (·.id)) : ValidGraph (withNewId steps i s.id target) := by
  obtain ⟨hi, rfl⟩ := List.getElem?_eq_some_iff.1 hs
  refine h.rename (f := fun a => if a = steps[i].id then target else a) ?_ ?_
  · intro a ha b hb heq
    split_ifs at heq with hsa hsb hsb
    · rw [hsa, hsb]
    · rcases htarget with rfl | hnot
      · rw [hsa, heq]
      · exact absurd (heq ▸ hb) hnot
    · rcases htarget with rfl | hnot
      · rw [hsb, heq]
      · exact absurd (heq ▸ ha) hnot
    · exact heq
  · refine List.ext_getElem (by simp [Workflow.withNewId]) fun j hj _ => ?_
    have hj : j < steps.length := by simpa [Workflow.withNewId] using hj
    simp only [Workflow.withNewId, List.getElem_map, List.getElem_modify]
    have hinputs : ∀ t : InlineStep, (InlineStep.renamed steps[i].id target t).inputs =
        t.inputs.map fun a => if a = steps[i].id then target else a := by
      intro t
      rcases hdeps : t.inputFrom with _ | deps <;> simp [InlineStep.renamed, InlineStep.inputs, hdeps]
    by_cases hij : i = j
    · subst hij
      simp only [if_true, hinputs]
      rfl
    · have hne : steps[j].id ≠ steps[i].id := by
        intro heq
        have hinj := List.nodup_iff_injective_getElem.1 h.unique
        refine hij (Fin.mk.inj (@hinj ⟨i, by simpa using hi⟩ ⟨j, by simpa using hj⟩ ?_))
        simpa using heq.symm
      rw [if_neg hij, if_neg hne, hinputs]
      rfl

theorem ValidGraph.modify (h : ValidGraph steps) (i : ℕ) {f : InlineStep → InlineStep}
    (hf : ∀ s, (f s).id = s.id ∧ (f s).inputs = s.inputs) : ValidGraph (steps.modify i f) := by
  refine h.of_perm (List.Perm.of_eq (List.ext_getElem (by simp) fun j hj _ => ?_))
  simp only [List.getElem_map, List.getElem_modify]
  split_ifs
  · rw [(hf _).1, (hf _).2]
  · rfl

/-- What a new step reads are steps of the list. -/
theorem mem_of_readInputs {stepId : JsString} : ∀ {deps notes inputs missing : List JsString},
    readInputs hidden steps stepId deps = (notes, .ok (inputs, missing)) →
      ∀ dep ∈ inputs, dep ∈ steps.map (·.id)
  | [], notes, inputs, missing, h => by
    obtain ⟨rfl, -⟩ := Prod.mk.inj (Except.ok.inj (Prod.mk.inj h).2)
    simp
  | dep :: deps, notes, inputs, missing, h => by
    rcases hindex : stepIndex hidden steps dep with ⟨found, note⟩
    rcases hrest : readInputs hidden steps stepId deps with ⟨notes', _ | ⟨inputs', missing'⟩⟩ <;>
      cases found <;> simp only [readInputs, hindex, hrest, Except.map, Prod.mk.injEq, Except.ok.injEq,
        reduceCtorEq, and_false] at h
    · next i =>
      obtain ⟨-, rfl, -⟩ := h
      have hi := lt_of_stepIndex hindex
      intro d hd
      rw [List.getElem?_eq_getElem hi] at hd
      rcases List.mem_append.1 hd with hd | hd
      · obtain rfl : d = steps[i].id := by simpa using hd
        exact List.mem_map_of_mem (f := (·.id)) (List.getElem_mem hi)
      · exact mem_of_readInputs hrest d hd
    · obtain ⟨-, rfl, -⟩ := h
      exact mem_of_readInputs hrest

theorem ValidGraph.addStep (h : ValidGraph steps) {mod : StepModification} {notes : List JsString}
    {steps' : List InlineStep} (hadd : addStep hidden steps mod = (notes, .ok steps')) :
    ValidGraph steps' := by
  unfold Workflow.addStep at hadd
  dsimp only at hadd
  split_ifs at hadd with hexists
  · cases hadd
  have hnew : mod.stepId ∉ steps.map (·.id) := by
    intro hmem
    obtain ⟨s, hs, hid⟩ := List.mem_map.1 hmem
    exact hexists (List.any_eq_true.2 ⟨s, hs, by simpa using hid⟩)
  -- a new step that reads steps of the list, wherever it is put
  have hput : ∀ {s : InlineStep} {j : ℕ}, s.id = mod.stepId → (∀ dep ∈ s.inputs, dep ∈ steps.map (·.id)) →
      j ≤ steps.length → ValidGraph (steps.insertIdx j s) := by
    intro s j hid hinputs hj
    exact (h.cons (hid ▸ hnew) hinputs).of_perm ((List.perm_insertIdx s steps hj).symm.map _)
  split at hadd
  · cases hadd
  · cases hadd
  · next value _ _ =>
    split at hadd
    · cases hadd
    · next notes' inputs missing hread =>
      have hinputs := mem_of_readInputs hread
      by_cases hmissing : missing.length > 0
      · rw [if_pos hmissing] at hadd
        cases hadd
      rw [if_neg hmissing] at hadd
      set newStep : InlineStep :=
        { id := mod.stepId, task := value, inputFrom := if inputs.length > 0 then some inputs else none,
          inputTemplate := none, rest := [] } with hnewStep
      have hnewInputs : ∀ dep ∈ newStep.inputs, dep ∈ steps.map (·.id) := by
        intro dep hdep
        by_cases hpos : 0 < inputs.length
        · exact hinputs dep (by simpa [hnewStep, InlineStep.inputs, hpos] using hdep)
        · simp [hnewStep, InlineStep.inputs, hpos] at hdep
      split at hadd
      · obtain rfl := Except.ok.inj (Prod.mk.inj hadd).2
        have hend := hput (j := steps.length) rfl hnewInputs le_rfl
        rwa [List.insertIdx_length_self] at hend
      · next after _ =>
        rcases hindex : stepIndex hidden steps after with ⟨found, note⟩
        simp only [hindex] at hadd
        cases found with
        | ambiguous => cases hadd
        | missing => cases hadd
        | index i =>
          obtain rfl := Except.ok.inj (Prod.mk.inj hadd).2
          exact hput rfl hnewInputs (lt_of_stepIndex hindex)

theorem ValidGraph.editStep (h : ValidGraph steps) {mod : StepModification} {s : InlineStep}
    (hs : steps[i]? = some s) {steps' : List InlineStep}
    (hedit : editStep hidden steps mod i s = .ok steps') :
    ValidGraph steps' := by
  have hrename : renameStep hidden steps mod i s.id = .ok steps' → ValidGraph steps' := by
    intro hr
    unfold renameStep at hr
    split at hr
    · cases hr
    · next target _ =>
      split at hr
      · cases hr
      · cases hr
      · split_ifs at hr with hexists
        · obtain rfl := Except.ok.inj hr
          refine h.withNewId hs ?_
          by_cases heq : target = s.id
          · exact .inl heq
          · refine .inr fun hmem => hexists ⟨heq, ?_⟩
            obtain ⟨t, ht, hid⟩ := List.mem_map.1 hmem
            exact List.any_eq_true.2 ⟨t, ht, by simpa using hid⟩
  unfold Workflow.editStep at hedit
  split at hedit
  · obtain rfl := Except.ok.inj hedit
    exact h.withoutStep hs
  · split at hedit
    · cases hedit
    · obtain rfl := Except.ok.inj hedit
      exact h.modify i fun s => ⟨rfl, rfl⟩
  · exact hrename hedit

theorem ValidGraph.applyModification (h : ValidGraph steps) {mod : StepModification} {notes : List JsString}
    {steps' : List InlineStep} (hmod : applyModification hidden steps mod = (notes, .ok steps')) :
    ValidGraph steps' := by
  unfold Workflow.applyModification at hmod
  split_ifs at hmod
  · exact h.addStep hmod
  rcases hindex : stepIndex hidden steps mod.stepId with ⟨found, note⟩
  simp only [hindex] at hmod
  cases found with
  | ambiguous => cases hmod
  | missing => cases hmod
  | index i =>
    have hlt : i < steps.length := lt_of_stepIndex hindex
    have hi : steps[i]? = some steps[i] := List.getElem?_eq_getElem hlt
    simp only [hi] at hmod
    exact h.editStep hi (Prod.mk.inj hmod).2

/-- Edits that are not refused leave a valid list valid. -/
theorem applyModifications_keeps_valid (hidden : ℕ → Bool) (steps : List InlineStep)
    (modifications : List StepModification) (h : ValidGraph steps)
    (hok : (applyModifications hidden steps modifications).error = none) :
    ValidGraph (applyModifications hidden steps modifications).steps := by
  induction modifications generalizing steps with
  | nil => exact h
  | cons mod mods ih =>
    rcases hmod : applyModification hidden steps mod with ⟨notes, e | steps'⟩
    · simp [applyModifications, hmod] at hok
    · simp only [applyModifications, hmod] at hok ⊢
      exact ih steps' (h.applyModification hmod) hok

/-- A list of two steps, the second reading the first, whose first step gets another id and then a
third step. -/
theorem renamed_then_read :
    ((applyModifications (fun _ => false)
        [⟨[0x61], [0x41], none, none, []⟩, ⟨[0x62], [0x42], some [[0x61]], none, []⟩]
        [⟨.renameStep, [0x61], some [0x63], none, none⟩,
          ⟨.addStep, [0x64], some [0x44], some [[0x63]], none⟩]).steps.map
      fun s => (s.id, s.inputs)) = [([0x63], []), ([0x62], [[0x63]]), ([0x64], [[0x63]])] ∧
    ValidGraph (applyModifications (fun _ => false)
      [⟨[0x61], [0x41], none, none, []⟩, ⟨[0x62], [0x42], some [[0x61]], none, []⟩]
      [⟨.renameStep, [0x61], some [0x63], none, none⟩,
        ⟨.addStep, [0x64], some [0x44], some [[0x63]], none⟩]).steps := by
  refine ⟨by decide, applyModifications_keeps_valid _ _ _ ⟨by decide, ?_, ?_⟩ (by decide)⟩
  · rintro a b ⟨s, hs, rfl, hb⟩
    simp only [List.mem_cons, List.not_mem_nil, or_false] at hs
    rcases hs with rfl | rfl <;> simp_all [InlineStep.inputs]
  · have hone : ∀ {a b}, Reads [⟨[0x61], [0x41], none, none, []⟩,
      ⟨[0x62], [0x42], some [[0x61]], none, []⟩] a b →
        a = [0x62] ∧ b = [0x61] := by
      rintro a b ⟨s, hs, rfl, hb⟩
      simp only [List.mem_cons, List.not_mem_nil, or_false] at hs
      rcases hs with rfl | rfl <;> simp_all [InlineStep.inputs]
    intro a hcycle
    obtain ⟨_, hfirst, -⟩ := Relation.TransGen.head'_iff.1 hcycle
    obtain ⟨_, -, hlast⟩ := Relation.TransGen.tail'_iff.1 hcycle
    have heq := (hone hfirst).1.symm.trans (hone hlast).2
    simp at heq

end Lynox.Workflow
