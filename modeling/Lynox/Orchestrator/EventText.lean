import Lynox.Orchestrator.Contract

/-!
# An event's values outside a step's task text

In a run that an event started, the values of the mapped parameters and what a step makes of them
are a third party's. Only a step's task text fences them, so `mappedValueOutsideTaskText` refuses a
step that refers to them elsewhere. It reads the JSON text of the whole step in one pass, and the
run reads each text of the step on its own.

The steps execute with the same in every two runs whose events differ where every path they read is
steady (`event_chooses_nothing_iff`), which the paths are that the check reads as the run does.
Braces that are left open in one text hide those of the next from it (`open_braces_hide_a_value`).
-/

namespace Lynox.Template

open Text

/-! ## The context of a step -/

/-- The steps whose outputs a step reads. -/
def inputFrom (step : Step) : List JsString :=
  match Assoc.get step (utf16 "input_from") with
  | some (.array ids) => ids.filterMap fun | .string id => some id | _ => none
  | _ => []

/-! ## The check -/

/-- A step without its task text. -/
def withoutTask (step : Step) : Fields :=
  step.filter fun f => f.1 ≠ utf16 "task"

def stepId (step : Step) : JsString :=
  match Assoc.get step (utf16 "id") with
  | some (.string id) => id
  | _ => []

/-- Why a reference in a step's text is refused, none where it is to a parameter that is not
mapped. -/
def refusedReference (step : Step) (mappedNames : List JsString) (reference : JsString) :
    Option JsString :=
  match (split 0x2E (trim reference)).map trim with
  | [] => none
  | first :: names =>
    if first ≠ paramsName then
      some (utf16 "Step \"" ++ stepId step ++ utf16 "\" uses \"\x7b\x7b" ++ trim reference ++
        utf16 ("\x7d\x7d\" outside its task text. In a run an event started, an earlier step's " ++
          "output can carry the event's text, and there it would choose what the step executes " ++
          "with. Refer to it only in a step's task text."))
    else
      match names with
      | [] => some (refusal (utf16 "params"))
      | name :: _ =>
        if name ∈ mappedNames then some (refusal (utf16 "\"" ++ name ++ utf16 "\"")) else none
where
  refusal (shown : JsString) : JsString :=
    utf16 "Step \"" ++ stepId step ++ utf16 "\" uses the event value " ++ shown ++
      utf16 (" outside its task text, where a sender of events would choose what the step executes " ++
        "with. A mapped value may only be used in a step's task text.")

/-- The references in the text of a step. -/
def referencesIn (step : Step) : List JsString :=
  matchAll placeholder (Value.object (withoutTask step)).write

def mappedValueOutsideTaskText (steps : List Step) (mappedNames : List JsString) : Option JsString :=
  steps.findSome? fun step => (referencesIn step).findSome? (refusedReference step mappedNames)

/-- No white space stands around the points of a path. -/
def Unspaced (path : JsString) : Prop :=
  ∀ name ∈ split 0x2E path, trim name = name

/-- What the check reads as the run does is steady, where no step it reads is called `params`. -/
theorem steady_of_referenced {steps : List Step} {mappedNames : List JsString}
    (h : mappedValueOutsideTaskText steps mappedNames = none) {step : Step} (hstep : step ∈ steps)
    {path : JsString} (hpath : path ∈ (referencesIn step).map trim) (hspace : Unspaced path)
    (hparams : paramsName ∉ inputFrom step) :
    Steady (inputFrom step) (fun name => name ∈ mappedNames) path := by
  obtain ⟨reference, href, rfl⟩ := List.mem_map.mp hpath
  have hnone : refusedReference step mappedNames reference = none :=
    List.findSome?_eq_none_iff.mp (List.findSome?_eq_none_iff.mp h step hstep) reference href
  have htrimmed : (split 0x2E (trim reference)).map trim = split 0x2E (trim reference) :=
    (List.map_congr_left hspace).trans (List.map_id' _)
  intro name names hsplit
  unfold refusedReference at hnone
  rw [htrimmed, hsplit] at hnone
  simp only at hnone
  split_ifs at hnone with hname
  rw [not_ne_iff] at hname
  refine ⟨by rw [hname]; exact hparams, fun _ => ?_⟩
  cases names with
  | nil => exact absurd hnone (by simp)
  | cons param rest =>
    simp only at hnone
    split_ifs at hnone with hmapped
    exact decide_eq_false hmapped

variable {B : Type*}

/-- The steps that are accepted execute with the same in every two runs whose events differ exactly
where every path they read is steady. So is every path that the check reads as the run does. -/
theorem event_chooses_nothing_iff (E : Builtins B) (steps : List Step) (mappedNames : List JsString)
    (h : mappedValueOutsideTaskText steps mappedNames = none) :
    ((∀ step ∈ steps, ∀ context context',
        Alike (inputFrom step) (fun name => name ∈ mappedNames) context context' →
          E.resolveInputTemplate (.object (withoutTask step)) context =
            E.resolveInputTemplate (.object (withoutTask step)) context') ↔
      ∀ step ∈ steps, ∀ path ∈ reads (.object (withoutTask step)),
        Steady (inputFrom step) (fun name => name ∈ mappedNames) path) ∧
    ∀ step ∈ steps, ∀ path ∈ reads (.object (withoutTask step)),
      path ∈ (referencesIn step).map trim → Unspaced path → paramsName ∉ inputFrom step →
        Steady (inputFrom step) (fun name => name ∈ mappedNames) path :=
  ⟨forall₂_congr fun _ _ => resolveInputTemplate_same_iff E _ _ _,
    fun _ hstep _ _ href hspace hparams => steady_of_referenced h hstep href hspace hparams⟩

/-- A call of a step that uses a parameter of the owner's. -/
def ownersCall : Step :=
  [(utf16 "id", .string (utf16 "s1")), (utf16 "task", .string (utf16 "\x7b\x7bparams.note\x7d\x7d")),
    (utf16 "input_template", .object [(utf16 "url", .string (utf16 "\x7b\x7bparams.shop\x7d\x7d"))])]

/-- An event of the owner's shop. -/
def shopEvent (note : JsString) : Fields :=
  [(paramsName, .object [(utf16 "shop", .string (utf16 "main")), (utf16 "note", .string note)])]

theorem alike_shopEvent (note note' : JsString) :
    Alike [] (fun name => name ∈ [utf16 "note"]) (shopEvent note) (shopEvent note') := by
  refine ⟨fun name hname _ => ?_, fun _ => ⟨_, _, rfl, rfl, rfl⟩⟩
  rw [shopEvent, shopEvent, get_object_cons_of_ne hname.symm, get_object_cons_of_ne hname.symm]

theorem owners_call_settled :
    plainBuiltins.resolveInputTemplate (.object (withoutTask ownersCall)) (shopEvent (utf16 "a")) =
      plainBuiltins.resolveInputTemplate (.object (withoutTask ownersCall)) (shopEvent (utf16 "b")) := by
  refine (event_chooses_nothing_iff plainBuiltins [ownersCall] [utf16 "note"] (by decide)).1.mpr
    (fun step hstep path hpath => ?_) ownersCall List.mem_cons_self _ _ (alike_shopEvent _ _)
  rw [List.mem_singleton.mp hstep] at hpath ⊢
  have hreads : reads (.object (withoutTask ownersCall)) = [utf16 "params.shop"] := by decide
  rw [hreads, List.mem_singleton] at hpath
  rw [hpath]
  have hsplit : split 0x2E (utf16 "params.shop") = [paramsName, utf16 "shop"] := by decide
  intro name names hnames
  rw [hsplit] at hnames
  obtain ⟨rfl, rfl⟩ := List.cons.inj hnames
  exact ⟨by decide, fun _ => by decide⟩

/-- A call whose first text leaves its braces open, in front of one with an event's value. -/
def openedCall : Step :=
  [(utf16 "id", .string (utf16 "s1")), (utf16 "task", .string []),
    (utf16 "input_template", .object [(utf16 "note", .string (utf16 "\x7b\x7bparams.owner")),
      (utf16 "url", .string (utf16 "\x7b\x7bparams.m\x7d\x7d"))])]

/-- Braces left open hide the event's value behind them from the check. -/
theorem open_braces_hide_a_value : ¬ ∀ (steps : List Step) (mappedNames : List JsString),
    mappedValueOutsideTaskText steps mappedNames = none →
    ∀ step ∈ steps, ∀ context context',
      Alike (inputFrom step) (fun name => name ∈ mappedNames) context context' →
        plainBuiltins.resolveInputTemplate (.object (withoutTask step)) context =
          plainBuiltins.resolveInputTemplate (.object (withoutTask step)) context' := by
  intro hall
  have hsame := hall [openedCall] [utf16 "m"] (by decide) openedCall List.mem_cons_self
    [(paramsName, .object [(utf16 "m", .string (utf16 "a"))])]
    [(paramsName, .object [(utf16 "m", .string (utf16 "b"))])]
    ⟨fun name hname _ => by rw [get_object_cons_of_ne hname.symm, get_object_cons_of_ne hname.symm],
      fun _ => ⟨_, _, rfl, rfl, rfl⟩⟩
  have hcall : ∀ m : JsString, plainBuiltins.resolveInputTemplate (.object (withoutTask openedCall))
        [(paramsName, .object [(utf16 "m", .string m)])] =
      .object [(utf16 "id", .given (.data (.string (utf16 "s1")))),
        (utf16 "input_template", .object
          [(utf16 "note", .given (.data (.string (utf16 "\x7b\x7bparams.owner")))),
            (utf16 "url", .given (.data (.string m)))])] := fun m => rfl
  rw [hcall, hcall] at hsame
  simp only [Input.object.injEq, List.cons.injEq, Prod.mk.injEq, Input.given.injEq,
    Found.data.injEq, Value.string.injEq, true_and, and_true] at hsame
  exact absurd hsame (by decide)

end Lynox.Template
