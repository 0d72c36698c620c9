import Lynox.Orchestrator.Template
import Lynox.Text.Find
import Lynox.Text.OwnNames

/-!
# The parameters of a workflow

`bindWorkflowParameters` goes through a workflow's parameters in order. A parameter takes the value
supplied under its name, made one of its type, or else its default, and what it takes is checked
against the constraint under its name. The first that fails ends it, with an error text.

The contract of what was bound (`Contract`) : no name but those of the parameters, every parameter
where all are required, and no value its constraint refuses. Whatever is bound meets it, but for a
parameter `__proto__` that is required (`bindWorkflowParameters_iff`) : an assignment under that
name sets the prototype, and binds nothing.

Numbers, patterns and dates are the language's own (`Language`).
-/

namespace Lynox.Parameters

open Text

/-- A value of the language that is data. -/
inductive Datum (N : Type*)
  | null
  | bool (b : Bool)
  | number (n : N)
  | string (s : JsString)
  | array (items : List (Datum N))
  | object (fields : List (JsString × Datum N))

/-- What the language decides : its numbers, patterns and dates, and the text of a value. -/
structure Language (N R : Type*) where
  /-- `Number(text)` -/
  number : JsString → N
  isFinite : N → Bool
  lt : N → N → Bool
  /-- `===` of numbers. -/
  same : N → N → Bool
  numberText : N → JsString
  /-- `new RegExp(source)`, none where it throws. -/
  compile : JsString → Option R
  test : R → JsString → Bool
  /-- `Date.parse` gives a number. -/
  isDate : JsString → Bool
  /-- `String(value)`, none where it throws. -/
  text : Datum N → Option JsString

variable {N R : Type*}

/-- How a check ends : it throws, it fails with an error text, or it gives a value. -/
inductive Checked (α : Type*)
  | thrown
  | failed (error : JsString)
  | ok (value : α)

def Checked.bind {α β : Type*} : Checked α → (α → Checked β) → Checked β
  | .thrown, _ => .thrown
  | .failed error, _ => .failed error
  | .ok value, f => f value

inductive ParameterType
  | string
  | number
  | date

structure ProcessParameter (N : Type*) where
  name : JsString
  type : ParameterType
  defaultValue : Option (Datum N)

/-- A value of an `enum`. -/
inductive Allowed (N : Type*)
  | string (s : JsString)
  | number (n : N)

structure ParamConstraint (N : Type*) where
  enum : Option (List (Allowed N))
  regex : Option JsString
  min : Option N
  max : Option N

/-- An object the parameters are bound in. -/
structure Record (N : Type*) where
  own : List (JsString × Datum N)
  /-- The prototype that was assigned. -/
  proto : Option (Datum N)

structure Options (N : Type*) where
  requireAll : Option Bool
  constraints : Option (List (JsString × ParamConstraint N))

/-- What can be a prototype : an object, or null. -/
def Datum.isProto : Datum N → Bool
  | .bool _ => false
  | .number _ => false
  | .string _ => false
  | _ => true

/-- `out[name] = value`. Under `__proto__` what can be a prototype becomes it, and nothing else is
assigned. -/
def Record.assign (out : Record N) (name : JsString) (value : Datum N) : Record N :=
  if name = Template.protoName then if value.isProto then { out with proto := some value } else out
  else { out with own := setOwn out.own name value }

/-- What every object has under a name, of which no value has one of the fields of a constraint. -/
def inheritedNames : List JsString :=
  ["constructor", "__defineGetter__", "__defineSetter__", "hasOwnProperty", "__lookupGetter__",
    "__lookupSetter__",
    "isPrototypeOf", "propertyIsEnumerable", "toString", "valueOf", "__proto__", "toLocaleString"].map utf16

/-- `opts?.constraints?.[name]` -/
def constraintOf (constraints : Option (List (JsString × ParamConstraint N))) (name : JsString) :
    Option (ParamConstraint N) :=
  constraints.bind fun constraints =>
    match Assoc.get constraints name with
    | some c => some c
    | none => if name ∈ inheritedNames then some ⟨none, none, none, none⟩ else none

/-- `Parameter "name" message`. -/
def parameterError (name message : JsString) : JsString :=
  utf16 "Parameter \"" ++ name ++ utf16 "\" " ++ message

/-! ## The type of a parameter -/

def dropSign : JsString → JsString
  | u :: rest => if u = 0x2B ∨ u = 0x2D then rest else u :: rest
  | [] => []

/-- `([eE][+-]?\d+)?$` -/
def isExponent : JsString → Bool
  | [] => true
  | u :: rest => (u = 0x65 || u = 0x45) && dropSign rest ≠ [] && (dropSign rest).all isDigit

/-- `/^[+-]?(\d+\.?\d*|\.\d+)([eE][+-]?\d+)?$/` -/
def isDecimal (s : JsString) : Bool :=
  let whole := (dropSign s).takeWhile isDigit
  match (dropSign s).dropWhile isDigit with
  | 0x2E :: fraction =>
    (whole ≠ [] || fraction.takeWhile isDigit ≠ []) && isExponent (fraction.dropWhile isDigit)
  | behind => whole ≠ [] && isExponent behind

/-- `/^\d{4}-\d{2}-\d{2}([T ]\S*)?$/` -/
def isIsoDate (s : JsString) : Bool :=
  10 ≤ s.length && (slice s 0 4).all isDigit && s[4]? = some 0x2D && (slice s 5 7).all isDigit &&
    s[7]? = some 0x2D && (slice s 8 10).all isDigit &&
      match s.drop 10 with
      | [] => true
      | u :: rest => (u = 0x54 || u = 0x20) && rest.all fun v => !isWhite v

namespace Language

variable (L : Language N R)

/-- The text of a value that is one, trimmed. -/
def trimmed : Datum N → JsString
  | .string s => trim s
  | _ => []

def coerceParam (raw : Datum N) (param : ProcessParameter N) : Checked (Datum N) :=
  match param.type with
  | .number =>
    match raw with
    | .number n =>
      if L.isFinite n then .ok raw else .failed (parameterError param.name (utf16 "must be a number."))
    | _ =>
      if isDecimal (trimmed raw) = false then .failed
        (parameterError param.name (utf16 "must be a number."))
      else
        -- An exponent may take a decimal past every finite number.
        if L.isFinite (L.number (trimmed raw)) then .ok (.number (L.number (trimmed raw)))
        else .failed (parameterError param.name (utf16 "must be a finite number."))
  | .date =>
    if isIsoDate (trimmed raw) = false ∨ L.isDate (trimmed raw) = false then
      .failed (parameterError param.name (utf16 "must be an ISO date (YYYY-MM-DD)."))
    else .ok (.string (trimmed raw))
  | .string =>
    match raw with
    | .string _ => .ok raw
    | _ =>
      match L.text raw with
      | none => .thrown
      | some s => .ok (.string s)

/-! ## The constraint of a parameter -/

/-- `e === value` -/
def isSame : Allowed N → Datum N → Bool
  | .string s, .string t => s = t
  | .number m, .number n => L.same m n
  | _, _ => false

def allowedText : Allowed N → JsString
  | .string s => s
  | .number n => L.numberText n

/-- `c.enum.join(', ') || '(none)'` -/
def enumText (allowed : List (Allowed N)) : JsString :=
  let joined := (utf16 ", ").intercalate (allowed.map L.allowedText)
  if joined = [] then utf16 "(none)" else joined

def checkEnum (value : Datum N) (name : JsString) : Option (List (Allowed N)) → Checked Unit
  | none => .ok ()
  | some allowed =>
    if allowed.any (L.isSame · value) then .ok ()
    else .failed (parameterError name (utf16 "must be one of: " ++ L.enumText allowed ++ utf16 "."))

def checkRegex (value : Datum N) (name : JsString) : Option JsString → Checked Unit
  | none => .ok ()
  | some regex =>
    match L.compile (utf16 "^(?:" ++ regex ++ utf16 ")$") with
    | none => .failed (parameterError name (utf16 "has an invalid constraint pattern."))
    | some re =>
      match L.text value with
      | none => .thrown
      | some s =>
        if 8192 < s.length then .failed (parameterError name (utf16 "exceeds the maximum length (8192)."))
        else if L.test re s then .ok ()
        else .failed (parameterError name (utf16 "does not match the required pattern."))

def checkBounds (value : Datum N) (name : JsString) (min max : Option N) : Checked Unit :=
  if min.isNone ∧ max.isNone then .ok ()
  else
    match value with
    | .number n =>
      if L.isFinite n = false then
        .failed (parameterError name (utf16 "must be a numeric parameter for its min/max constraint."))
      else if min.any (L.lt n ·) then
        .failed (parameterError name (utf16 "must be >= " ++ (min.map L.numberText).getD [] ++ utf16 "."))
      else if max.any (L.lt · n) then
        .failed (parameterError name (utf16 "must be <= " ++ (max.map L.numberText).getD [] ++ utf16 "."))
      else .ok ()
    | _ => .failed (parameterError name (utf16 "must be a numeric parameter for its min/max constraint."))

/-- A value against all facets of a constraint. -/
def applyConstraint (value : Datum N) (c : ParamConstraint N) (name : JsString) : Checked Unit :=
  (L.checkEnum value name c.enum).bind fun _ =>
    (L.checkRegex value name c.regex).bind fun _ => L.checkBounds value name c.min c.max

/-- A value against the constraint under a name, if there is one. -/
def checked (constraints : Option (List (JsString × ParamConstraint N))) (value : Datum N)
    (name : JsString) :
    Checked Unit :=
  match constraintOf constraints name with
  | none => .ok ()
  | some c => L.applyConstraint value c name

/-! ## The loop -/

/-- What a parameter is bound to, none where it is left unbound. -/
def boundValue (given : List (JsString × Datum N)) (requireAll : Bool)
    (constraints : Option (List (JsString × ParamConstraint N))) (param : ProcessParameter N) :
    Checked (Option (Datum N)) :=
  let fallback : Checked (Option (Datum N)) :=
    match param.defaultValue with
    | none | some .null =>
      if requireAll = false then .ok none
      else .failed (utf16 "Missing required parameter \"" ++ param.name ++ utf16 "\".")
    | some value => (L.checked constraints value param.name).bind fun _ => .ok (some value)
  match Assoc.get given param.name with
  | none | some .null => fallback
  | some raw =>
    (L.coerceParam raw param).bind fun value =>
      (L.checked constraints value param.name).bind fun _ => .ok (some value)

def bindFrom (given : List (JsString × Datum N)) (requireAll : Bool)
    (constraints : Option (List (JsString × ParamConstraint N))) :
    List (ProcessParameter N) → Record N → Checked (Record N)
  | [], out => .ok out
  | param :: schema, out =>
    (L.boundValue given requireAll constraints param).bind fun
      | none => bindFrom given requireAll constraints schema out
      | some value => bindFrom given requireAll constraints schema (out.assign param.name value)

def bindWorkflowParameters (schema : List (ProcessParameter N))
    (supplied : Option (List (JsString × Datum N)))
    (opts : Option (Options N)) : Checked (Record N) :=
  L.bindFrom (supplied.getD []) ((opts.bind Options.requireAll).getD true) (opts.bind Options.constraints)
    schema ⟨[], none⟩

end Language

/-! ## What was bound -/

/-- A check that gives a value has none of the parameters. -/
def Checked.value {α : Type*} : Checked α → Option α
  | .ok value => some value
  | _ => none

/-- The contract of what was bound : own names of the parameters only, each of them where all are
required, and no value that the constraint under its name refuses. -/
structure Contract (L : Language N R) (schema : List (ProcessParameter N)) (requireAll : Bool)
    (constraints : Option (List (JsString × ParamConstraint N))) (params : Record N) : Prop where
  declared : ∀ name ∈ params.own.map Prod.fst, name ∈ schema.map ProcessParameter.name
  required : requireAll = true → ∀ param ∈ schema, param.name ∈ params.own.map Prod.fst
  constrained : ∀ name value c, Assoc.get params.own name = some value →
    constraintOf constraints name = some c →
    L.applyConstraint value c name = .ok ()

section Bound

variable {L : Language N R} {schema : List (ProcessParameter N)} {given : List (JsString × Datum N)}
  {requireAll : Bool} {constraints : Option (List (JsString × ParamConstraint N))}
    {param : ProcessParameter N}
  {out params : Record N} {name : JsString} {value : Datum N} {bound : Option (Datum N)}

theorem Checked.bind_eq_ok {α β : Type*} {x : Checked α} {f : α → Checked β} {b : β} :
    x.bind f = .ok b ↔ ∃ a, x = .ok a ∧ f a = .ok b := by
  cases x <;> simp [Checked.bind]

/-- What a parameter is bound to is checked, and one is left unbound only where not all are required. -/
theorem boundValue_ok (h : L.boundValue given requireAll constraints param = .ok bound) :
    (bound = none ∧ requireAll = false) ∨
      ∃ value, bound = some value ∧ L.checked constraints value param.name = .ok () := by
  have hsome : ∀ {value : Datum N}, ((L.checked constraints value param.name).bind fun _ =>
      (.ok (some value) : Checked (Option (Datum N)))) = .ok bound →
      ∃ value, bound = some value ∧ L.checked constraints value param.name = .ok () := by
    intro value h
    obtain ⟨u, hchecked, hvalue⟩ := Checked.bind_eq_ok.1 h
    injection hvalue with hvalue
    exact ⟨value, hvalue.symm, hchecked⟩
  have hfallback : (match param.defaultValue with
      | none | some .null =>
        if requireAll = false then (.ok none : Checked (Option (Datum N)))
        else .failed (utf16 "Missing required parameter \"" ++ param.name ++ utf16 "\".")
      | some value => (L.checked constraints value param.name).bind fun _ => .ok (some value)) = .ok bound →
      (bound = none ∧ requireAll = false) ∨
        ∃ value, bound = some value ∧ L.checked constraints value param.name = .ok () := by
    intro h
    split at h
    · split at h
      · next hall =>
        injection h with hbound
        exact .inl ⟨hbound.symm, hall⟩
      · cases h
    · split at h
      · next hall =>
        injection h with hbound
        exact .inl ⟨hbound.symm, hall⟩
      · cases h
    · exact .inr (hsome h)
  unfold Language.boundValue at h
  simp only at h
  split at h
  · exact hfallback h
  · exact hfallback h
  · obtain ⟨value, -, hrest⟩ := Checked.bind_eq_ok.1 h
    exact .inr (hsome hrest)

theorem get_assign (h : param.name ≠ Template.protoName) :
    Assoc.get (out.assign param.name value).own name =
    if name = param.name then some value else Assoc.get out.own name := by
  rw [Record.assign, if_neg h]
  exact get_setOwn

theorem own_assign_proto : (out.assign Template.protoName value).own = out.own := by
  rw [Record.assign, if_pos rfl]
  split <;> rfl

/-- Any other name than `__proto__` is bound by an assignment, and no other one with it. -/
theorem mem_own_assign : name ∈ (out.assign param.name value).own.map Prod.fst ↔
    (name = param.name ∧ name ≠ Template.protoName) ∨ name ∈ out.own.map Prod.fst := by
  by_cases h : param.name = Template.protoName
  · rw [h, own_assign_proto]
    simp
  · rw [Record.assign, if_neg h, mem_names_setOwn]
    refine or_congr ⟨fun heq => ⟨heq, heq ▸ h⟩, fun heq => heq.1⟩ Iff.rfl

/-- The loop binds what was bound before, and names of the parameters but `__proto__` : all of them
where all are required. -/
theorem bindFrom_names (h : L.bindFrom given requireAll constraints schema out = .ok params) :
    (∀ name ∈ out.own.map Prod.fst, name ∈ params.own.map Prod.fst) ∧
    (∀ name ∈ params.own.map Prod.fst, name ∈ out.own.map Prod.fst ∨
      (name ∈ schema.map ProcessParameter.name ∧ name ≠ Template.protoName)) ∧
    (requireAll = true → ∀ param ∈ schema, param.name ≠ Template.protoName →
      param.name ∈ params.own.map Prod.fst) := by
  induction schema generalizing out with
  | nil =>
    injection h with h
    subst h
    exact ⟨fun _ h => h, fun _ h => .inl h, fun _ param hparam => absurd hparam List.not_mem_nil⟩
  | cons first schema ih =>
    obtain ⟨bound, hbound, hrest⟩ := Checked.bind_eq_ok.1 h
    rcases boundValue_ok hbound with ⟨rfl, hall⟩ | ⟨value, rfl, -⟩
    · obtain ⟨hkept, hnames, -⟩ := ih hrest
      refine ⟨hkept, fun name hname => ?_, fun hno => absurd (hall.symm.trans hno) (by decide)⟩
      exact (hnames name hname).imp_right fun h => ⟨List.mem_cons_of_mem _ h.1, h.2⟩
    · obtain ⟨hkept, hnames, hall⟩ := ih hrest
      refine ⟨fun name hname => hkept name (mem_own_assign.2 (.inr hname)), fun name hname => ?_,
        fun hreq param hparam hne => ?_⟩
      · rcases hnames name hname with hname | ⟨hname, hne⟩
        · rcases mem_own_assign.1 hname with ⟨rfl, hne⟩ | hname
          · exact .inr ⟨List.mem_cons_self, hne⟩
          · exact .inl hname
        · exact .inr ⟨List.mem_cons_of_mem _ hname, hne⟩
      · rcases List.mem_cons.1 hparam with rfl | hparam
        · exact hkept _ (mem_own_assign.2 (.inl ⟨rfl, hne⟩))
        · exact hall hreq param hparam hne

/-- The loop binds no value that is refused. -/
theorem bindFrom_checked (h : L.bindFrom given requireAll constraints schema out = .ok params)
    (hout : ∀ name value, Assoc.get out.own name = some value → L.checked constraints value name = .ok ()) :
    ∀ name value, Assoc.get params.own name = some value → L.checked constraints value name = .ok () := by
  induction schema generalizing out with
  | nil =>
    injection h with h
    rwa [← h]
  | cons first schema ih =>
    obtain ⟨bound, hbound, hrest⟩ := Checked.bind_eq_ok.1 h
    rcases boundValue_ok hbound with ⟨rfl, -⟩ | ⟨value, rfl, hvalue⟩
    · exact ih hrest hout
    · refine ih hrest fun name value' hget => ?_
      by_cases hproto : first.name = Template.protoName
      · rw [hproto, own_assign_proto] at hget
        exact hout name value' hget
      · rw [get_assign hproto] at hget
        split at hget
        · next heq =>
          rw [heq, ← Option.some.inj hget]
          exact hvalue
        · exact hout name value' hget

end Bound

/-- Where the parameters are bound, what was bound meets the contract exactly if no parameter is
named `__proto__` or not all are required. Where it fails, nothing is bound. -/
theorem bindWorkflowParameters_iff (L : Language N R) (schema : List (ProcessParameter N))
    (supplied : Option (List (JsString × Datum N))) (opts : Option (Options N)) :
    (∀ params, L.bindWorkflowParameters schema supplied opts = .ok params →
      (Contract L schema ((opts.bind Options.requireAll).getD true) (opts.bind Options.constraints) params ↔
        ((opts.bind Options.requireAll).getD true = true → ∀ param ∈ schema,
          param.name ≠ Template.protoName))) ∧
    ∀ error, L.bindWorkflowParameters schema supplied opts = .failed error →
      (L.bindWorkflowParameters schema supplied opts).value = none := by
  refine ⟨fun params h => ?_, fun error h => by rw [h]; rfl⟩
  obtain ⟨-, hnames, hall⟩ := bindFrom_names h
  have hchecked := bindFrom_checked h fun name value hget => absurd hget (by simp [Assoc.get, Table.find])
  constructor
  · intro hcontract hreq param hparam hproto
    rcases hnames param.name (hcontract.required hreq param hparam) with hmem | ⟨-, hne⟩
    · exact absurd hmem List.not_mem_nil
    · exact hne hproto
  · intro hproto
    refine ⟨fun name hname => ?_, fun hreq param hparam =>
      hall hreq param hparam (hproto hreq param hparam),
      fun name value c hget hc => ?_⟩
    · exact (hnames name hname).elim (fun hmem => absurd hmem List.not_mem_nil) And.left
    · have hvalue := hchecked name value hget
      rwa [Language.checked, hc] at hvalue

/-- A language with whole numbers only, and neither patterns nor dates. -/
def wholeNumbers : Language ℤ Unit where
  number _ := 0
  isFinite _ := true
  lt m n := m < n
  same m n := m = n
  numberText := writeInt
  compile _ := none
  test _ _ := false
  isDate _ := false
  text
    | .string s => some s
    | _ => none

/-- A text that its constraint lists, under the name `n`. -/
theorem bindWorkflowParameters_listed :
    let schema : List (ProcessParameter ℤ) := [⟨[0x6E], .string, none⟩]
    let constraints : Option (List (JsString × ParamConstraint ℤ)) :=
      some [([0x6E], ⟨some [.string [0x78]], none, none, none⟩)]
    Contract wholeNumbers schema true constraints ⟨[([0x6E], .string [0x78])], none⟩ :=
  ((bindWorkflowParameters_iff wholeNumbers [⟨[0x6E], .string, none⟩] (some [([0x6E], .string [0x78])])
    (some ⟨none, some [([0x6E], ⟨some [.string [0x78]], none, none, none⟩)]⟩)).1 _ rfl).2
      fun _ param hparam => by
        rw [List.mem_singleton.1 hparam]
        exact fun heq => absurd (congrArg List.length heq) (by decide +kernel)

/-- A text supplied for a parameter `__proto__`. -/
theorem not_contract_proto : ∃ params : Record ℤ,
    wholeNumbers.bindWorkflowParameters [⟨Template.protoName, .string, none⟩]
      (some [(Template.protoName, .string [0x78])]) none = .ok params ∧
    ¬ Contract wholeNumbers [⟨Template.protoName, .string, none⟩] true none params := by
  refine ⟨⟨[], none⟩, ?_, fun hcontract => ?_⟩
  · simp [Language.bindWorkflowParameters, Language.bindFrom, Language.boundValue, Language.coerceParam,
      Language.checked, constraintOf, Record.assign, Datum.isProto, Checked.bind, Assoc.get, Table.find]
  · exact absurd (hcontract.required rfl _ List.mem_cons_self) List.not_mem_nil

end Lynox.Parameters
