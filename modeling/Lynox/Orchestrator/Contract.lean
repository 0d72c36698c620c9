import Lynox.Orchestrator.Template

/-!
# A capability contract and the parameters of the steps

A contract grants an unattended workflow its writes, and every parameter that flows into a tool call
must be constrained by it. `validateContractAgainstSteps` finds the parameters in the steps'
templates by a pattern of its own (`paramRef`), which takes a name up to the next point, brace or
white space. A placeholder with such a name is found wherever the run resolves one
(`mem_paramNames`), since both patterns end at a closing brace.

The run reads more placeholders than that : the whole `params`, and a name that is empty or has
white space in it. A contract that is valid leaves no parameter free where the templates have none
of these (`no_parameter_free_iff`), and `{{params}}` is one that leaves all of them free.
-/

namespace Lynox.Template

open Text

/-! ## The contract -/

/-- What a parameter's value must be when it is bound. A bound is a number. -/
structure ParamConstraint where
  enum : Option (List Value)
  regex : Option JsString
  min : Option Value
  max : Option Value

def isEffectiveConstraint : Option ParamConstraint → Bool
  | none => false
  | some c => (match c.enum with | none => false | some values => !values.isEmpty) ||
      c.regex.isSome || c.min.isSome || c.max.isSome

inductive ContractOrigin
  | authorship
  | reviewed
  deriving DecidableEq

structure CapabilityContract where
  version : Value
  origin : Option ContractOrigin
  grantedTools : List JsString
  httpMethods : List JsString
  hostPatterns : List JsString
  pathPatterns : List JsString
  paramConstraints : List (JsString × Option ParamConstraint)

/-- The names of the parameters with an effective constraint. -/
def CapabilityContract.constrained (contract : CapabilityContract) : List JsString :=
  (contract.paramConstraints.filter fun c => isEffectiveConstraint c.2).map Prod.fst

/-! ## The parameters a template refers to -/

/-- The units up to a point, a closing brace or white space. -/
def nameOf (s : JsString) : JsString :=
  s.takeWhile fun u => u ≠ 0x2E && u ≠ 0x7D && !isWhite u

def paramsDot : JsString :=
  utf16 "params."

/-- `\s*params\.([^.}\s]+)`, behind the braces. -/
def paramName (s : JsString) : Option JsString :=
  if paramsDot.isPrefixOf (s.dropWhile isWhite) ∧ nameOf ((s.dropWhile isWhite).drop 7) ≠ [] then
    some (nameOf ((s.dropWhile isWhite).drop 7))
  else none

/-- `PARAM_REF`. -/
def paramRef : Pattern JsString
  | 0x7B :: 0x7B :: s =>
    (paramName s).map fun name => (name, s.length - (s.dropWhile isWhite).length + 8 + name.length)
  | _ => none

mutual

/-- The names the pattern finds in the texts of a template. -/
def paramNames : Value → List JsString
  | .string s => matchAll paramRef s
  | .array items => paramNamesOfItems items
  | .object fields => paramNamesOfFields fields
  | _ => []

def paramNamesOfItems : List Value → List JsString
  | [] => []
  | item :: items => paramNames item ++ paramNamesOfItems items

def paramNamesOfFields : List (JsString × Value) → List JsString
  | [] => []
  | (_, value) :: fields => paramNames value ++ paramNamesOfFields fields

end

/-- A step as it is stored. -/
abbrev Step := Fields

def inputTemplate (step : Step) : Option Value :=
  Assoc.get step (utf16 "input_template")

def paramsReferencedInTemplate (template : Option Value) : List JsString :=
  match template with
  | none => []
  | some template => (paramNames template).eraseDups

/-! ## Validation -/

/-- The two checks of a contract that read no parameter : the shape of a reviewed grant, and hosts
that match nearly any host. -/
structure Checks where
  reviewedContractShapeError : CapabilityContract → List Step → Option JsString
  isOverbroadHostPattern : JsString → Bool

inductive Refusal
  | shape (error : JsString)
  | overbroadHosts (hosts : List JsString)
  | unconstrained (params : List JsString)

/-- The parameters the steps' templates refer to and the contract does not constrain. -/
def unconstrainedParams (contract : CapabilityContract) (steps : List Step) : List JsString :=
  ((steps.flatMap fun step => paramsReferencedInTemplate (inputTemplate step)).eraseDups).filter
    fun p => p ∉ contract.constrained

def validateContractAgainstSteps (checks : Checks) (capabilityContract : Option CapabilityContract)
    (steps : List Step) : Option Refusal :=
  match capabilityContract with
  | none => none
  | some contract =>
    let shapeError := if contract.origin = some .reviewed then
      checks.reviewedContractShapeError contract steps else none
    match shapeError with
    | some error => some (.shape error)
    | none =>
      if contract.hostPatterns.filter checks.isOverbroadHostPattern ≠ [] then
        some (.overbroadHosts (contract.hostPatterns.filter checks.isOverbroadHostPattern))
      else if unconstrainedParams contract steps ≠ [] then
        some (.unconstrained (unconstrainedParams contract steps))
      else none

variable {B : Type*}

/-- Every parameter the pattern finds in the steps of a valid contract is constrained. -/
theorem constrained_of_valid {checks : Checks} {contract : CapabilityContract} {steps : List Step}
    (h : validateContractAgainstSteps checks (some contract) steps = none) {step : Step}
    (hstep : step ∈ steps) {template : Value} (htemplate : inputTemplate step = some template)
    {name : JsString} (hname : name ∈ paramNames template) : name ∈ contract.constrained := by
  unfold validateContractAgainstSteps at h
  simp only at h
  split at h
  · exact absurd h (by simp)
  · split_ifs at h with hhosts hparams
    by_contra hnot
    refine List.not_mem_nil (a := name) ?_
    rw [← not_ne_iff.mp hparams]
    refine List.mem_filter.mpr ⟨List.mem_eraseDups.mpr (List.mem_flatMap.mpr ⟨step, hstep, ?_⟩),
      by simpa using hnot⟩
    rw [htemplate]
    exact List.mem_eraseDups.mpr hname

/-! ## The placeholders between closing braces -/

/-- The text behind the first two opening braces that have some behind them. -/
def opened : JsString → Option JsString
  | 0x7B :: 0x7B :: u :: s => some (u :: s)
  | _ :: s => opened s
  | [] => none

theorem bodyOf_of_notMem {s : JsString} (h : 0x7D ∉ s) : bodyOf s = s :=
  List.takeWhile_eq_self_iff.mpr fun u hu => by
    have hne : u ≠ 0x7D := fun heq => h (heq ▸ hu)
    simpa using hne

theorem bodyOf_append {s : JsString} (h : 0x7D ∉ s) (t : JsString) : bodyOf (s ++ 0x7D :: t) = s := by
  unfold bodyOf
  rw [List.takeWhile_append_of_pos fun u hu => by
    have hne : u ≠ 0x7D := fun heq => h (heq ▸ hu)
    simpa using hne]
  simp

/-- Without a closing brace there is no placeholder. -/
theorem matchAll_placeholder_of_notMem {s : JsString} (h : 0x7D ∉ s) :
    matchAll placeholder s = [] := by
  induction s with
  | nil => rfl
  | cons u s ih =>
    have hnone : placeholder (u :: s) = none := by
      unfold placeholder
      split
      · rename_i s' heq
        obtain ⟨rfl, rfl⟩ := List.cons.inj heq
        have hs' : 0x7D ∉ s' := fun hmem => h (by simp [hmem])
        rw [bodyOf_of_notMem hs', List.drop_length]
        exact if_neg (by simp)
      · rfl
    rw [matchAll_of_none hnone]
    exact ih fun hmem => h (List.mem_cons_of_mem u hmem)

theorem placeholder_opened {s : JsString} (h : 0x7D ∉ s) (hne : s ≠ []) (t : JsString) :
    placeholder (0x7B :: 0x7B :: (s ++ 0x7D :: t)) =
      if t.head? = some 0x7D then some (s, s.length + 3) else none := by
  unfold placeholder
  simp only
  rw [bodyOf_append h, List.drop_left]
  cases t with
  | nil => simp
  | cons u t =>
    by_cases hu : u = 0x7D
    · simp [hu, hne]
    · have hu' : ¬ 0x7D = u := fun heq => hu heq.symm
      simp [hu, hu']

/-- Where the braces open nothing, no placeholder begins. -/
theorem placeholder_unopened {u : UInt16} {s : JsString}
    (hnone : ∀ v s', u = 0x7B → s = 0x7B :: v :: s' → False) (t : JsString) :
    placeholder (u :: (s ++ 0x7D :: t)) = none := by
  unfold placeholder
  split
  · rename_i s'' heq
    obtain ⟨hu, hs⟩ := List.cons.inj heq
    rcases s with _ | ⟨v, _ | ⟨w, s⟩⟩
    · exact absurd (List.cons.inj hs).1 (by decide)
    · rw [← (List.cons.inj hs).2]
      exact if_neg fun hbody => hbody.1 rfl
    · exact absurd (by rw [(List.cons.inj hs).1]) (hnone w s hu)
  · rfl

/-- Two closing braces end the placeholder that was opened before them. -/
theorem matchAll_placeholder_closed {s : JsString} (h : 0x7D ∉ s) (t : JsString) :
    matchAll placeholder (s ++ 0x7D :: 0x7D :: t) = (opened s).toList ++ matchAll placeholder t := by
  fun_induction opened s with
  | case1 u s =>
    have hopened := placeholder_opened (fun hmem => h (by simp [hmem]) : 0x7D ∉ u :: s)
      (List.cons_ne_nil u s) (0x7D :: t)
    rw [List.head?_cons, if_pos rfl] at hopened
    rw [List.cons_append, List.cons_append, matchAll_of_some hopened]
    simp
  | case2 u s hnone ih =>
    have hplain := placeholder_unopened (fun v s' hu hs => hnone v s' hu hs) (0x7D :: t)
    rw [List.cons_append, matchAll_of_none hplain]
    exact ih fun hmem => h (List.mem_cons_of_mem u hmem)
  | case3 =>
    rw [List.nil_append, matchAll_of_none rfl, matchAll_of_none rfl]
    rfl

/-- One closing brace ends none. -/
theorem matchAll_placeholder_unclosed {s : JsString} (h : 0x7D ∉ s) {t : JsString}
    (ht : t.head? ≠ some 0x7D) : matchAll placeholder (s ++ 0x7D :: t) = matchAll placeholder t := by
  induction s with
  | nil => rw [List.nil_append, matchAll_of_none rfl]
  | cons u s ih =>
    have hnone : placeholder (u :: (s ++ 0x7D :: t)) = none := by
      by_cases hopens : ∃ v s', u = 0x7B ∧ s = 0x7B :: v :: s'
      · obtain ⟨v, s', rfl, rfl⟩ := hopens
        have hopened := placeholder_opened (fun hmem => h (by simp [hmem]) : 0x7D ∉ v :: s')
          (List.cons_ne_nil v s') t
        rw [if_neg ht] at hopened
        exact hopened
      · exact placeholder_unopened (fun v s' hu hs => hopens ⟨v, s', hu, hs⟩) t
    rw [List.cons_append, matchAll_of_none hnone]
    exact ih fun hmem => h (List.mem_cons_of_mem u hmem)

/-! ## The pattern finds the names the run resolves -/

/-- What begins with `w` does so before a unit `w` has not. -/
theorem isPrefixOf_append {w s t : JsString} {c : UInt16} (hc : c ∉ w) :
    w.isPrefixOf (s ++ c :: t) = w.isPrefixOf s := by
  induction w generalizing s with
  | nil => cases s <;> rfl
  | cons v w ih =>
    have hv : v ≠ c := fun heq => hc (by rw [heq]; exact List.mem_cons_self)
    cases s with
    | nil => simp [List.isPrefixOf, hv]
    | cons u s =>
      simp only [List.cons_append, List.isPrefixOf]
      rw [ih fun hmem => hc (List.mem_cons_of_mem v hmem)]

theorem dropWhile_white_append (s t : JsString) :
    (s ++ 0x7D :: t).dropWhile isWhite = s.dropWhile isWhite ++ 0x7D :: t := by
  induction s with
  | nil => rfl
  | cons u s ih =>
    rw [List.cons_append, List.dropWhile_cons, List.dropWhile_cons]
    split_ifs
    · exact ih
    · rfl

theorem nameOf_append (s t : JsString) : nameOf (s ++ 0x7D :: t) = nameOf s := by
  unfold nameOf
  induction s with
  | nil => rfl
  | cons u s ih =>
    rw [List.cons_append, List.takeWhile_cons, List.takeWhile_cons, ih]

/-- A closing brace behind the braces' text decides no name. -/
theorem paramName_append (s t : JsString) : paramName (s ++ 0x7D :: t) = paramName s := by
  unfold paramName
  rw [dropWhile_white_append, isPrefixOf_append (by decide)]
  by_cases hprefix : paramsDot.isPrefixOf (s.dropWhile isWhite) = true
  · have hlen : 7 ≤ (s.dropWhile isWhite).length :=
      (List.isPrefixOf_iff_prefix.mp hprefix).length_le
    rw [List.drop_append_of_le_length hlen, nameOf_append]
  · rw [if_neg fun h => hprefix h.1, if_neg fun h => hprefix h.1]

theorem paramName_length {s name : JsString} (h : paramName s = some name) :
    name.length + 7 ≤ (s.dropWhile isWhite).length := by
  unfold paramName at h
  split_ifs at h with hname
  have hlen : 7 ≤ (s.dropWhile isWhite).length :=
    (List.isPrefixOf_iff_prefix.mp hname.1).length_le
  have htake : (nameOf ((s.dropWhile isWhite).drop 7)).length ≤ ((s.dropWhile isWhite).drop 7).length :=
    (List.takeWhile_sublist _).length_le
  rw [← Option.some.inj h]
  rw [List.length_drop] at htake
  omega

theorem length_dropWhile_le (s : JsString) : (s.dropWhile isWhite).length ≤ s.length :=
  (List.dropWhile_sublist _).length_le

/-- No match of the pattern goes beyond a closing brace. -/
theorem within_paramRef : Within 0x7D paramRef where
  head t := rfl
  cut u s t := by
    rcases s with _ | ⟨v, s⟩
    · unfold paramRef
      simp
    · by_cases hbraces : u = 0x7B ∧ v = 0x7B
      · obtain ⟨rfl, rfl⟩ := hbraces
        have hle := length_dropWhile_le s
        have hlen : (s ++ 0x7D :: t).length - (s.dropWhile isWhite ++ 0x7D :: t).length =
            s.length - (s.dropWhile isWhite).length := by
          simp only [List.length_append, List.length_cons]
          omega
        simp only [paramRef, List.cons_append]
        rw [paramName_append, dropWhile_white_append, hlen]
      · have hnone : ∀ s' : JsString, paramRef (u :: v :: s') = none := by
          intro s'
          unfold paramRef
          split
          · rename_i heq
            obtain ⟨hu, hs⟩ := List.cons.inj heq
            exact absurd ⟨hu, (List.cons.inj hs).1⟩ hbraces
          · rfl
        rw [List.cons_append, hnone, hnone]
  short := by
    intro u s name n h
    unfold paramRef at h
    split at h
    · rename_i s' heq
      obtain ⟨rfl, rfl⟩ := List.cons.inj heq
      obtain ⟨found, hfound, heq'⟩ := Option.map_eq_some_iff.mp h
      obtain ⟨rfl, rfl⟩ := Prod.mk.inj heq'
      have hname := paramName_length hfound
      have hle := length_dropWhile_le s'
      simp only [List.length_cons]
      omega
    · exact absurd h (by simp)

/-- A name a pattern reads whole : it is not empty and has no white space. -/
def Legible (name : JsString) : Prop :=
  name ≠ [] ∧ ∀ u ∈ name, isWhite u = false

theorem nameOf_legible {name rest : JsString} (hname : ∀ u ∈ name, isWhite u = false)
    (hpoint : 0x2E ∉ name) (hbrace : 0x7D ∉ name)
    (hrest : ∀ u, rest.head? = some u → u = 0x2E ∨ isWhite u = true) :
    nameOf (name ++ rest) = name := by
  unfold nameOf
  rw [List.takeWhile_append_of_pos fun u hu => by
    have hu₁ : u ≠ 0x2E := fun heq => hpoint (heq ▸ hu)
    have hu₂ : u ≠ 0x7D := fun heq => hbrace (heq ▸ hu)
    simp [hu₁, hu₂, hname u hu]]
  cases rest with
  | nil => simp
  | cons u rest =>
    rcases hrest u rfl with rfl | hwhite
    · simp
    · simp [hwhite]

/-- The text in the braces leads to a parameter of the name it is split to. -/
theorem paramName_of_split {rawPath name : JsString} {names : List JsString}
    (hbrace : 0x7D ∉ rawPath) (hsplit : split 0x2E (trim rawPath) = paramsName :: name :: names)
    (hlegible : Legible name) : paramName rawPath = some name := by
  obtain ⟨-, ⟨habs, -⟩ | ⟨tail, htail, hnames⟩⟩ := split_cons hsplit
  · exact absurd habs (by simp)
  obtain ⟨hpoint, hname⟩ := split_cons hnames
  obtain ⟨blank, hblank, hdrop⟩ := exists_trim_append rawPath
  have hrest : ∃ rest, tail ++ blank = name ++ rest ∧
      ∀ u, rest.head? = some u → u = 0x2E ∨ isWhite u = true := by
    rcases hname with ⟨-, rfl⟩ | ⟨more, rfl, -⟩
    · exact ⟨blank, rfl, fun u hu => Or.inr (hblank u (List.mem_of_head? hu))⟩
    · exact ⟨0x2E :: more ++ blank, by simp, fun u hu => Or.inl (by simpa using hu.symm)⟩
  obtain ⟨rest, htext, hrest⟩ := hrest
  have hraw : rawPath.dropWhile isWhite = paramsDot ++ (name ++ rest) := by
    rw [hdrop, htail, ← htext]
    simp [paramsName, paramsDot, utf16]
    rfl
  have hclosed : 0x7D ∉ name := fun hmem => hbrace
    ((List.dropWhile_sublist isWhite).mem (by rw [hraw]; simp [hmem]))
  have hname : nameOf ((paramsDot ++ (name ++ rest)).drop 7) = name :=
    nameOf_legible hlegible.2 hpoint hclosed hrest
  unfold paramName
  rw [hraw, hname, if_pos ⟨List.isPrefixOf_iff_prefix.mpr (List.prefix_append _ _), hlegible.1⟩]

theorem mem_paramRef_of_opened {s rawPath name : JsString} (hopened : opened s = some rawPath)
    (hname : paramName rawPath = some name) : name ∈ matchAll paramRef s := by
  fun_induction opened s with
  | case1 u s =>
    have hmatch : ∃ n, paramRef (0x7B :: 0x7B :: u :: s) = some (name, n) :=
      ⟨_, by rw [paramRef, Option.some.inj hopened, hname]; rfl⟩
    obtain ⟨n, hmatch⟩ := hmatch
    rw [matchAll_of_some hmatch]
    exact List.mem_cons_self
  | case2 u s hnone ih =>
    have hplain : paramRef (u :: s) = none := by
      unfold paramRef
      split
      · rename_i s' heq
        obtain ⟨hu, hs⟩ := List.cons.inj heq
        cases s' with
        | nil => rfl
        | cons v s' => exact absurd hs (hnone v s' hu)
      · rfl
    rw [matchAll_of_none hplain]
    exact ih hopened
  | case3 => exact absurd hopened (by simp)

theorem notMem_of_opened {s rawPath : JsString} (h : 0x7D ∉ s) (hopened : opened s = some rawPath) :
    0x7D ∉ rawPath := by
  fun_induction opened s with
  | case1 u s =>
    rw [← Option.some.inj hopened]
    exact fun hmem => h (by simp [hmem])
  | case2 u s _ ih => exact ih (fun hmem => h (List.mem_cons_of_mem u hmem)) hopened
  | case3 => exact absurd hopened (by simp)

/-- Every placeholder of a text that leads to a parameter of a legible name is found. -/
theorem mem_paramRef {s rawPath name : JsString} {names : List JsString}
    (hraw : rawPath ∈ matchAll placeholder s)
    (hsplit : split 0x2E (trim rawPath) = paramsName :: name :: names) (hlegible : Legible name) :
    name ∈ matchAll paramRef s := by
  induction hlen : s.length using Nat.strong_induction_on generalizing s with
  | _ k ih =>
    by_cases hbrace : 0x7D ∈ s
    · -- the texts up to the first closing brace and behind it
      obtain ⟨r, t, rfl, hr⟩ := List.eq_append_cons_of_mem hbrace
      rw [matchAll_append within_paramRef]
      by_cases ht : t.head? = some 0x7D
      · obtain ⟨t, rfl⟩ : ∃ t', t = 0x7D :: t' := ⟨t.tail, (List.cons_head?_tail ht).symm⟩
        rw [matchAll_placeholder_closed hr] at hraw
        rcases List.mem_append.mp hraw with hopened | hraw
        · have hopened := Option.mem_toList.mp hopened
          exact List.mem_append_left _ (mem_paramRef_of_opened hopened
            (paramName_of_split (notMem_of_opened hr hopened) hsplit hlegible))
        · rw [matchAll_of_none rfl]
          exact List.mem_append_right _ (ih _ (by rw [← hlen]; simp; omega) hraw rfl)
      · rw [matchAll_placeholder_unclosed hr ht] at hraw
        exact List.mem_append_right _ (ih _ (by rw [← hlen]; simp; omega) hraw rfl)
    · rw [matchAll_placeholder_of_notMem hbrace] at hraw
      exact absurd hraw List.not_mem_nil

mutual

theorem mem_paramNames {path name : JsString} {names : List JsString} :
    ∀ {v : Value}, path ∈ reads v → split 0x2E path = paramsName :: name :: names → Legible name →
      name ∈ paramNames v
  | .null, h, _, _ => absurd h List.not_mem_nil
  | .bool _, h, _, _ => absurd h List.not_mem_nil
  | .number _ _, h, _, _ => absurd h List.not_mem_nil
  | .string s, h, hsplit, hlegible => by
    obtain ⟨rawPath, hraw, rfl⟩ := List.mem_map.mp h
    exact mem_paramRef hraw hsplit hlegible
  | .array items, h, hsplit, hlegible => mem_paramNamesOfItems h hsplit hlegible
  | .object fields, h, hsplit, hlegible => mem_paramNamesOfFields h hsplit hlegible

theorem mem_paramNamesOfItems {path name : JsString} {names : List JsString} :
    ∀ {items : List Value}, path ∈ readsItems items →
      split 0x2E path = paramsName :: name :: names → Legible name → name ∈ paramNamesOfItems items
  | [], h, _, _ => absurd h List.not_mem_nil
  | item :: items, h, hsplit, hlegible => by
    rcases List.mem_append.mp h with h | h
    · exact List.mem_append_left _ (mem_paramNames h hsplit hlegible)
    · exact List.mem_append_right _ (mem_paramNamesOfItems h hsplit hlegible)

theorem mem_paramNamesOfFields {path name : JsString} {names : List JsString} :
    ∀ {fields : List (JsString × Value)}, path ∈ readsFields fields →
      split 0x2E path = paramsName :: name :: names → Legible name → name ∈ paramNamesOfFields fields
  | [], h, _, _ => absurd h List.not_mem_nil
  | (field, value) :: fields, h, hsplit, hlegible => by
    rcases List.mem_append.mp h with h | h
    · cases hdropped : dropped field value with
      | true => rw [hdropped] at h; exact absurd h List.not_mem_nil
      | false =>
        rw [hdropped] at h
        exact List.mem_append_left _ (mem_paramNames h hsplit hlegible)
    · exact List.mem_append_right _ (mem_paramNamesOfFields h hsplit hlegible)

end

/-! ## What a valid contract leaves free -/

/-- A path the pattern finds no constrained name for : the whole `params`, or a parameter without a
constraint whose name is empty or has white space in it. -/
def Overlooked (contract : CapabilityContract) (path : JsString) : Prop :=
  split 0x2E path = [paramsName] ∨ ∃ name names, split 0x2E path = paramsName :: name :: names ∧
    ¬ Legible name ∧ name ∉ contract.constrained

/-- A parameter without an effective constraint. -/
def CapabilityContract.free (contract : CapabilityContract) (name : JsString) : Bool :=
  name ∉ contract.constrained

theorem exists_free (contract : CapabilityContract) : ∃ name, contract.free name = true := by
  obtain ⟨name, hname⟩ := Infinite.exists_notMem_finset contract.constrained.toFinset
  exact ⟨name, by simpa [CapabilityContract.free] using hname⟩

/-- Of the paths in the steps of a valid contract, those are steady that are not overlooked. -/
theorem steady_iff {checks : Checks} {contract : CapabilityContract} {steps : List Step}
    (h : validateContractAgainstSteps checks (some contract) steps = none) {step : Step}
    (hstep : step ∈ steps) {template : Value} (htemplate : inputTemplate step = some template)
    {path : JsString} (hpath : path ∈ reads template) :
    Steady [] contract.free path ↔ ¬ Overlooked contract path := by
  constructor
  · rintro hsteady (hwhole | ⟨name, names, hsplit, -, hname⟩)
    · obtain ⟨param, hparam⟩ := exists_free contract
      have hall := (hsteady _ _ hwhole).2 rfl param
      rw [hparam] at hall
      exact absurd hall (by decide)
    · have hfree := (hsteady _ _ hsplit).2 rfl
      exact hname (by simpa [CapabilityContract.free] using hfree)
  · intro hnot name names hsplit
    refine ⟨List.not_mem_nil, fun hname => ?_⟩
    rw [hname] at hsplit
    cases names with
    | nil => exact absurd (Or.inl hsplit) hnot
    | cons param rest =>
      have hconstrained : param ∈ contract.constrained := by
        by_contra hfree
        refine hnot (Or.inr ⟨param, rest, hsplit, fun hlegible => hfree ?_, hfree⟩)
        exact constrained_of_valid h hstep htemplate (mem_paramNames hpath hsplit hlegible)
      simpa [CapabilityContract.free] using hconstrained

/-- The steps of a valid contract make the same tool calls in every two contexts that differ in the
values of parameters without an effective constraint, exactly where no template holds a placeholder
of the whole `params`, or of such a parameter with an empty name or white space in it. -/
theorem no_parameter_free_iff (E : Builtins B) (checks : Checks) (contract : CapabilityContract)
    (steps : List Step) (h : validateContractAgainstSteps checks (some contract) steps = none) :
    (∀ step ∈ steps, ∀ template, inputTemplate step = some template →
      ∀ context context', Alike [] contract.free context context' →
        E.resolveInputTemplate template context = E.resolveInputTemplate template context') ↔
      ∀ step ∈ steps, ∀ template, inputTemplate step = some template →
        ∀ path ∈ reads template, ¬ Overlooked contract path := by
  refine forall₂_congr fun step hstep => forall₂_congr fun template htemplate => ?_
  rw [resolveInputTemplate_same_iff]
  exact forall₂_congr fun path hpath => steady_iff h hstep htemplate hpath

/-! ## A valid contract, and one that leaves everything free -/

/-- Nothing is inherited. -/
def plainBuiltins : Builtins Empty :=
  ⟨fun _ _ => none, nofun, nofun⟩

/-- No grant has a wrong shape, and no host is too broad. -/
def lenientChecks : Checks :=
  ⟨fun _ _ => none, fun _ => false⟩

/-- A contract with a constraint on each of some parameters. -/
def contractOn (names : List JsString) : CapabilityContract where
  version := .number 1 0
  origin := none
  grantedTools := [utf16 "http_request"]
  httpMethods := [utf16 "POST"]
  hostPatterns := [utf16 "api.example.com"]
  pathPatterns := [utf16 "/orders"]
  paramConstraints := names.map fun name => (name, some ⟨none, some (utf16 "[0-9]+"), none, none⟩)

/-- A step whose call has one text for its body. -/
def stepWith (body : JsString) : Step :=
  [(utf16 "id", .string (utf16 "s1")), (utf16 "task", .string []),
    (utf16 "input_template", .object [(utf16 "body", .string body)])]

/-- The parameters of a run : the order it is about, and a note. -/
def orderRun (note : JsString) : Fields :=
  [(paramsName, .object [(utf16 "order", .string (utf16 "17")), (utf16 "note", .string note)])]

theorem alike_orderRun (note note' : JsString) :
    Alike [] (contractOn [utf16 "order"]).free (orderRun note) (orderRun note') := by
  refine ⟨fun name hname _ => ?_, fun _ => ⟨_, _, rfl, rfl, rfl⟩⟩
  rw [orderRun, orderRun, get_object_cons_of_ne hname.symm, get_object_cons_of_ne hname.symm]

theorem order_call_settled : plainBuiltins.resolveInputTemplate
      (.object [(utf16 "body", .string (utf16 "order \x7b\x7b params.order \x7d\x7d is paid"))])
        (orderRun (utf16 "a")) =
    plainBuiltins.resolveInputTemplate
      (.object [(utf16 "body", .string (utf16 "order \x7b\x7b params.order \x7d\x7d is paid"))])
        (orderRun (utf16 "b")) := by
  refine (no_parameter_free_iff plainBuiltins lenientChecks (contractOn [utf16 "order"])
    [stepWith (utf16 "order \x7b\x7b params.order \x7d\x7d is paid")] (by decide)).mpr
    (fun step hstep template htemplate path hpath => ?_) _ List.mem_cons_self _ rfl _ _
    (alike_orderRun _ _)
  rw [List.mem_singleton.mp hstep] at htemplate
  obtain rfl := Option.some.inj htemplate
  have hreads : reads (.object [(utf16 "body",
      .string (utf16 "order \x7b\x7b params.order \x7d\x7d is paid"))]) =
        [utf16 "params.order"] := by decide
  rw [hreads, List.mem_singleton] at hpath
  rw [hpath]
  have hsplit : split 0x2E (utf16 "params.order") = [paramsName, utf16 "order"] := by decide
  rintro (hwhole | ⟨name, names, hname, -, hfree⟩)
  · rw [hsplit] at hwhole
    exact absurd hwhole (by decide)
  · rw [hsplit] at hname
    rw [← (List.cons.inj (List.cons.inj hname).2).1] at hfree
    exact hfree (by decide)

/-- The whole `params` in a call is no parameter to the contract. -/
theorem whole_params_left_free : ¬ ∀ (contract : CapabilityContract) (steps : List Step),
    validateContractAgainstSteps lenientChecks (some contract) steps = none →
    ∀ step ∈ steps, ∀ template, inputTemplate step = some template →
      ∀ context context', Alike [] contract.free context context' →
        plainBuiltins.resolveInputTemplate template context =
          plainBuiltins.resolveInputTemplate template context' := by
  intro hall
  have hsame := hall (contractOn []) [stepWith (utf16 "\x7b\x7bparams\x7d\x7d")] (by decide) _
    List.mem_cons_self _ rfl [(paramsName, .object [(utf16 "note", .string (utf16 "a"))])]
    [(paramsName, .object [(utf16 "note", .string (utf16 "b"))])]
    ⟨fun name hname _ => by rw [get_object_cons_of_ne hname.symm, get_object_cons_of_ne hname.symm],
      fun _ => ⟨_, _, rfl, rfl, rfl⟩⟩
  have hcall : ∀ note : Value, plainBuiltins.resolveInputTemplate
      (.object [(utf16 "body", .string (utf16 "\x7b\x7bparams\x7d\x7d"))])
        [(paramsName, .object [(utf16 "note", note)])] =
      .object [(utf16 "body", .given (.data (.object [(utf16 "note", note)])))] := fun note => rfl
  rw [hcall, hcall] at hsame
  simp only [Input.object.injEq, List.cons.injEq, Prod.mk.injEq, Input.given.injEq,
    Found.data.injEq, Value.object.injEq, Value.string.injEq, true_and, and_true] at hsame
  exact absurd hsame (by decide)

end Lynox.Template
