import Lynox.Collections.Filter
import Lynox.Data.Precedence
import Lynox.Data.Throws
import Mathlib.Algebra.GroupWithZero.Nat

/-!
# The WHERE clause of a filter

`parseFilter` writes a filter as a clause and a list of arguments, side by side. The database reads the clause with
its own precedence and the driver binds the arguments to the placeholders in order, an array as its elements
(`bindArguments`). What the clause then says of a row is what the filter means (`Filter.means`) as long as every
entry brings as many values as it has placeholders (`Filter.aligned`); otherwise some comparison is made with a value
that is not its own.
-/

namespace Lynox.Collections

open Throws Precedence

/-! ## Values -/

/-- A value of a filter; a `scalar` is one that the driver binds. -/
inductive Value (σ : Type)
  | null
  | scalar (v : σ)
  | bool (b : Bool)
  | list (vs : List (Value σ))
  | object

section Binding

variable {σ : Type}

/-- A value as the driver binds it to a placeholder; it refuses booleans and what is nested. -/
def Value.bound : Value σ → Option (Option σ)
  | .null => some none
  | .scalar v => some (some v)
  | .bool _ | .list _ | .object => none

/-- What an argument binds: an array its elements, an object named placeholders, of which there are none. -/
def Value.values : Value σ → Option (List (Option σ))
  | .list vs => vs.mapM Value.bound
  | .object => some []
  | v => v.bound.map fun x => [x]

/-- How many placeholders an argument fills. -/
def Value.width : Value σ → ℕ
  | .list vs => vs.length
  | .object => 0
  | _ => 1

def Value.isObject : Value σ → Bool
  | .object => true
  | _ => false

/-- The values of the arguments, one after the other. -/
def argumentValues : List (Value σ) → Option (List (Option σ))
  | [] => some []
  | v :: vs => v.values.bind fun xs => (argumentValues vs).map (xs ++ ·)

/-- Named placeholders may come from one object only. -/
def bindArguments (args : List (Value σ)) : Option (List (Option σ)) :=
  if args.countP Value.isObject ≤ 1 then argumentValues args else none

theorem argumentValues_append {args args' : List (Value σ)} :
    argumentValues (args ++ args') =
      (argumentValues args).bind fun xs => (argumentValues args').map (xs ++ ·) := by
  induction args with
  | nil => simp [argumentValues]
  | cons v args ih =>
    simp only [List.cons_append, argumentValues, ih]
    cases v.values with
    | none => rfl
    | some xs =>
      cases argumentValues args with
      | none => rfl
      | some ys => cases argumentValues args' <;> simp

theorem argumentValues_split {args args' : List (Value σ)} {vs : List (Option σ)}
    (h : argumentValues (args ++ args') = some vs) :
    ∃ xs ys, argumentValues args = some xs ∧ argumentValues args' = some ys ∧ vs = xs ++ ys := by
  rw [argumentValues_append] at h
  obtain ⟨xs, hxs, h⟩ := Option.bind_eq_some_iff.mp h
  obtain ⟨ys, hys, h⟩ := Option.map_eq_some_iff.mp h
  exact ⟨xs, ys, hxs, hys, h.symm⟩

theorem length_mapM_bound : ∀ {vs : List (Value σ)} {xs : List (Option σ)}, vs.mapM Value.bound = some xs →
    xs.length = vs.length
  | [], xs, h => by
    obtain rfl := Option.some.inj h
    rfl
  | v :: vs, xs, h => by
    rw [List.mapM_cons] at h
    obtain ⟨x, -, h⟩ := Option.bind_eq_some_iff.mp h
    obtain ⟨xs', hxs, h⟩ := Option.bind_eq_some_iff.mp h
    obtain rfl := Option.some.inj h
    rw [List.length_cons, List.length_cons, length_mapM_bound hxs]

theorem length_values {v : Value σ} {xs : List (Option σ)} (h : v.values = some xs) : xs.length = v.width := by
  cases v with
  | list vs => exact length_mapM_bound h
  | object =>
    obtain rfl := Option.some.inj h
    rfl
  | null =>
    obtain rfl := Option.some.inj h
    rfl
  | scalar v =>
    obtain rfl := Option.some.inj h
    rfl
  | bool b => cases h

theorem length_argumentValues : ∀ {args : List (Value σ)} {vs : List (Option σ)}, argumentValues args = some vs →
    vs.length = (args.map Value.width).sum
  | [], vs, h => by
    obtain rfl := Option.some.inj h
    rfl
  | v :: args, vs, h => by
    obtain ⟨xs, hxs, h⟩ := Option.bind_eq_some_iff.mp h
    obtain ⟨ys, hys, rfl⟩ := Option.map_eq_some_iff.mp h
    rw [List.length_append, List.map_cons, List.sum_cons, length_values hxs, length_argumentValues hys]

end Binding

/-! ## Comparisons -/

/-- A comparison of a column, after its name. -/
inductive Test
  /-- `IS NULL` -/
  | isNull
  /-- `IS NOT NULL` -/
  | notNull
  /-- `= ?` -/
  | eq
  /-- `!= ?` -/
  | neq
  /-- `> ?` -/
  | gt
  /-- `>= ?` -/
  | gte
  /-- `< ?` -/
  | lt
  /-- `<= ?` -/
  | lte
  /-- `IN (?, …, ?)` -/
  | isIn (n : ℕ)
  /-- `NOT IN (?, …, ?)` -/
  | notIn (n : ℕ)
  /-- `LIKE ?` -/
  | like
  deriving DecidableEq

def Test.arity : Test → ℕ
  | .isNull | .notNull => 0
  | .isIn n | .notIn n => n
  | _ => 1

/-- A column's name and the test after it. -/
abbrev Comparison := String × Test

/-- A comparison with the values in its placeholders. -/
abbrev Bound (σ : Type) := Comparison × List (Option σ)

def placeholders (c : Comparison) : ℕ :=
  c.2.arity

section Parse

variable {σ : Type} (validColumns : String → Bool)

def notRecognized (op : Op) : String :=
  "Filter operator \"" ++ op.name ++ "\" is not recognized. Use: $eq (equals), $neq (not equals), $gt (greater), " ++
    "$lt (less), $gte, $lte, $in (in list), $nin, $like (contains), $is_null."

/-- One operator: its test, and its arguments. -/
def parseOp : Op × Value σ → Except String (Test × List (Value σ))
  | (.eq, .null) => .ok (.isNull, [])
  | (.eq, v) => .ok (.eq, [v])
  | (.neq, .null) => .ok (.notNull, [])
  | (.neq, v) => .ok (.neq, [v])
  | (.gt, v) => .ok (.gt, [v])
  | (.gte, v) => .ok (.gte, [v])
  | (.lt, v) => .ok (.lt, [v])
  | (.lte, v) => .ok (.lte, [v])
  | (.inList, .list (v :: vs)) => .ok (.isIn (vs.length + 1), v :: vs)
  | (.inList, _) => .error "$in requires a non-empty array."
  | (.notIn, .list (v :: vs)) => .ok (.notIn (vs.length + 1), v :: vs)
  | (.notIn, _) => .error "$nin requires a non-empty array."
  | (.like, v) => .ok (.like, [v])
  | (.isNull, .bool true) => .ok (.isNull, [])
  | (.isNull, _) => .ok (.notNull, [])
  | (.other name, _) => .error (notRecognized (.other name))

/-- A field: its clauses, and its arguments. -/
def parseField (key : String) (value : FieldValue (Value σ)) :
    Except String (List (List (Token Comparison)) × List (Value σ)) :=
  if validColumns key then
    match value with
    | .operand .null => .ok ([[.atom (key, .isNull)]], [])
    | .operand v => .ok ([[.atom (key, .eq)]], [v])
    | .ops m => (m.entries.mapM parseOp).map fun outs =>
      (outs.map fun out => [.atom (key, out.1)], outs.flatMap Prod.snd)
  else .error ("No column named \"" ++ key ++ "\" in this table. Check the table schema with data_store_list.")

def groupName (conj : Bool) : String :=
  if conj then "$and" else "$or"

mutual

/-- The clauses of a filter's entries, and their arguments. -/
def parseClauses : Filter (Value σ) → Except String (List (List (Token Comparison)) × List (Value σ))
  | .nil => .ok ([], [])
  | .field key value rest => do
    let out ← parseField validColumns key value
    let out' ← parseClauses rest
    return (out.1 ++ out'.1, out.2 ++ out'.2)
  | .group conj subs rest => do
    let out ← parseSubs conj subs
    let out' ← parseClauses rest
    return ((.lparen :: (joined (if conj then .and else .or) out.1 ++ [.rparen])) :: out'.1, out.2 ++ out'.2)
  | .malformed conj _ => .error (groupName conj ++ " must be an array.")

/-- The clauses of a group's elements, and their arguments. -/
def parseSubs (conj : Bool) : Subs (Value σ) → Except String (List (List (Token Comparison)) × List (Value σ))
  | .nil => .ok ([], [])
  | .filter f rest => do
    let out ← parseClauses f
    let out' ← parseSubs conj rest
    return (joined .and out.1 :: out'.1, out.2 ++ out'.2)
  | .other _ => .error (groupName conj ++ " elements must be objects.")

end

/-- The clause of a filter, and its arguments. -/
def parseFilter (f : Filter (Value σ)) : Except String (List (Token Comparison) × List (Value σ)) :=
  (parseClauses validColumns f).map fun out => (joined .and out.1, out.2)

/-- The clause after `WHERE`, and its arguments; a filter with no entries has none. -/
def buildWhere : Filter (Value σ) → Except String (Option (List (Token Comparison) × List (Value σ)))
  | .nil => .ok none
  | f => (parseFilter validColumns f).map some

end Parse

/-! ## What a filter means -/

section Meaning

variable {σ ρ : Type}

/-- The comparison that an operator stands for, and the arguments that are its own. -/
def meant : Op → Value σ → Option (Test × List (Value σ))
  | .eq, .null => some (.isNull, [])
  | .eq, v => some (.eq, [v])
  | .neq, .null => some (.notNull, [])
  | .neq, v => some (.neq, [v])
  | .gt, v => some (.gt, [v])
  | .gte, v => some (.gte, [v])
  | .lt, v => some (.lt, [v])
  | .lte, v => some (.lte, [v])
  | .inList, .list vs => some (.isIn vs.length, vs)
  | .notIn, .list vs => some (.notIn vs.length, vs)
  | .inList, _ | .notIn, _ => none
  | .like, v => some (.like, [v])
  | .isNull, .bool true => some (.isNull, [])
  | .isNull, _ => some (.notNull, [])
  | .other _, _ => none

/-- The conditions that a field's value stands for; a plain value is compared by `$eq`. -/
def FieldValue.conditions : FieldValue (Value σ) → List (Op × Value σ)
  | .operand v => [(.eq, v)]
  | .ops m => m.entries

/-- A condition's comparison with its own values. -/
def ownComparison (key : String) (e : Op × Value σ) : Option (Bound σ) :=
  (meant e.1 e.2).bind fun out => (argumentValues out.2).map fun xs => ((key, out.1), xs)

/-- The comparisons of conditions, each with its own values. -/
def owns (key : String) (es : List (Op × Value σ)) : List (Bound σ) :=
  es.filterMap (ownComparison key)

def own (key : String) (value : FieldValue (Value σ)) : List (Bound σ) :=
  owns key value.conditions

/-- Whether a condition brings as many values as its comparison has placeholders. -/
def alignedOp (e : Op × Value σ) : Bool :=
  (meant e.1 e.2).all fun out => (out.2.map Value.width).sum = out.1.arity

def alignedField (_ : String) (value : FieldValue (Value σ)) : Bool :=
  value.conditions.all alignedOp

/-- The rows of a table : their columns, and when a comparison with given values is true of a row. -/
structure Rows (σ ρ : Type) where
  validColumns : String → Bool
  compare : Comparison → List (Option σ) → ρ → Bool
  id : ρ → ℕ

variable (T : Rows σ ρ)

/-- What a condition says of a row: the comparison with its own values, when these are as many as it has
placeholders for. -/
def Rows.meansOp (row : ρ) (key : String) (e : Op × Value σ) : Bool :=
  (ownComparison key e).any fun c => c.2.length = placeholders c.1 && T.compare c.1 c.2 row

def Rows.meansField (row : ρ) (key : String) (value : FieldValue (Value σ)) : Bool :=
  value.conditions.all (T.meansOp row key)

/-! ## What the database does -/

/-- What a clause with its arguments is to the database; `none` is a statement that it does not run. -/
def Rows.condition (w : List (Token Comparison) × List (Value σ)) : Option (Expr (Bound σ)) :=
  (bindArguments w.2).bind (read placeholders w.1)

def Rows.test (e : Expr (Bound σ)) (row : ρ) : Bool :=
  e.eval fun c => T.compare c.1 c.2 row

/-- Why nothing is deleted. -/
inductive Refusal
  | thrown (message : String)
  | database

/-- The rows that are left, and the ids of those that were deleted. -/
def Rows.deleteRecordsReturningIds (rows : List ρ) (filter : Filter (Value σ)) : Except Refusal (List ρ × List ℕ) :=
  match buildWhere T.validColumns filter with
  | .error message => .error (.thrown message)
  | .ok none =>
    .error (.thrown "A filter is required for delete operations. Use dropCollection() to remove all records.")
  | .ok (some w) =>
    match Rows.condition w with
    | none => .error .database
    | some e => .ok (rows.filter fun row => !T.test e row, (rows.filter (T.test e)).map T.id)

end Meaning

/-! ## The clause is read as it was written -/

section Reading

variable {σ ρ : Type} {validColumns : String → Bool}

theorem meant_of_parseOp {e : Op × Value σ} {out : Test × List (Value σ)} (h : parseOp e = .ok out) :
    meant e.1 e.2 = some out := by
  obtain ⟨op, v⟩ := e
  cases op with
  | eq => cases v <;> exact congrArg some (Except.ok.inj h)
  | neq => cases v <;> exact congrArg some (Except.ok.inj h)
  | isNull =>
    cases v with
    | bool b => cases b <;> exact congrArg some (Except.ok.inj h)
    | _ => exact congrArg some (Except.ok.inj h)
  | inList =>
    cases v with
    | list vs =>
      cases vs with
      | nil => cases h
      | cons v vs => exact congrArg some (Except.ok.inj h)
    | _ => cases h
  | notIn =>
    cases v with
    | list vs =>
      cases vs with
      | nil => cases h
      | cons v vs => exact congrArg some (Except.ok.inj h)
    | _ => cases h
  | other name => cases h
  | _ => exact congrArg some (Except.ok.inj h)

/-- A field's clauses and arguments come from its conditions, in their order. -/
theorem parseField_eq {key : String} {value : FieldValue (Value σ)}
    {out : List (List (Token Comparison)) × List (Value σ)} (h : parseField validColumns key value = .ok out) :
    ∃ outs, value.conditions.mapM parseOp = .ok outs ∧
      out = (outs.map fun o => [.atom (key, o.1)], outs.flatMap Prod.snd) := by
  unfold parseField at h
  split at h
  · split at h
    · exact ⟨[(.isNull, [])], rfl, (Except.ok.inj h).symm⟩
    · next v hnull =>
      refine ⟨[(.eq, [v])], ?_, (Except.ok.inj h).symm⟩
      cases v with
      | null => exact absurd rfl hnull
      | _ => rfl
    · next m =>
      cases hops : m.entries.mapM parseOp with
      | error message =>
        rw [hops] at h
        cases h
      | ok outs =>
        rw [hops] at h
        exact ⟨outs, hops, (Except.ok.inj h).symm⟩
  · cases h

theorem mapM_cons_ok {ε α β : Type} {f : α → Except ε β} {a : α} {as : List α} {bs : List β}
    (h : (a :: as).mapM f = .ok bs) : ∃ b bs', f a = .ok b ∧ as.mapM f = .ok bs' ∧ bs = b :: bs' := by
  rw [List.mapM_cons] at h
  obtain ⟨b, hb, h⟩ := ok_of_bind h
  obtain ⟨bs', hbs, h⟩ := ok_of_bind h
  exact ⟨b, bs', hb, hbs, (Except.ok.inj h).symm⟩

theorem ownComparison_of_parseOp (key : String) {e : Op × Value σ} {out : Test × List (Value σ)}
    {xs : List (Option σ)} (h : parseOp e = .ok out) (hxs : argumentValues out.2 = some xs) :
    ownComparison key e = some ((key, out.1), xs) := by
  unfold ownComparison
  rw [meant_of_parseOp h, Option.bind_some, hxs, Option.map_some]

/-- Aligned conditions are read with their own values. -/
theorem readsEach_conditions {key : String} : ∀ {es : List (Op × Value σ)} {outs : List (Test × List (Value σ))}
    {vs : List (Option σ)}, es.mapM parseOp = .ok outs → argumentValues (outs.flatMap Prod.snd) = some vs →
      es.all alignedOp = true →
        ReadsEach placeholders (outs.map fun o => [.atom (key, o.1)]) vs
            (((owns key es).map fun l => some (Expr.leaf l)).map (Option.map fun e => [e]))
  | [], outs, vs, h, hvs, _ => by
    obtain rfl := Except.ok.inj h
    obtain rfl := Option.some.inj hvs
    exact .nil
  | e :: es, outs, vs, h, hvs, hal => by
    obtain ⟨out, outs', hout, houts, rfl⟩ := mapM_cons_ok h
    rw [List.flatMap_cons] at hvs
    obtain ⟨xs, ys, hxs, hys, rfl⟩ := argumentValues_split hvs
    rw [List.all_cons, Bool.and_eq_true] at hal
    have hown := ownComparison_of_parseOp key hout hxs
    have hwidth : xs.length = out.1.arity := by
      have hone := hal.1
      rw [alignedOp, meant_of_parseOp hout] at hone
      exact (length_argumentValues hxs).trans (of_decide_eq_true hone)
    rw [owns, List.filterMap_cons_some hown]
    exact .cons (Reads.atom hwidth) (readsEach_conditions houts hys hal.2)

/-- What aligned conditions say of a row is what their own comparisons say. -/
theorem all_meansOp {T : Rows σ ρ} {row : ρ} {key : String} : ∀ {es : List (Op × Value σ)}
    {outs : List (Test × List (Value σ))} {vs : List (Option σ)}, es.mapM parseOp = .ok outs →
      argumentValues (outs.flatMap Prod.snd) = some vs → es.all alignedOp = true →
        es.all (T.meansOp row key) = (owns key es).all fun c => T.compare c.1 c.2 row
  | [], outs, vs, _, _, _ => rfl
  | e :: es, outs, vs, h, hvs, hal => by
    obtain ⟨out, outs', hout, houts, rfl⟩ := mapM_cons_ok h
    rw [List.flatMap_cons] at hvs
    obtain ⟨xs, ys, hxs, hys, rfl⟩ := argumentValues_split hvs
    rw [List.all_cons, Bool.and_eq_true] at hal
    have hown := ownComparison_of_parseOp key hout hxs
    have hwidth : xs.length = placeholders (key, out.1) := by
      have hone := hal.1
      rw [alignedOp, meant_of_parseOp hout] at hone
      exact (length_argumentValues hxs).trans (of_decide_eq_true hone)
    rw [owns, List.filterMap_cons_some hown, List.all_cons, List.all_cons, all_meansOp houts hys hal.2]
    refine congrArg (· && _) ?_
    rw [Rows.meansOp, hown, Option.any_some, decide_eq_true hwidth, Bool.true_and]

/-- Conditions whose own values fill their placeholders are aligned. -/
theorem aligned_of_owns {key : String} : ∀ {es : List (Op × Value σ)} {outs : List (Test × List (Value σ))}
    {vs : List (Option σ)}, es.mapM parseOp = .ok outs → argumentValues (outs.flatMap Prod.snd) = some vs →
      (∀ c ∈ owns key es, c.2.length = placeholders c.1) → es.all alignedOp = true
  | [], outs, vs, _, _, _ => rfl
  | e :: es, outs, vs, h, hvs, hown => by
    obtain ⟨out, outs', hout, houts, rfl⟩ := mapM_cons_ok h
    rw [List.flatMap_cons] at hvs
    obtain ⟨xs, ys, hxs, hys, rfl⟩ := argumentValues_split hvs
    rw [owns, List.filterMap_cons_some (ownComparison_of_parseOp key hout hxs), List.forall_mem_cons] at hown
    rw [List.all_cons, Bool.and_eq_true, alignedOp, meant_of_parseOp hout, Option.all_some, decide_eq_true_eq,
      ← length_argumentValues hxs]
    exact ⟨hown.1, aligned_of_owns houts hys hown.2⟩

theorem parseClauses_field {key : String} {value : FieldValue (Value σ)} {rest : Filter (Value σ)}
    {out : List (List (Token Comparison)) × List (Value σ)}
    (h : parseClauses validColumns (.field key value rest) = .ok out) :
    ∃ a b, parseField validColumns key value = .ok a ∧ parseClauses validColumns rest = .ok b ∧
      out = (a.1 ++ b.1, a.2 ++ b.2) := by
  rw [parseClauses] at h
  obtain ⟨a, ha, h⟩ := ok_of_bind h
  obtain ⟨b, hb, h⟩ := ok_of_bind h
  exact ⟨a, b, ha, hb, (Except.ok.inj h).symm⟩

theorem parseClauses_group {conj : Bool} {subs : Subs (Value σ)} {rest : Filter (Value σ)}
    {out : List (List (Token Comparison)) × List (Value σ)}
    (h : parseClauses validColumns (.group conj subs rest) = .ok out) :
    ∃ a b, parseSubs validColumns conj subs = .ok a ∧ parseClauses validColumns rest = .ok b ∧
      out = ((.lparen :: (joined (if conj then .and else .or) a.1 ++ [.rparen])) :: b.1, a.2 ++ b.2) := by
  rw [parseClauses] at h
  obtain ⟨a, ha, h⟩ := ok_of_bind h
  obtain ⟨b, hb, h⟩ := ok_of_bind h
  exact ⟨a, b, ha, hb, (Except.ok.inj h).symm⟩

theorem parseSubs_filter {conj : Bool} {f : Filter (Value σ)} {rest : Subs (Value σ)}
    {out : List (List (Token Comparison)) × List (Value σ)}
    (h : parseSubs validColumns conj (.filter f rest) = .ok out) :
    ∃ a b, parseClauses validColumns f = .ok a ∧ parseSubs validColumns conj rest = .ok b ∧
      out = (joined .and a.1 :: b.1, a.2 ++ b.2) := by
  rw [parseSubs] at h
  obtain ⟨a, ha, h⟩ := ok_of_bind h
  obtain ⟨b, hb, h⟩ := ok_of_bind h
  exact ⟨a, b, ha, hb, (Except.ok.inj h).symm⟩

mutual

/-- The comparisons of a filter whose own values fill their placeholders are aligned. -/
theorem aligned_of_collect : ∀ {f : Filter (Value σ)} {out : List (List (Token Comparison)) × List (Value σ)}
    {vs : List (Option σ)}, parseClauses validColumns f = .ok out → argumentValues out.2 = some vs →
      (∀ c ∈ f.collect own, c.2.length = placeholders c.1) → f.valid alignedField = true
  | .nil, _, _, _, _, _ => by rw [Filter.valid]
  | .field key value rest, out, vs, h, hvs, hown => by
    obtain ⟨a, b, ha, hb, rfl⟩ := parseClauses_field h
    obtain ⟨xs, ys, hxs, hys, rfl⟩ := argumentValues_split hvs
    obtain ⟨outs, houts, rfl⟩ := parseField_eq ha
    rw [Filter.collect, List.forall_mem_append] at hown
    rw [Filter.valid, Bool.and_eq_true]
    exact ⟨aligned_of_owns houts hxs hown.1, aligned_of_collect hb hys hown.2⟩
  | .group conj subs rest, out, vs, h, hvs, hown => by
    obtain ⟨a, b, ha, hb, rfl⟩ := parseClauses_group h
    obtain ⟨xs, ys, hxs, hys, rfl⟩ := argumentValues_split hvs
    rw [Filter.collect, List.forall_mem_append] at hown
    rw [Filter.valid, Bool.and_eq_true]
    exact ⟨aligned_of_collectSubs ha hxs hown.1, aligned_of_collect hb hys hown.2⟩
  | .malformed conj rest, out, vs, h, _, _ => by
    rw [parseClauses] at h
    cases h

theorem aligned_of_collectSubs : ∀ {conj : Bool} {subs : Subs (Value σ)}
    {out : List (List (Token Comparison)) × List (Value σ)} {vs : List (Option σ)},
    parseSubs validColumns conj subs = .ok out → argumentValues out.2 = some vs →
      (∀ c ∈ subs.collect own, c.2.length = placeholders c.1) → subs.valid alignedField = true
  | _, .nil, _, _, _, _, _ => by rw [Subs.valid]
  | conj, .filter f rest, out, vs, h, hvs, hown => by
    obtain ⟨a, b, ha, hb, rfl⟩ := parseSubs_filter h
    obtain ⟨xs, ys, hxs, hys, rfl⟩ := argumentValues_split hvs
    rw [Subs.collect, List.forall_mem_append] at hown
    rw [Subs.valid, Bool.and_eq_true]
    exact ⟨aligned_of_collect ha hxs hown.1, aligned_of_collectSubs hb hys hown.2⟩
  | conj, .other rest, out, vs, h, _, _ => by
    rw [parseSubs] at h
    cases h

end

variable (T : Rows σ ρ)

mutual

/-- The clauses of an aligned filter are read as conditions that say what the filter means, of its own comparisons. -/
theorem readsEach_clauses : ∀ {f : Filter (Value σ)} {out : List (List (Token Comparison)) × List (Value σ)}
    {vs : List (Option σ)}, parseClauses validColumns f = .ok out → argumentValues out.2 = some vs →
      f.valid alignedField = true →
        ∃ xs : List (Option (Expr (Bound σ))),
          ReadsEach placeholders out.1 vs (xs.map (Option.map fun e => [e])) ∧
            ∀ es : List (Expr (Bound σ)), xs = es.map some → es.flatMap Expr.leaves = f.collect own ∧
              ∀ row, (es.all fun e => T.test e row) = f.holds (T.meansField row)
  | .nil, out, vs, h, hvs, _ => by
    rw [parseClauses] at h
    obtain rfl := Except.ok.inj h
    obtain rfl := Option.some.inj hvs
    refine ⟨[], .nil, fun es hes => ?_⟩
    obtain rfl := List.map_eq_nil_iff.mp hes.symm
    simp [Filter.collect, Filter.holds]
  | .field key value rest, out, vs, h, hvs, hal => by
    obtain ⟨a, b, ha, hb, rfl⟩ := parseClauses_field h
    obtain ⟨ys, zs, hys, hzs, rfl⟩ := argumentValues_split hvs
    obtain ⟨outs, houts, rfl⟩ := parseField_eq ha
    rw [Filter.valid, Bool.and_eq_true] at hal
    obtain ⟨xs, hxs, hrest⟩ := readsEach_clauses hb hzs hal.2
    refine ⟨(own key value).map (fun l => some (Expr.leaf l)) ++ xs, ?_, fun es hes => ?_⟩
    · rw [List.map_append]
      exact (readsEach_conditions houts hys hal.1).append hxs
    · obtain ⟨es₁, es₂, rfl, hes₁, hes₂⟩ := List.map_eq_append_iff.mp hes.symm
      obtain ⟨hleaves, hall⟩ := hrest es₂ hes₂.symm
      have hown : es₁ = (own key value).map Expr.leaf := by
        refine List.map_injective_iff.mpr (fun _ _ hsome => Option.some.inj hsome) (hes₁.trans ?_)
        rw [List.map_map]
        rfl
      rw [Filter.collect, List.flatMap_append, hleaves, hown]
      refine ⟨by simp [List.flatMap_map, Expr.leaves], fun row => ?_⟩
      rw [List.all_append, hall, Filter.holds, Rows.meansField, all_meansOp houts hys hal.1, List.all_map]
      rfl
  | .group conj subs rest, out, vs, h, hvs, hal => by
    obtain ⟨a, b, ha, hb, rfl⟩ := parseClauses_group h
    obtain ⟨ys, zs, hys, hzs, rfl⟩ := argumentValues_split hvs
    rw [Filter.valid, Bool.and_eq_true] at hal
    obtain ⟨os, hos, hsubs⟩ := readsEach_subs ha hys hal.1
    obtain ⟨xs, hxs, hrest⟩ := readsEach_clauses hb hzs hal.2
    refine ⟨grouped conj os .empty :: xs, .cons (Reads.group hos) hxs, fun es hes => ?_⟩
    obtain ⟨e, es, rfl, he, hes⟩ := List.map_eq_cons_iff.mp hes.symm
    obtain ⟨hleaves, hall⟩ := hrest es hes.symm
    obtain ⟨ess, hess, hgroup⟩ := leaves_grouped he.symm
    obtain ⟨hsubLeaves, hsubAll⟩ := hsubs ess hess
    refine ⟨?_, fun row => ?_⟩
    · rw [List.flatMap_cons, hleaves, hgroup, Filter.collect, ← hsubLeaves]
      rfl
    · rw [List.all_cons, hall, Filter.holds, ← (hsubAll row).1, ← (hsubAll row).2]
      refine congrArg (· && _) ?_
      rw [hess] at he
      cases conj with
      | true => exact eval_grouped_and he.symm
      | false => exact eval_grouped_or he.symm rfl
  | .malformed conj rest, out, vs, h, _, _ => by
    rw [parseClauses] at h
    cases h

theorem readsEach_subs : ∀ {conj : Bool} {subs : Subs (Value σ)}
    {out : List (List (Token Comparison)) × List (Value σ)} {vs : List (Option σ)},
    parseSubs validColumns conj subs = .ok out → argumentValues out.2 = some vs →
      subs.valid alignedField = true →
        ∃ os : List (Option (List (Expr (Bound σ)))), ReadsEach placeholders out.1 vs os ∧
          ∀ ess : List (List (Expr (Bound σ))), os = ess.map some → ess.flatMap (·.flatMap Expr.leaves) = subs.collect own ∧
            ∀ row, (ess.all fun es => es.all fun e => T.test e row) = subs.all (T.meansField row) ∧
              (ess.any fun es => es.all fun e => T.test e row) = subs.any (T.meansField row)
  | _, .nil, out, vs, h, hvs, _ => by
    rw [parseSubs] at h
    obtain rfl := Except.ok.inj h
    obtain rfl := Option.some.inj hvs
    refine ⟨[], .nil, fun ess hess => ?_⟩
    obtain rfl := List.map_eq_nil_iff.mp hess.symm
    simp [Subs.collect, Subs.all, Subs.any]
  | conj, .filter f rest, out, vs, h, hvs, hal => by
    obtain ⟨a, b, ha, hb, rfl⟩ := parseSubs_filter h
    obtain ⟨ys, zs, hys, hzs, rfl⟩ := argumentValues_split hvs
    rw [Subs.valid, Bool.and_eq_true] at hal
    obtain ⟨xs, hxs, hone⟩ := readsEach_clauses ha hys hal.1
    obtain ⟨os, hos, hrest⟩ := readsEach_subs hb hzs hal.2
    refine ⟨allSome xs :: os, .cons (Reads.conj hxs) hos, fun ess hess => ?_⟩
    obtain ⟨es, ess, rfl, hes, hess⟩ := List.map_eq_cons_iff.mp hess.symm
    obtain ⟨hleaves, hall⟩ := hone es (allSome_eq_some hes.symm)
    obtain ⟨hleaves', hall'⟩ := hrest ess hess.symm
    rw [List.flatMap_cons, hleaves, hleaves', Subs.collect]
    refine ⟨rfl, fun row => ?_⟩
    rw [List.all_cons, List.any_cons, hall, (hall' row).1, (hall' row).2, Subs.all, Subs.any]
    exact ⟨rfl, rfl⟩
  | conj, .other rest, out, vs, h, _, _ => by
    rw [parseSubs] at h
    cases h

end

variable {T}

/-- What runs is a clause read with its values. -/
theorem parts_of_condition {f : Filter (Value σ)} {w : List (Token Comparison) × List (Value σ)}
    {e : Expr (Bound σ)} (h : parseFilter validColumns f = .ok w) (hrun : Rows.condition w = some e) :
    ∃ cs vs, parseClauses validColumns f = .ok (cs, w.2) ∧ argumentValues w.2 = some vs ∧
      read placeholders (joined .and cs) vs = some e := by
  obtain ⟨vs, hvs, hread⟩ := Option.bind_eq_some_iff.mp hrun
  unfold parseFilter at h
  cases hcs : parseClauses validColumns f with
  | error message =>
    rw [hcs] at h
    cases h
  | ok out =>
    rw [hcs] at h
    obtain rfl := Except.ok.inj h
    refine ⟨out.1, vs, rfl, ?_, hread⟩
    unfold bindArguments at hvs
    split at hvs
    · exact hvs
    · cases hvs

/-- The clause of an aligned filter says of a row what the filter means. -/
theorem condition_of_aligned {f : Filter (Value σ)} {w : List (Token Comparison) × List (Value σ)}
    {e : Expr (Bound σ)} (h : parseFilter validColumns f = .ok w) (hrun : Rows.condition w = some e)
    (hal : f.valid alignedField = true) :
    e.leaves = f.collect own ∧ ∀ row, T.test e row = f.holds (T.meansField row) := by
  obtain ⟨cs, vs, hcs, hvs, hread⟩ := parts_of_condition h hrun
  obtain ⟨xs, hxs, hmeans⟩ := readsEach_clauses T hcs hvs hal
  rw [read_of_reads (Reads.conj hxs)] at hread
  obtain ⟨es, hes, hclose⟩ := Option.bind_eq_some_iff.mp hread
  obtain ⟨hleaves, hall⟩ := hmeans es (allSome_eq_some hes)
  refine ⟨(eval_close_empty (t := fun _ => true) hclose).2.trans hleaves, fun row => ?_⟩
  exact (eval_close_empty hclose).1.trans (hall row)

/-- Every comparison of the clause is made with its own values exactly when the filter is aligned. -/
theorem leaves_eq_own_iff {f : Filter (Value σ)} {w : List (Token Comparison) × List (Value σ)}
    {e : Expr (Bound σ)} (h : parseFilter validColumns f = .ok w) (hrun : Rows.condition w = some e) :
    e.leaves = f.collect own ↔ f.valid alignedField = true := by
  obtain ⟨cs, vs, hcs, hvs, hread⟩ := parts_of_condition h hrun
  constructor
  · intro hleaves
    exact aligned_of_collect hcs hvs fun c hc => read_arity hread c (hleaves ▸ hc)
  · exact fun hal => (condition_of_aligned (T := ⟨fun _ => true, fun _ _ (_ : Unit) => true, fun _ => 0⟩) h hrun hal).1

/-- A filter that the database runs makes each of its comparisons with its own values exactly when every entry brings as
many values as it has placeholders. Then its clause is true of a row exactly when the filter's meaning is, and what is
deleted is what the filter describes. -/
theorem parseFilter_means_what_it_says {f : Filter (Value σ)} {w : List (Token Comparison) × List (Value σ)}
    {e : Expr (Bound σ)} (h : parseFilter T.validColumns f = .ok w) (hrun : Rows.condition w = some e) :
    (e.leaves = f.collect own ↔ f.valid alignedField = true) ∧
      (f.valid alignedField = true →
        (∀ row, T.test e row = f.holds (T.meansField row)) ∧
          ∀ rows left ids, T.deleteRecordsReturningIds rows f = .ok (left, ids) →
            left = rows.filter (fun row => !f.holds (T.meansField row)) ∧
              ids = (rows.filter fun row => f.holds (T.meansField row)).map T.id) := by
  refine ⟨leaves_eq_own_iff h hrun, fun hal => ?_⟩
  have hrow : ∀ row, T.test e row = f.holds (T.meansField row) := (condition_of_aligned h hrun hal).2
  refine ⟨hrow, fun rows left ids hdelete => ?_⟩
  unfold Rows.deleteRecordsReturningIds at hdelete
  have hwhere : f ≠ .nil → buildWhere T.validColumns f = .ok (some w) := by
    intro hne
    unfold buildWhere
    split
    · exact absurd rfl hne
    · rw [h]
      rfl
  by_cases hnil : f = .nil
  · rw [hnil] at hdelete
    cases hdelete
  · rw [hwhere hnil] at hdelete
    simp only [hrun] at hdelete
    have hout := Prod.mk.inj (Except.ok.inj hdelete)
    rw [funext hrow] at hout
    exact ⟨hout.1.symm, hout.2.symm⟩

end Reading

/-! ## A list in the place of a value -/

/-- Rows of two columns, which are compared by equality and have no other comparison. -/
def pairs : Rows ℕ (ℕ × ℕ) where
  validColumns := fun col => col = "a" || col = "b"
  compare := fun c xs row => c.2 = .eq && xs = [some (if c.1 = "a" then row.1 else row.2)]
  id := fun row => row.1

/-- `{ $or: [{ a: 1, b: 2 }, { b: [3] }] }` -/
def eitherPair : Filter (Value ℕ) :=
  .group false
    (.filter (.field "a" (.operand (.scalar 1)) (.field "b" (.operand (.scalar 2)) .nil))
      (.filter (.field "b" (.operand (.list [.scalar 3])) .nil) .nil))
    .nil

theorem parseFilter_means_what_it_says_pairs :
    ∃ w e, parseFilter pairs.validColumns eitherPair = .ok w ∧ Rows.condition w = some e ∧
      ((e.leaves = eitherPair.collect own ↔ eitherPair.valid alignedField = true) ∧
        (eitherPair.valid alignedField = true →
          (∀ row, pairs.test e row = eitherPair.holds (pairs.meansField row)) ∧
            ∀ rows left ids, pairs.deleteRecordsReturningIds rows eitherPair = .ok (left, ids) →
              left = rows.filter (fun row => !eitherPair.holds (pairs.meansField row)) ∧
                ids = (rows.filter fun row => eitherPair.holds (pairs.meansField row)).map pairs.id)) :=
  ⟨_, _, rfl, rfl, parseFilter_means_what_it_says rfl rfl⟩

/-- `{ a: [1, 2], b: [] }` describes no row; its clause `"a" = ? AND "b" = ?` is read with 1 and 2. -/
theorem deletes_a_row_that_is_not_described :
    ∃ (f : Filter (Value ℕ)) (w : List (Token Comparison) × List (Value ℕ)) (e : Expr (Bound ℕ)),
      f = .field "a" (.operand (.list [.scalar 1, .scalar 2])) (.field "b" (.operand (.list [])) .nil) ∧
        parseFilter pairs.validColumns f = .ok w ∧ Rows.condition w = some e ∧
          pairs.test e (1, 2) = true ∧ f.holds (pairs.meansField (1, 2)) = false ∧
            pairs.deleteRecordsReturningIds [(1, 2), (2, 1)] f = .ok ([(2, 1)], [1]) :=
  ⟨_, _, _, rfl, rfl, rfl, rfl, rfl, rfl⟩

end Lynox.Collections
