import Lynox.Data.Assoc
import Mathlib.Data.Option.Basic

/-!
# Rows under unique constraints

A table of numbered rows with unique constraints over its columns, where a cell may be empty and an
empty cell is equal to none. A statement is refused as a whole when a constraint would be violated.
For each of the four statements one lemma says how many rows there are after it : an insert adds one,
an update none, a delete takes some, and an upsert adds at most one, and none where a row already has
the key it is asked for (`length_upsert_of_found`).
-/

set_option linter.unusedSectionVars false

namespace Lynox

/-- A row : its number and its cells. -/
structure Row (κ ν : Type*) where
  id : Nat
  cells : List (κ × Option ν)
deriving DecidableEq

/-- Rows under unique constraints, with the last number given. -/
structure Constrained (κ ν : Type*) where
  uniques : List (List κ)
  seq : Nat
  rows : List (Row κ ν)
deriving DecidableEq

/-- Why a statement is refused. -/
inductive Violation (κ : Type*)
  /-- Two rows would be equal on the key. -/
  | unique (key : List κ)
  /-- No constraint is on the columns asked for. -/
  | noConstraint
deriving DecidableEq

namespace Constrained

variable {κ ν : Type*} [DecidableEq κ] [DecidableEq ν]

/-- What the row holds in a column. -/
def cell (r : Row κ ν) (c : κ) : Option ν :=
  (Assoc.get r.cells c).join

/-- The rows are equal on the key, with no empty cell. -/
def agree (key : List κ) (r r' : Row κ ν) : Bool :=
  key.all fun c => (cell r c).isSome && cell r c = cell r' c

/-- No constraint, with no row, and no number given. -/
def create (uniques : List (List κ)) : Constrained κ ν :=
  ⟨uniques, 0, []⟩

/-- One more row, under the next number. -/
def insert (t : Constrained κ ν) (cells : List (κ × Option ν)) :
    Except (Violation κ) (Constrained κ ν) :=
  let r : Row κ ν := ⟨t.seq + 1, cells⟩
  match t.uniques.find? fun key => t.rows.any (agree key r) with
  | some key => .error (.unique key)
  | none => .ok { t with seq := t.seq + 1, rows := t.rows ++ [r] }

/-- The cells of the rows with `p` changed by `f`. -/
def update (t : Constrained κ ν) (p : Row κ ν → Bool)
    (f : List (κ × Option ν) → List (κ × Option ν)) : Except (Violation κ) (Constrained κ ν) :=
  let rows := t.rows.map fun r => if p r then { r with cells := f r.cells } else r
  match t.uniques.find? fun key => rows.any fun r => rows.any fun r' =>
      r.id ≠ r'.id && agree key r r' with
  | some key => .error (.unique key)
  | none => .ok { t with rows }

/-- One more row, or, where one has its `key`, that row's cells changed by `f`. -/
def upsert (t : Constrained κ ν) (key : List κ) (cells : List (κ × Option ν))
    (f : List (κ × Option ν) → List (κ × Option ν)) : Except (Violation κ) (Constrained κ ν) :=
  if key ∈ t.uniques then
    match t.rows.find? (agree key ⟨t.seq + 1, cells⟩) with
    | some old => t.update (fun r => r.id = old.id) f
    | none => t.insert cells
  else .error .noConstraint

/-- The rows without those with `p`. -/
def delete (t : Constrained κ ν) (p : Row κ ν → Bool) : Constrained κ ν :=
  { t with rows := t.rows.filter fun r => !p r }

variable {t t' : Constrained κ ν} {key : List κ} {cells : List (κ × Option ν)}
  {f : List (κ × Option ν) → List (κ × Option ν)} {p : Row κ ν → Bool}

theorem length_insert (h : t.insert cells = .ok t') : t'.rows.length = t.rows.length + 1 := by
  unfold insert at h
  dsimp only at h
  split at h
  · exact nomatch h
  · obtain rfl := Except.ok.inj h
    rw [List.length_append, List.length_singleton]

theorem length_update (h : t.update p f = .ok t') : t'.rows.length = t.rows.length := by
  unfold update at h
  dsimp only at h
  split at h
  · exact nomatch h
  · obtain rfl := Except.ok.inj h
    exact List.length_map _

theorem length_upsert (h : t.upsert key cells f = .ok t') : t'.rows.length ≤ t.rows.length + 1 := by
  unfold upsert at h
  split at h
  · split at h
    · exact (length_update h).le.trans (Nat.le_succ _)
    · exact (length_insert h).le
  · exact nomatch h

/-- An upsert of a key that a row has adds no row. -/
theorem length_upsert_of_found (h : t.upsert key cells f = .ok t')
    (hf : ∃ r ∈ t.rows, agree key ⟨t.seq + 1, cells⟩ r) : t'.rows.length = t.rows.length := by
  unfold upsert at h
  split at h
  · split at h
    · exact length_update h
    next hnone =>
      obtain ⟨r, hr, hagree⟩ := hf
      exact absurd hagree (List.find?_eq_none.1 hnone r hr)
  · exact nomatch h

theorem length_delete : (t.delete p).rows.length ≤ t.rows.length :=
  List.length_filter_le _ _

end Constrained

end Lynox

/-!
## Columns that may be `NULL`

The operators of a statement over columns that may be `NULL` (`none`). A comparison with `=` is unknown
where either side is, `IS` never is, and a `CASE` takes its first branch only where its condition is true.
-/

namespace Lynox.Sql

variable {α β : Type*} [DecidableEq α]

/-- `a = b`, unknown where either is `NULL`. -/
def eq : Option α → Option α → Option Bool
  | some a, some b => some (a = b)
  | _, _ => none

/-- `a IS b` : `NULL` is itself. -/
def is (a b : Option α) : Option Bool :=
  some (a = b)

/-- `a IS NULL`. -/
def isNull (a : Option α) : Option Bool :=
  some a.isNone

/-- `AND` : a false side makes it false, whatever the other. -/
def and : Option Bool → Option Bool → Option Bool
  | some false, _ | _, some false => some false
  | some true, some true => some true
  | _, _ => none

/-- `CASE WHEN condition THEN a ELSE b END`. -/
def case (condition : Option Bool) (a b : β) : β :=
  if condition = some true then a else b

/-- `COALESCE(a, b)`. -/
def coalesce (a b : Option α) : Option α :=
  a.or b

variable {a b : Option α} {p q : Option Bool}

@[simp] theorem eq_eq_true : eq a b = some true ↔ a = b ∧ a.isSome := by
  cases a <;> cases b <;> simp [eq]

@[simp] theorem is_eq_true : is a b = some true ↔ a = b := by
  simp [is]

omit [DecidableEq α] in
@[simp] theorem isNull_eq_true : isNull a = some true ↔ a = none := by
  simp [isNull]

@[simp] theorem and_eq_true : and p q = some true ↔ p = some true ∧ q = some true := by
  rcases p with _ | _ | _ <;> rcases q with _ | _ | _ <;> simp [and]

end Lynox.Sql
