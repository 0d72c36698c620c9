import Lynox.Data.Assoc

/-!
# Filters

A filter is a tree : its entries are conditions on fields, and groups of filters of which all hold (`$and`) or one
does (`$or`). It is written over the operands that a field is compared with (`Filter ω`). What it means of a row
follows from what its fields mean (`Filter.holds`), and whether it is accepted from what is asked of its fields
(`Filter.valid`).
-/

namespace Lynox.Collections

inductive Op
  | eq
  | neq
  | inList
  | notIn
  | isNull
  | like
  | gt
  | gte
  | lt
  | lte
  | other (name : String)
  deriving DecidableEq

def Op.name : Op → String
  | .eq => "$eq"
  | .neq => "$neq"
  | .inList => "$in"
  | .notIn => "$nin"
  | .isNull => "$is_null"
  | .like => "$like"
  | .gt => "$gt"
  | .gte => "$gte"
  | .lt => "$lt"
  | .lte => "$lte"
  | .other name => name

/-- An object of operators, each of which it has once. -/
structure Ops (ω : Type) where
  entries : List (Op × ω)
  nodup : (entries.map Prod.fst).Nodup
  deriving DecidableEq

/-- The value of a field: a plain one, or an object of operators. -/
inductive FieldValue (ω : Type)
  | operand (o : ω)
  | ops (m : Ops ω)
  deriving DecidableEq

mutual

/-- The entries of a filter. -/
inductive Filter (ω : Type)
  | nil
  | field (key : String) (value : FieldValue ω) (rest : Filter ω)
  /-- `$and`, or else `$or`. -/
  | group (conj : Bool) (subs : Subs ω) (rest : Filter ω)
  /-- A `$and` or `$or` that is no list. -/
  | malformed (conj : Bool) (rest : Filter ω)

/-- The elements of a group. -/
inductive Subs (ω : Type)
  | nil
  | filter (f : Filter ω) (rest : Subs ω)
  /-- An element that is no object. -/
  | other (rest : Subs ω)

end

section Trees

variable {ω : Type}

mutual

/-- Whether a filter is accepted, by what is asked of its fields. -/
def Filter.valid (ok : String → FieldValue ω → Bool) : Filter ω → Bool
  | .nil => true
  | .field key value rest => ok key value && rest.valid ok
  | .group _ subs rest => subs.valid ok && rest.valid ok
  | .malformed _ _ => false

def Subs.valid (ok : String → FieldValue ω → Bool) : Subs ω → Bool
  | .nil => true
  | .filter f rest => f.valid ok && rest.valid ok
  | .other _ => false

end

mutual

/-- What a filter means of a row, by what its fields mean. -/
def Filter.holds (test : String → FieldValue ω → Bool) : Filter ω → Bool
  | .nil => true
  | .field key value rest => test key value && rest.holds test
  | .group conj subs rest => (if conj then subs.all test else subs.any test) && rest.holds test
  | .malformed _ rest => rest.holds test

def Subs.all (test : String → FieldValue ω → Bool) : Subs ω → Bool
  | .nil => true
  | .filter f rest => f.holds test && rest.all test
  | .other rest => rest.all test

def Subs.any (test : String → FieldValue ω → Bool) : Subs ω → Bool
  | .nil => false
  | .filter f rest => f.holds test || rest.any test
  | .other rest => rest.any test

end

mutual

/-- What the fields of a filter give, in their order. -/
def Filter.collect {β : Type} (g : String → FieldValue ω → List β) : Filter ω → List β
  | .nil => []
  | .field key value rest => g key value ++ rest.collect g
  | .group _ subs rest => subs.collect g ++ rest.collect g
  | .malformed _ rest => rest.collect g

def Subs.collect {β : Type} (g : String → FieldValue ω → List β) : Subs ω → List β
  | .nil => []
  | .filter f rest => f.collect g ++ rest.collect g
  | .other rest => rest.collect g

end

mutual

theorem Filter.valid_mono {ok ok' : String → FieldValue ω → Bool}
    (hle : ∀ key value, ok key value = true → ok' key value = true) :
    ∀ {f : Filter ω}, f.valid ok = true → f.valid ok' = true
  | .nil, _ => by rw [Filter.valid]
  | .field key value rest, h => by
    rw [Filter.valid, Bool.and_eq_true] at h ⊢
    exact ⟨hle key value h.1, Filter.valid_mono hle h.2⟩
  | .group conj subs rest, h => by
    rw [Filter.valid, Bool.and_eq_true] at h ⊢
    exact ⟨Subs.valid_mono hle h.1, Filter.valid_mono hle h.2⟩
  | .malformed _ rest, h => by
    rw [Filter.valid] at h
    cases h

theorem Subs.valid_mono {ok ok' : String → FieldValue ω → Bool}
    (hle : ∀ key value, ok key value = true → ok' key value = true) :
    ∀ {subs : Subs ω}, subs.valid ok = true → subs.valid ok' = true
  | .nil, _ => by rw [Subs.valid]
  | .filter f rest, h => by
    rw [Subs.valid, Bool.and_eq_true] at h ⊢
    exact ⟨Filter.valid_mono hle h.1, Subs.valid_mono hle h.2⟩
  | .other rest, h => by
    rw [Subs.valid] at h
    cases h

end

end Trees

namespace Ops

variable {ω : Type} (m : Ops ω)

def get (op : Op) : Option ω :=
  Assoc.get m.entries op

def insert (op : Op) (o : ω) : Ops ω :=
  ⟨Assoc.set m.entries op o, Assoc.nodup_keys_set m.nodup⟩

variable {m} {op op' : Op} {o : ω}

theorem get_insert : (m.insert op o).get op' = if op' = op then some o else m.get op' :=
  Assoc.get_set

theorem all_entries {p : Op → ω → Bool} :
    (m.entries.all fun e => p e.1 e.2) = true ↔ ∀ op o, m.get op = some o → p op o = true := by
  rw [List.all_eq_true]
  exact ⟨fun h op o ho => h (op, o) (Assoc.mem_of_get ho),
    fun h e he => h e.1 e.2 (Assoc.get_of_mem m.nodup he)⟩

end Ops

end Lynox.Collections
