import Lynox.Collections.Filter
import Lynox.Data.Throws
import Lynox.Text.JsonText

/-!
# Filtering by a subject's name

A subject column holds ids, a filter names subjects. `resolveSubjectFilterValues` puts for every name the ids that
it could mean. A filter is a tree whose conditions on other columns and whose comparisons with values that are no names
stay open (`Columns`): the resolution hands them on.
-/

namespace Lynox.Collections

open Text Throws

abbrev SubjectId := JsString

/-- Bound in place of a name that no subject has. -/
def UNRESOLVABLE_SUBJECT : SubjectId :=
  utf16 "__lynox_no_such_subject__"

/-! ## Operands -/

/-- A value of a filter; one that is no string and not null is known by its text. -/
inductive Lit
  | str (s : JsString)
  | null
  | other (text : JsString)
  deriving DecidableEq

inductive Operand
  | lit (l : Lit)
  | list (ls : List Lit)
  deriving DecidableEq

/-! ## The columns of a table -/

def PROTO : String :=
  "__proto__"

/-- A table: its subject columns with the kind they link to, and what the database says of everything else. -/
structure Columns (κ ρ : Type) where
  subjectCols : String → Option κ
  /-- No column has this name. -/
  proto : subjectCols PROTO = none
  /-- What `_parseFilter` says of a field of another column. -/
  accepts : String → FieldValue Operand → Bool
  /-- What such a field means of a row. -/
  means : String → FieldValue Operand → ρ → Bool
  link : String → ρ → Option SubjectId
  /-- No subject has this id. -/
  linked : ∀ col row, link col row ≠ some UNRESOLVABLE_SUBJECT
  /-- The comparison of a link with an operand that is no name. -/
  compare : Op → Operand → Option SubjectId → Bool

/-- What `_parseFilter` says of an operator. -/
def okOp : Op → Operand → Bool
  | .other _, _ => false
  | .inList, .list ls | .notIn, .list ls => ls ≠ []
  | .inList, .lit _ | .notIn, .lit _ => false
  | _, _ => true

section Meaning

variable {κ ρ : Type} (T : Columns κ ρ)

def Columns.ok (key : String) (value : FieldValue Operand) : Bool :=
  match T.subjectCols key with
  | none => key ≠ PROTO && T.accepts key value
  | some _ =>
    match value with
    | .operand _ => true
    | .ops m => m.entries.all fun e => okOp e.1 e.2

/-- The comparison as the database makes it, on ids. -/
def Columns.rawOp (cell : Option SubjectId) : Op → Operand → Bool
  | .eq, .lit (.str id) => cell = some id
  | .neq, .lit (.str id) => cell.any fun c => c ≠ id
  | .inList, .list ls => cell.any fun c => ls.contains (.str c)
  | .notIn, .list ls => cell.any fun c => !ls.contains (.str c) && !ls.contains .null
  | op, o => T.compare op o cell

/-- The comparison with every name read as a set of ids. -/
def Columns.namedOp (S : JsString → List SubjectId) (cell : Option SubjectId) : Op → Operand → Bool
  | .eq, .lit (.str name) => cell.any fun c => (S name).contains c
  | .neq, .lit (.str name) => cell.any fun c => !(S name).contains c
  | .inList, .list ls => cell.any fun c => ls.any fun
    | .str name => (S name).contains c
    | .null | .other _ => false
  | .notIn, .list ls => cell.any fun c =>
    !(ls.any fun
      | .str name => (S name).contains c
      | .null | .other _ => false) && !ls.contains .null
  | op, o => T.compare op o cell

/-- A field's value by its operators; a plain value is compared by `$eq`. -/
def FieldValue.test (op : Op → Operand → Bool) : FieldValue Operand → Bool
  | .operand o => op .eq o
  | .ops m => m.entries.all fun e => op e.1 e.2

def Columns.rawTest (row : ρ) (key : String) (value : FieldValue Operand) : Bool :=
  match T.subjectCols key with
  | none => T.means key value row
  | some _ => value.test (T.rawOp (T.link key row))

def Columns.namedTest (S : κ → JsString → List SubjectId) (row : ρ) (key : String) (value : FieldValue Operand) : Bool :=
  match T.subjectCols key with
  | none => T.means key value row
  | some kind => value.test (T.namedOp (S kind) (T.link key row))

/-- What a filter answers of a row; `none` stands for a filter that is refused. -/
def Columns.answer (f : Filter Operand) (row : ρ) : Option Bool :=
  if f.valid T.ok then some (f.holds (T.rawTest row)) else none

end Meaning

/-! ## Resolving names -/

namespace Ops

variable (m : Ops Operand)

/-- `out[op] = …`, which sets no key where it sets the prototype. -/
def set (op : Op) (o : Operand) : Ops Operand :=
  if op = .other PROTO then m else m.insert op o

def narrowIn (ids : List Lit) : Ops Operand :=
  let next :=
    match m.get .inList with
    | some (.list prev) => prev.filter fun p => ids.contains p
    | _ => ids
  m.insert .inList (.list (if next.length > 0 then next else [.str UNRESOLVABLE_SUBJECT]))

def widenNin (ids : List Lit) : Ops Operand :=
  m.insert .notIn
    (match m.get .notIn with
    | some (.list prev) => .list (prev ++ ids).eraseDups
    | _ => .list ids)

variable {m} {op : Op} {o : Operand}

theorem set_of_ne (h : op ≠ .other PROTO) : m.set op o = m.insert op o :=
  if_neg h

end Ops

section Resolve

variable (findAll : JsString → List SubjectId)

def idsFor (name : JsString) : List SubjectId :=
  let trimmed := trim name
  if trimmed = [] then [UNRESOLVABLE_SUBJECT]
  else
    let ids := findAll trimmed
    if ids.length = 0 then [UNRESOLVABLE_SUBJECT] else ids

/-- The ids of an element of a list; one that is no name stays. -/
def idsOfLit : Lit → List Lit
  | .str name => (idsFor findAll name).map .str
  | l => [l]

def unsupported (colName : String) (op : Op) : String :=
  "Column \"" ++ colName ++ "\" links to a subject — filter it by the exact linked name (e.g. \x7b \"" ++ colName ++
    "\": \"Anna Meier\" \x7d) or a name list ($in), not " ++ op.name ++ "."

def resolveOp (colName : String) (out : Ops Operand) : Op × Operand → Except String (Ops Operand)
  | (.eq, .lit (.str name)) =>
    match idsFor findAll name with
    | [id] => .ok (out.set .eq (.lit (.str id)))
    | ids => .ok (out.narrowIn (ids.map .str))
  | (.neq, .lit (.str name)) =>
    match idsFor findAll name with
    | [id] => .ok (out.set .neq (.lit (.str id)))
    | ids => .ok (out.widenNin (ids.map .str))
  | (.inList, .list ls) => .ok (out.narrowIn (ls.flatMap (idsOfLit findAll)))
  | (.notIn, .list ls) => .ok (out.widenNin (ls.flatMap (idsOfLit findAll)))
  | (.like, _) => .error (unsupported colName .like)
  | (.gt, _) => .error (unsupported colName .gt)
  | (.gte, _) => .error (unsupported colName .gte)
  | (.lt, _) => .error (unsupported colName .lt)
  | (.lte, _) => .error (unsupported colName .lte)
  | (op, o) => .ok (out.set op o)

def resolveSubjectOperand (colName : String) : FieldValue Operand → Except String (FieldValue Operand)
  | .operand (.lit (.str name)) =>
    match idsFor findAll name with
    | [id] => .ok (.operand (.lit (.str id)))
    | ids => .ok (.ops ⟨[(.inList, .list (ids.map .str))], List.nodup_singleton _⟩)
  | .operand o => .ok (.operand o)
  | .ops m => (m.entries.foldlM (resolveOp findAll colName) ⟨[], List.nodup_nil⟩).map .ops

end Resolve

section Tree

variable {κ : Type} (subjectCols : String → Option κ) (findAll : κ → JsString → List SubjectId)

/-- A field's value; that of another column stays. -/
def resolveField (key : String) (value : FieldValue Operand) : Except String (FieldValue Operand) :=
  match subjectCols key with
  | none => .ok value
  | some kind => resolveSubjectOperand (findAll kind) key value

mutual

def resolveSubjectFilterValues : Filter Operand → Except String (Filter Operand)
  | .nil => .ok .nil
  | .field key value rest => do
    let value' ← resolveField subjectCols findAll key value
    let rest' ← resolveSubjectFilterValues rest
    return if key = PROTO then rest' else .field key value' rest'
  | .group conj subs rest => do
    let subs' ← resolveSubs subs
    let rest' ← resolveSubjectFilterValues rest
    return .group conj subs' rest'
  | .malformed conj rest => do
    let rest' ← resolveSubjectFilterValues rest
    return .malformed conj rest'

def resolveSubs : Subs Operand → Except String (Subs Operand)
  | .nil => .ok .nil
  | .filter f rest => do
    let f' ← resolveSubjectFilterValues f
    let rest' ← resolveSubs rest
    return .filter f' rest'
  | .other rest => do
    let rest' ← resolveSubs rest
    return .other rest'

end

end Tree

/-! ## What names mean -/

section Named

variable {κ ρ : Type} (T : Columns κ ρ) (findAll : κ → JsString → List SubjectId)

/-- The subjects that a name could denote. -/
def denoted (findAll : JsString → List SubjectId) (name : JsString) : List SubjectId :=
  if trim name = [] then [] else findAll (trim name)

def Columns.namedAnswer (f : Filter Operand) (row : ρ) : Option Bool :=
  if f.valid T.ok then some (f.holds (T.namedTest (fun kind => denoted (findAll kind)) row)) else none

end Named

/-! ## One operator -/

section Step

variable {findAll : JsString → List SubjectId} {m m' : Ops Operand} {e : Op × Operand}

/-- An operator whose operand names nobody. -/
def plain : Op → Operand → Bool
  | .eq, .lit (.str _) | .neq, .lit (.str _) | .inList, .list _ | .notIn, .list _ => false
  | _, _ => true

/-- What resolving one operator makes of the operators before it. -/
inductive Resolved (findAll : JsString → List SubjectId) (m : Ops Operand) : Op × Operand → Ops Operand → Prop
  | eqOne (name id) (h : idsFor findAll name = [id]) :
    Resolved findAll m (.eq, .lit (.str name)) (m.insert .eq (.lit (.str id)))
  | eqMany (name) (h : (idsFor findAll name).length ≠ 1) :
    Resolved findAll m (.eq, .lit (.str name)) (m.narrowIn ((idsFor findAll name).map .str))
  | neqOne (name id) (h : idsFor findAll name = [id]) :
    Resolved findAll m (.neq, .lit (.str name)) (m.insert .neq (.lit (.str id)))
  | neqMany (name) (h : (idsFor findAll name).length ≠ 1) :
    Resolved findAll m (.neq, .lit (.str name)) (m.widenNin ((idsFor findAll name).map .str))
  | narrowed (ls) : Resolved findAll m (.inList, .list ls) (m.narrowIn (ls.flatMap (idsOfLit findAll)))
  | widened (ls) : Resolved findAll m (.notIn, .list ls) (m.widenNin (ls.flatMap (idsOfLit findAll)))
  | kept (op o) (h : plain op o = true) : Resolved findAll m (op, o) (m.set op o)

theorem length_ne_one {ids : List SubjectId} (h : ∀ id, ids ≠ [id]) : ids.length ≠ 1 := by
  intro hlen
  obtain ⟨id, rfl⟩ := List.length_eq_one_iff.mp hlen
  exact h id rfl

theorem resolved_of_resolveOp {col : String} (h : resolveOp findAll col m e = .ok m') :
    Resolved findAll m e m' := by
  unfold resolveOp at h
  split at h
  · split at h
    · next id hid =>
      obtain rfl := Except.ok.inj h
      rw [Ops.set_of_ne (by decide)]
      exact .eqOne _ id hid
    · next hmany =>
      obtain rfl := Except.ok.inj h
      exact .eqMany _ (length_ne_one hmany)
  · split at h
    · next id hid =>
      obtain rfl := Except.ok.inj h
      rw [Ops.set_of_ne (by decide)]
      exact .neqOne _ id hid
    · next hmany =>
      obtain rfl := Except.ok.inj h
      exact .neqMany _ (length_ne_one hmany)
  · obtain rfl := Except.ok.inj h
    exact .narrowed _
  · obtain rfl := Except.ok.inj h
    exact .widened _
  · cases h
  · cases h
  · cases h
  · cases h
  · cases h
  · next op o heq hneq hin hnin _ _ _ _ _ =>
    obtain rfl := Except.ok.inj h
    refine .kept op o ?_
    unfold plain
    split
    · exact (heq _ rfl rfl).elim
    · exact (hneq _ rfl rfl).elim
    · exact (hin _ rfl rfl).elim
    · exact (hnin _ rfl rfl).elim
    · rfl

end Step

/-! ## The operators keep their meaning -/

section Rows

variable {findAll : JsString → List SubjectId} {c : SubjectId}

/-- A subject's id is among those looked up exactly when the name could mean it. -/
theorem mem_idsFor (findAll : JsString → List SubjectId) (hc : c ≠ UNRESOLVABLE_SUBJECT) (name : JsString) :
    c ∈ idsFor findAll name ↔ c ∈ denoted findAll name := by
  unfold idsFor denoted
  by_cases hblank : trim name = []
  · simp [hblank, hc]
  · by_cases hnone : (findAll (trim name)).length = 0
    · simp [hblank, hc, List.length_eq_zero_iff.mp hnone]
    · simp [hblank, hnone]

/-- The subjects that a list of names could mean. -/
def inNames (S : JsString → List SubjectId) (ls : List Lit) (c : SubjectId) : Bool :=
  ls.any fun
    | .str name => (S name).contains c
    | .null | .other _ => false

theorem mem_flatMap_ids (hc : c ≠ UNRESOLVABLE_SUBJECT) (ls : List Lit) :
    Lit.str c ∈ ls.flatMap (idsOfLit findAll) ↔ inNames (denoted findAll) ls c = true := by
  unfold inNames
  rw [List.mem_flatMap, List.any_eq_true]
  refine exists_congr fun l => and_congr_right fun _ => ?_
  cases l with
  | str name => simpa [idsOfLit] using mem_idsFor findAll hc name
  | null => simp [idsOfLit]
  | other text => simp [idsOfLit]

theorem null_mem_flatMap_ids (ls : List Lit) :
    Lit.null ∈ ls.flatMap (idsOfLit findAll) ↔ Lit.null ∈ ls := by
  rw [List.mem_flatMap]
  constructor
  · rintro ⟨l, hl, hnull⟩
    cases l with
    | str name => simp [idsOfLit] at hnull
    | null => exact hl
    | other text => simp [idsOfLit] at hnull
  · exact fun h => ⟨.null, h, List.mem_singleton_self _⟩

variable {κ ρ : Type} (T : Columns κ ρ) {cell : Option SubjectId} {m m' : Ops Operand} {op : Op} {o : Operand}
  {e : Op × Operand}

/-- The operators all hold of a link. -/
def Columns.Sat (cell : Option SubjectId) (m : Ops Operand) : Prop :=
  ∀ op o, m.get op = some o → T.rawOp cell op o = true

/-- Whatever is compared with a list so far is one. -/
def Ops.Listed (m : Ops Operand) : Prop :=
  ∀ op o, op = .inList ∨ op = .notIn → m.get op = some o → ∃ ls, o = .list ls

variable {T}

/-- A new operand adds a condition to that of the operand before it. -/
theorem Columns.sat_insert {P : Prop}
    (h : T.rawOp cell op o = true ↔ (∀ old, m.get op = some old → T.rawOp cell op old = true) ∧ P) :
    T.Sat cell (m.insert op o) ↔ T.Sat cell m ∧ P := by
  unfold Columns.Sat
  constructor
  · intro hsat
    have hnew := hsat op o (by rw [Ops.get_insert, if_pos rfl])
    refine ⟨fun op' o' hget => ?_, (h.mp hnew).2⟩
    by_cases hop : op' = op
    · subst hop
      exact (h.mp hnew).1 o' hget
    · exact hsat op' o' (by rwa [Ops.get_insert, if_neg hop])
  · rintro ⟨hsat, hP⟩ op' o' hget
    rw [Ops.get_insert] at hget
    by_cases hop : op' = op
    · rw [if_pos hop] at hget
      obtain rfl := Option.some.inj hget
      subst hop
      exact h.mpr ⟨hsat op', hP⟩
    · rw [if_neg hop] at hget
      exact hsat op' o' hget

theorem Columns.sat_insert_of_none (hnew : m.get op = none) :
    T.Sat cell (m.insert op o) ↔ T.Sat cell m ∧ T.rawOp cell op o = true :=
  Columns.sat_insert (by simp [hnew])

theorem Columns.rawOp_inList {ls : List Lit} :
    T.rawOp cell .inList (.list ls) = true ↔ ∃ c, cell = some c ∧ Lit.str c ∈ ls := by
  cases cell <;> simp [Columns.rawOp]

theorem Columns.rawOp_notIn {ls : List Lit} :
    T.rawOp cell .notIn (.list ls) = true ↔ ∃ c, cell = some c ∧ Lit.str c ∉ ls ∧ Lit.null ∉ ls := by
  cases cell <;> simp [Columns.rawOp]

theorem Columns.sat_narrowIn (hlink : cell ≠ some UNRESOLVABLE_SUBJECT) (hlist : m.Listed) (ids : List Lit) :
    T.Sat cell (m.narrowIn ids) ↔ T.Sat cell m ∧ ∃ c, cell = some c ∧ Lit.str c ∈ ids := by
  unfold Ops.narrowIn
  have hmark : ∀ ls : List Lit,
      T.rawOp cell .inList (.list (if ls.length > 0 then ls else [.str UNRESOLVABLE_SUBJECT])) =
        T.rawOp cell .inList (.list ls) := by
    intro ls
    cases ls with
    | nil =>
      rw [Bool.eq_iff_iff, Columns.rawOp_inList, Columns.rawOp_inList]
      constructor
      · rintro ⟨c, hc, hmem⟩
        have hmark : Lit.str c = Lit.str UNRESOLVABLE_SUBJECT := List.mem_singleton.mp hmem
        injection hmark with hmem
        exact absurd (hmem ▸ hc) hlink
      · rintro ⟨c, -, hmem⟩
        exact absurd hmem List.not_mem_nil
    | cons l ls => rfl
  refine Columns.sat_insert ?_
  rw [hmark]
  cases hget : m.get .inList with
  | none => simpa using Columns.rawOp_inList
  | some o =>
    obtain ⟨prev, rfl⟩ := hlist .inList o (.inl rfl) hget
    simp only [Option.some.injEq, forall_eq', Columns.rawOp_inList, List.mem_filter, List.contains_iff_mem]
    constructor
    · rintro ⟨c, hc, hprev, hids⟩
      exact ⟨⟨c, hc, hprev⟩, c, hc, hids⟩
    · rintro ⟨⟨c, hc, hprev⟩, c', hc', hids⟩
      obtain rfl := Option.some.inj (hc.symm.trans hc')
      exact ⟨c, hc, hprev, hids⟩

theorem Columns.sat_widenNin (hlist : m.Listed) (ids : List Lit) :
    T.Sat cell (m.widenNin ids) ↔
      T.Sat cell m ∧ ∃ c, cell = some c ∧ Lit.str c ∉ ids ∧ Lit.null ∉ ids := by
  unfold Ops.widenNin
  refine Columns.sat_insert ?_
  cases hget : m.get .notIn with
  | none => simpa using Columns.rawOp_notIn
  | some o =>
    obtain ⟨prev, rfl⟩ := hlist .notIn o (.inr rfl) hget
    simp only [Option.some.injEq, forall_eq', Columns.rawOp_notIn, List.mem_eraseDups, List.mem_append, not_or]
    constructor
    · rintro ⟨c, hc, ⟨hprev, hids⟩, hnull, hnull'⟩
      exact ⟨⟨c, hc, hprev, hnull⟩, c, hc, hids, hnull'⟩
    · rintro ⟨⟨c, hc, hprev, hnull⟩, c', hc', hids, hnull'⟩
      obtain rfl := Option.some.inj (hc.symm.trans hc')
      exact ⟨c, hc, ⟨hprev, hids⟩, hnull, hnull'⟩

theorem Columns.namedOp_inList {S : JsString → List SubjectId} {ls : List Lit} :
    T.namedOp S cell .inList (.list ls) = true ↔ ∃ c, cell = some c ∧ inNames S ls c = true := by
  rw [← Option.any_eq_true]
  rfl

theorem Columns.namedOp_notIn {S : JsString → List SubjectId} {ls : List Lit} :
    T.namedOp S cell .notIn (.list ls) = true ↔
      ∃ c, cell = some c ∧ inNames S ls c = false ∧ Lit.null ∉ ls := by
  have h : T.namedOp S cell .notIn (.list ls) = cell.any fun c => !inNames S ls c && !ls.contains .null := rfl
  rw [h, Option.any_eq_true]
  simp

theorem Columns.rawOp_of_plain {S : JsString → List SubjectId} (h : plain op o = true) :
    T.rawOp cell op o = T.namedOp S cell op o := by
  unfold plain at h
  split at h
  · cases h
  · cases h
  · cases h
  · cases h
  · next heq hneq hin hnin =>
    unfold Columns.rawOp Columns.namedOp
    split
    · exact (heq _ rfl rfl).elim
    · exact (hneq _ rfl rfl).elim
    · exact (hin _ rfl rfl).elim
    · exact (hnin _ rfl rfl).elim
    · rfl

/-- Resolving an operator that is well formed adds what the operator says of names. -/
theorem Columns.sat_resolved (hlink : cell ≠ some UNRESOLVABLE_SUBJECT) (hlist : m.Listed)
    (hok : okOp e.1 e.2 = true) (hnew : e.1 ≠ .inList → e.1 ≠ .notIn → m.get e.1 = none)
    (h : Resolved findAll m e m') :
    T.Sat cell m' ↔ T.Sat cell m ∧ T.namedOp (denoted findAll) cell e.1 e.2 = true := by
  have hreal : ∀ {c}, cell = some c → c ≠ UNRESOLVABLE_SUBJECT := fun hc hmark => hlink (hmark ▸ hc)
  cases h with
  | eqOne name id hone =>
    rw [Columns.sat_insert_of_none (hnew nofun nofun)]
    refine and_congr_right fun _ => ?_
    cases hcell : cell with
    | none => simp [Columns.rawOp, Columns.namedOp]
    | some c =>
      have hmem := mem_idsFor findAll (hreal hcell) name
      rw [hone, List.mem_singleton] at hmem
      simpa [Columns.rawOp, Columns.namedOp] using hmem
  | eqMany name hmany =>
    rw [Columns.sat_narrowIn hlink hlist]
    refine and_congr_right fun _ => ?_
    cases hcell : cell with
    | none => simp [Columns.namedOp]
    | some c => simpa [Columns.namedOp] using mem_idsFor findAll (hreal hcell) name
  | neqOne name id hone =>
    rw [Columns.sat_insert_of_none (hnew nofun nofun)]
    refine and_congr_right fun _ => ?_
    cases hcell : cell with
    | none => simp [Columns.rawOp, Columns.namedOp]
    | some c =>
      have hmem := mem_idsFor findAll (hreal hcell) name
      rw [hone, List.mem_singleton] at hmem
      simpa [Columns.rawOp, Columns.namedOp] using not_congr hmem
  | neqMany name hmany =>
    rw [Columns.sat_widenNin hlist]
    refine and_congr_right fun _ => ?_
    cases hcell : cell with
    | none => simp [Columns.namedOp]
    | some c => simpa [Columns.namedOp] using not_congr (mem_idsFor findAll (hreal hcell) name)
  | narrowed ls =>
    rw [Columns.sat_narrowIn hlink hlist, Columns.namedOp_inList]
    exact and_congr_right fun _ => exists_congr fun c => and_congr_right fun hc => mem_flatMap_ids (hreal hc) ls
  | widened ls =>
    rw [Columns.sat_widenNin hlist, Columns.namedOp_notIn]
    refine and_congr_right fun _ => exists_congr fun c => and_congr_right fun hc => ?_
    rw [mem_flatMap_ids (hreal hc), null_mem_flatMap_ids, Bool.not_eq_true]
  | kept op o hplain =>
    have hop : op ≠ .other PROTO := fun h => by
      subst h
      cases hok
    have hfresh : m.get op = none := by
      refine hnew ?_ ?_
      · rintro rfl
        cases o with
        | lit l => cases hok
        | list ls => cases hplain
      · rintro rfl
        cases o with
        | lit l => cases hok
        | list ls => cases hplain
    rw [Ops.set_of_ne hop, Columns.sat_insert_of_none hfresh, Columns.rawOp_of_plain hplain]

theorem listed_insert (hlist : m.Listed) (ho : op = .inList ∨ op = .notIn → ∃ ls, o = .list ls) :
    (m.insert op o).Listed := by
  intro op' o' hop hget
  rw [Ops.get_insert] at hget
  by_cases heq : op' = op
  · rw [if_pos heq] at hget
    exact Option.some.inj hget ▸ ho (heq ▸ hop)
  · rw [if_neg heq] at hget
    exact hlist op' o' hop hget

theorem listed_narrowIn (hlist : m.Listed) (ids : List Lit) : (m.narrowIn ids).Listed :=
  listed_insert hlist fun _ => ⟨_, rfl⟩

theorem listed_widenNin (hlist : m.Listed) (ids : List Lit) : (m.widenNin ids).Listed :=
  listed_insert hlist fun _ => by split <;> exact ⟨_, rfl⟩

theorem listed_resolved (hlist : m.Listed) (hok : okOp e.1 e.2 = true) (h : Resolved findAll m e m') :
    m'.Listed := by
  cases h with
  | eqOne => exact listed_insert hlist (by rintro (h | h) <;> cases h)
  | eqMany => exact listed_narrowIn hlist _
  | neqOne => exact listed_insert hlist (by rintro (h | h) <;> cases h)
  | neqMany => exact listed_widenNin hlist _
  | narrowed ls => exact listed_narrowIn hlist _
  | widened ls => exact listed_widenNin hlist _
  | kept op o hplain =>
    unfold Ops.set
    split
    · exact hlist
    · refine listed_insert hlist ?_
      cases o with
      | lit l => rintro (rfl | rfl) <;> cases hok
      | list ls => exact fun _ => ⟨ls, rfl⟩

/-- Resolving an operator leaves the others as they are, the list operators apart. -/
theorem get_resolved (h : Resolved findAll m e m') (hop : op ≠ e.1) (hin : op ≠ .inList) (hnin : op ≠ .notIn) :
    m'.get op = m.get op := by
  cases h with
  | eqOne => rw [Ops.get_insert, if_neg hop]
  | eqMany => rw [Ops.narrowIn, Ops.get_insert, if_neg hin]
  | neqOne => rw [Ops.get_insert, if_neg hop]
  | neqMany => rw [Ops.widenNin, Ops.get_insert, if_neg hnin]
  | narrowed => rw [Ops.narrowIn, Ops.get_insert, if_neg hin]
  | widened => rw [Ops.widenNin, Ops.get_insert, if_neg hnin]
  | kept op' o hplain =>
    unfold Ops.set
    split
    · rfl
    · rw [Ops.get_insert, if_neg hop]

/-- The operators of an object, resolved one after the other, say together what they say of names. -/
theorem Columns.sat_foldlM (hlink : cell ≠ some UNRESOLVABLE_SUBJECT) {col : String} {es : List (Op × Operand)}
    (hnodup : (es.map Prod.fst).Nodup) (hok : ∀ e ∈ es, okOp e.1 e.2 = true) :
    ∀ m : Ops Operand, m.Listed → (∀ e ∈ es, e.1 ≠ .inList → e.1 ≠ .notIn → m.get e.1 = none) →
      es.foldlM (resolveOp findAll col) m = .ok m' →
        (T.Sat cell m' ↔ T.Sat cell m ∧ ∀ e ∈ es, T.namedOp (denoted findAll) cell e.1 e.2 = true) := by
  induction es with
  | nil =>
    intro m _ _ h
    obtain rfl := Except.ok.inj h
    simp
  | cons e es ih =>
    intro m hlist hnew h
    rw [List.map_cons, List.nodup_cons] at hnodup
    rw [List.foldlM_cons] at h
    cases hstep : resolveOp findAll col m e with
    | error msg =>
      rw [hstep] at h
      cases h
    | ok m₁ =>
      rw [hstep] at h
      have hres := resolved_of_resolveOp hstep
      have hoke := hok e List.mem_cons_self
      have hnew₁ : ∀ e' ∈ es, e'.1 ≠ .inList → e'.1 ≠ .notIn → m₁.get e'.1 = none := by
        intro e' he' hin hnin
        have hne : e'.1 ≠ e.1 := fun heq => hnodup.1 (heq ▸ List.mem_map_of_mem he')
        rw [get_resolved hres hne hin hnin]
        exact hnew e' (List.mem_cons_of_mem e he') hin hnin
      rw [ih hnodup.2 (fun e' he' => hok e' (List.mem_cons_of_mem e he')) m₁ (listed_resolved hlist hoke hres)
        hnew₁ h, Columns.sat_resolved hlink hlist hoke (hnew e List.mem_cons_self) hres, List.forall_mem_cons,
        and_assoc]

/-- A value of a subject column, resolved, compares ids as it compared names. -/
theorem Columns.test_resolved (hlink : cell ≠ some UNRESOLVABLE_SUBJECT) {col : String} {value value' : FieldValue Operand}
    (hok : ∀ m, value = .ops m → m.entries.all (fun e => okOp e.1 e.2) = true)
    (h : resolveSubjectOperand findAll col value = .ok value') :
    value'.test (T.rawOp cell) = value.test (T.namedOp (denoted findAll) cell) := by
  have hreal : ∀ {c}, cell = some c → c ≠ UNRESOLVABLE_SUBJECT := fun hc hmark => hlink (hmark ▸ hc)
  unfold resolveSubjectOperand at h
  split at h
  · next name =>
    rw [Bool.eq_iff_iff]
    split at h
    · next id hone =>
      obtain rfl := Except.ok.inj h
      cases hcell : cell with
      | none => simp [FieldValue.test, Columns.rawOp, Columns.namedOp]
      | some c =>
        have hmem := mem_idsFor findAll (hreal hcell) name
        rw [hone, List.mem_singleton] at hmem
        simpa [FieldValue.test, Columns.rawOp, Columns.namedOp] using hmem
    · obtain rfl := Except.ok.inj h
      cases hcell : cell with
      | none => simp [FieldValue.test, Columns.rawOp, Columns.namedOp]
      | some c => simpa [FieldValue.test, Columns.rawOp, Columns.namedOp] using mem_idsFor findAll (hreal hcell) name
  · next o hname =>
    obtain rfl := Except.ok.inj h
    refine Columns.rawOp_of_plain ?_
    cases o with
    | list ls => rfl
    | lit l =>
      cases l with
      | str name => exact (hname name rfl).elim
      | null => rfl
      | other text => rfl
  · next m =>
    cases hfold : m.entries.foldlM (resolveOp findAll col) ⟨[], List.nodup_nil⟩ with
    | error msg =>
      rw [hfold] at h
      cases h
    | ok m' =>
      rw [hfold] at h
      obtain rfl := Except.ok.inj h
      have hsat := T.sat_foldlM hlink m.nodup (List.all_eq_true.mp (hok m rfl)) ⟨[], List.nodup_nil⟩
        (fun _ _ _ hget => by cases hget) (fun _ _ _ _ => rfl) hfold
      have hnone : T.Sat cell ⟨[], List.nodup_nil⟩ := fun _ _ hget => by cases hget
      rw [Bool.eq_iff_iff]
      refine (Ops.all_entries (p := T.rawOp cell)).trans (hsat.trans ?_)
      simp only [hnone, true_and, FieldValue.test, List.all_eq_true]

end Rows

/-! ## Through the tree -/

section Tree

variable {κ : Type} {subjectCols : String → Option κ} {findAll : κ → JsString → List SubjectId}

theorem resolve_field {key : String} {value : FieldValue Operand} {rest out : Filter Operand}
    (h : resolveSubjectFilterValues subjectCols findAll (.field key value rest) = .ok out) :
    ∃ value' rest', resolveField subjectCols findAll key value = .ok value' ∧
      resolveSubjectFilterValues subjectCols findAll rest = .ok rest' ∧
      out = if key = PROTO then rest' else .field key value' rest' := by
  rw [resolveSubjectFilterValues] at h
  obtain ⟨value', hvalue, h⟩ := ok_of_bind h
  obtain ⟨rest', hrest, h⟩ := ok_of_bind h
  exact ⟨value', rest', hvalue, hrest, (Except.ok.inj h).symm⟩

theorem resolve_group {conj : Bool} {subs : Subs Operand} {rest out : Filter Operand}
    (h : resolveSubjectFilterValues subjectCols findAll (.group conj subs rest) = .ok out) :
    ∃ subs' rest', resolveSubs subjectCols findAll subs = .ok subs' ∧
      resolveSubjectFilterValues subjectCols findAll rest = .ok rest' ∧ out = .group conj subs' rest' := by
  rw [resolveSubjectFilterValues] at h
  obtain ⟨subs', hsubs, h⟩ := ok_of_bind h
  obtain ⟨rest', hrest, h⟩ := ok_of_bind h
  exact ⟨subs', rest', hsubs, hrest, (Except.ok.inj h).symm⟩

theorem resolve_malformed {conj : Bool} {rest out : Filter Operand}
    (h : resolveSubjectFilterValues subjectCols findAll (.malformed conj rest) = .ok out) :
    ∃ rest', out = .malformed conj rest' := by
  rw [resolveSubjectFilterValues] at h
  obtain ⟨rest', -, h⟩ := ok_of_bind h
  exact ⟨rest', (Except.ok.inj h).symm⟩

theorem resolveSubs_filter {f : Filter Operand} {rest out : Subs Operand}
    (h : resolveSubs subjectCols findAll (.filter f rest) = .ok out) :
    ∃ f' rest', resolveSubjectFilterValues subjectCols findAll f = .ok f' ∧
      resolveSubs subjectCols findAll rest = .ok rest' ∧ out = .filter f' rest' := by
  rw [resolveSubs] at h
  obtain ⟨f', hf, h⟩ := ok_of_bind h
  obtain ⟨rest', hrest, h⟩ := ok_of_bind h
  exact ⟨f', rest', hf, hrest, (Except.ok.inj h).symm⟩

theorem resolveSubs_other {rest out : Subs Operand} (h : resolveSubs subjectCols findAll (.other rest) = .ok out) :
    ∃ rest', out = .other rest' := by
  rw [resolveSubs] at h
  obtain ⟨rest', -, h⟩ := ok_of_bind h
  exact ⟨rest', (Except.ok.inj h).symm⟩

mutual

/-- What is asked of the fields of the resolved filter is asked of the fields of the filter. -/
theorem valid_resolved {ok ok' : String → FieldValue Operand → Bool}
    (hproto : ∀ value, ok' PROTO value = true)
    (hfield : ∀ key value value', key ≠ PROTO → resolveField subjectCols findAll key value = .ok value' →
      ok key value' = ok' key value) :
    ∀ {f out : Filter Operand}, resolveSubjectFilterValues subjectCols findAll f = .ok out → out.valid ok = f.valid ok'
  | .nil, out, h => by
    rw [resolveSubjectFilterValues] at h
    obtain rfl := Except.ok.inj h
    rw [Filter.valid, Filter.valid]
  | .field key value rest, out, h => by
    obtain ⟨value', rest', hvalue, hrest, rfl⟩ := resolve_field h
    rw [Filter.valid, ← valid_resolved hproto hfield hrest]
    by_cases hkey : key = PROTO
    · rw [if_pos hkey, hkey, hproto, Bool.true_and]
    · rw [if_neg hkey, Filter.valid, hfield key value value' hkey hvalue]
  | .group conj subs rest, out, h => by
    obtain ⟨subs', rest', hsubs, hrest, rfl⟩ := resolve_group h
    rw [Filter.valid, Filter.valid, valid_resolvedSubs hproto hfield hsubs, valid_resolved hproto hfield hrest]
  | .malformed conj rest, out, h => by
    obtain ⟨rest', rfl⟩ := resolve_malformed h
    rw [Filter.valid, Filter.valid]

theorem valid_resolvedSubs {ok ok' : String → FieldValue Operand → Bool}
    (hproto : ∀ value, ok' PROTO value = true)
    (hfield : ∀ key value value', key ≠ PROTO → resolveField subjectCols findAll key value = .ok value' →
      ok key value' = ok' key value) :
    ∀ {subs out : Subs Operand}, resolveSubs subjectCols findAll subs = .ok out → out.valid ok = subs.valid ok'
  | .nil, out, h => by
    rw [resolveSubs] at h
    obtain rfl := Except.ok.inj h
    rw [Subs.valid, Subs.valid]
  | .filter f rest, out, h => by
    obtain ⟨f', rest', hf, hrest, rfl⟩ := resolveSubs_filter h
    rw [Subs.valid, Subs.valid, valid_resolved hproto hfield hf, valid_resolvedSubs hproto hfield hrest]
  | .other rest, out, h => by
    obtain ⟨rest', rfl⟩ := resolveSubs_other h
    rw [Subs.valid, Subs.valid]

end

mutual

/-- The resolved filter means of a row what the filter does when its fields do. -/
theorem holds_resolved {ok test test' : String → FieldValue Operand → Bool}
    (hproto : ∀ value, ok PROTO value = false)
    (hfield : ∀ key value value', ok key value = true → resolveField subjectCols findAll key value = .ok value' →
      test key value' = test' key value) :
    ∀ {f out : Filter Operand}, resolveSubjectFilterValues subjectCols findAll f = .ok out → f.valid ok = true →
      out.holds test = f.holds test'
  | .nil, out, h, _ => by
    rw [resolveSubjectFilterValues] at h
    obtain rfl := Except.ok.inj h
    rw [Filter.holds, Filter.holds]
  | .field key value rest, out, h, hvalid => by
    obtain ⟨value', rest', hvalue, hrest, rfl⟩ := resolve_field h
    rw [Filter.valid, Bool.and_eq_true] at hvalid
    have hkey : key ≠ PROTO := fun hkey => by
      rw [hkey, hproto] at hvalid
      exact Bool.false_ne_true hvalid.1
    rw [if_neg hkey, Filter.holds, Filter.holds, hfield key value value' hvalid.1 hvalue,
      holds_resolved hproto hfield hrest hvalid.2]
  | .group conj subs rest, out, h, hvalid => by
    obtain ⟨subs', rest', hsubs, hrest, rfl⟩ := resolve_group h
    rw [Filter.valid, Bool.and_eq_true] at hvalid
    have hall := holds_resolvedSubs hproto hfield hsubs hvalid.1
    rw [Filter.holds, Filter.holds, hall.1, hall.2, holds_resolved hproto hfield hrest hvalid.2]
  | .malformed conj rest, out, _, hvalid => by
    rw [Filter.valid] at hvalid
    cases hvalid

theorem holds_resolvedSubs {ok test test' : String → FieldValue Operand → Bool}
    (hproto : ∀ value, ok PROTO value = false)
    (hfield : ∀ key value value', ok key value = true → resolveField subjectCols findAll key value = .ok value' →
      test key value' = test' key value) :
    ∀ {subs out : Subs Operand}, resolveSubs subjectCols findAll subs = .ok out → subs.valid ok = true →
      out.all test = subs.all test' ∧ out.any test = subs.any test'
  | .nil, out, h, _ => by
    rw [resolveSubs] at h
    obtain rfl := Except.ok.inj h
    rw [Subs.all, Subs.all, Subs.any, Subs.any]
    exact ⟨rfl, rfl⟩
  | .filter f rest, out, h, hvalid => by
    obtain ⟨f', rest', hf, hrest, rfl⟩ := resolveSubs_filter h
    rw [Subs.valid, Bool.and_eq_true] at hvalid
    have hsubs := holds_resolvedSubs hproto hfield hrest hvalid.2
    rw [Subs.all, Subs.all, Subs.any, Subs.any, holds_resolved hproto hfield hf hvalid.1, hsubs.1, hsubs.2]
    exact ⟨rfl, rfl⟩
  | .other rest, out, _, hvalid => by
    rw [Subs.valid] at hvalid
    cases hvalid

end

end Tree

/-! ## Malformed operands that are lost -/

section Mended

variable {member same : Op} {keep : List Lit → Bool} {shared : Operand → Bool} {es : List (Op × Operand)}

/-- Whether what stands under `member` is taken after `e`, if something stands there; `same` under a shared name
counts as a list. -/
def slot (member same : Op) (keep : List Lit → Bool) (shared : Operand → Bool) (cur : Option Bool)
    (e : Op × Operand) : Option Bool :=
  if e.1 = member then
    match e.2 with
    | .lit _ => some false
    | .list ls => some (keep ls || cur = some true)
  else if e.1 = same && shared e.2 then some true
  else cur

/-- Whether an operator stands under a name that several subjects share. -/
def sharedUnder (same : Op) (shared : Operand → Bool) (es : List (Op × Operand)) : Bool :=
  es.any fun e => e.1 = same && shared e.2

/-- What stands under `member` is a list that is kept, or a shared name stands under `same`: after `member` where
that has no list at all. -/
def mended (member same : Op) (keep : List Lit → Bool) (shared : Operand → Bool) (es : List (Op × Operand)) : Bool :=
  es.all fun e => e.1 ≠ member ||
    match e.2 with
    | .lit _ => sharedUnder same shared (es.dropWhile fun e => e.1 ≠ member)
    | .list ls => keep ls || sharedUnder same shared es

theorem foldl_slot_of_notMem (h : member ∉ es.map Prod.fst) : ∀ cur : Option Bool,
    es.foldl (slot member same keep shared) cur = if sharedUnder same shared es then some true else cur := by
  induction es with
  | nil => exact fun _ => rfl
  | cons e es ih =>
    rw [List.map_cons, List.mem_cons, not_or] at h
    intro cur
    rw [List.foldl_cons, ih h.2, slot, if_neg (Ne.symm h.1)]
    simp only [sharedUnder, List.any_cons]
    grind

theorem sharedUnder_append {l r : List (Op × Operand)} :
    sharedUnder same shared (l ++ r) = (sharedUnder same shared l || sharedUnder same shared r) :=
  List.any_append

theorem sharedUnder_cons_of_ne {o : Operand} (hne : member ≠ same) :
    sharedUnder same shared ((member, o) :: es) = sharedUnder same shared es := by
  simp [sharedUnder, hne]

theorem foldl_slot (hne : member ≠ same) (hnodup : (es.map Prod.fst).Nodup) :
    es.foldl (slot member same keep shared) none ≠ some false ↔ mended member same keep shared es = true := by
  by_cases hmem : member ∈ es.map Prod.fst
  · obtain ⟨e, he, hkey⟩ := List.mem_map.mp hmem
    obtain ⟨l, r, rfl⟩ := List.append_of_mem he
    obtain ⟨op, o⟩ := e
    obtain rfl : op = member := hkey
    rw [List.map_append, List.map_cons, List.nodup_middle, List.nodup_cons, List.mem_append, not_or] at hnodup
    have hl : ∀ e ∈ l, e.1 ≠ op := fun e he heq => hnodup.1.1 (List.mem_map.mpr ⟨e, he, heq⟩)
    have hr : ∀ e ∈ r, e.1 ≠ op := fun e he heq => hnodup.1.2 (List.mem_map.mpr ⟨e, he, heq⟩)
    have hdrop : (l ++ (op, o) :: r).dropWhile (fun e => decide (e.1 ≠ op)) = (op, o) :: r := by
      rw [List.dropWhile_append_of_pos fun e he => decide_eq_true (hl e he),
        List.dropWhile_cons_of_neg (by simp)]
    have hall : mended op same keep shared (l ++ (op, o) :: r) = true ↔
        (match o with
        | .lit _ => sharedUnder same shared r
        | .list ls => keep ls || (sharedUnder same shared l || sharedUnder same shared r)) = true := by
      unfold mended
      rw [hdrop, sharedUnder_append, sharedUnder_cons_of_ne hne, List.all_append, List.all_cons,
        List.all_eq_true.mpr fun e he => by rw [decide_eq_true (hl e he), Bool.true_or],
        List.all_eq_true.mpr fun e he => by rw [decide_eq_true (hr e he), Bool.true_or]]
      simp
    rw [List.foldl_append, List.foldl_cons, foldl_slot_of_notMem hnodup.1.1, foldl_slot_of_notMem hnodup.1.2,
      slot, if_pos rfl, hall]
    cases o with
    | lit x => by_cases hsh : sharedUnder same shared r = true <;> simp [hsh]
    | list ls =>
      by_cases hsh : sharedUnder same shared r = true
      · simp [hsh]
      · by_cases hsl : sharedUnder same shared l = true <;> simp [hsh, hsl]
  · have hall : mended member same keep shared es = true := by
      refine List.all_eq_true.mpr fun e he => ?_
      have hother : e.1 ≠ member := fun heq => hmem (List.mem_map.mpr ⟨e, he, heq⟩)
      rw [decide_eq_true hother, Bool.true_or]
    rw [foldl_slot_of_notMem hmem]
    by_cases hsh : sharedUnder same shared es = true <;> simp [hsh, hall]

variable {findAll : JsString → List SubjectId} {m m' : Ops Operand} {e : Op × Operand}

/-- A name that several subjects share. -/
def isShared (findAll : JsString → List SubjectId) : Operand → Bool
  | .lit (.str name) => (idsFor findAll name).length ≠ 1
  | _ => false

/-- An object of operators whose malformed operands are lost where they are resolved: a `$in` that is no list before a
shared `$eq`, an empty `$in`, a `$nin` that is no list before a shared `$neq`, an empty `$nin` beside one, and an
operator named as the prototype. -/
def okOpsAfter (findAll : JsString → List SubjectId) (m : Ops Operand) : Bool :=
  mended .inList .eq (fun _ => true) (isShared findAll) m.entries &&
    (mended .notIn .neq (fun ls => ls ≠ []) (isShared findAll) m.entries &&
      m.entries.all fun e =>
        match e.1 with
        | .other name => name = PROTO
        | _ => true)

def Ops.okUnder (m : Ops Operand) (op : Op) : Option Bool :=
  (m.get op).map (okOp op)

theorem Ops.okUnder_insert {op op' : Op} {o : Operand} :
    (m.insert op o).okUnder op' = if op' = op then some (okOp op' o) else m.okUnder op' := by
  unfold Ops.okUnder
  rw [Ops.get_insert]
  split <;> rfl

theorem Ops.okUnder_set {op op' : Op} {o : Operand} (h : op' ≠ .other PROTO) :
    (m.set op o).okUnder op' = if op' = op then some (okOp op' o) else m.okUnder op' := by
  unfold Ops.set
  by_cases hop : op = .other PROTO
  · rw [if_pos hop, if_neg fun heq => h (heq.trans hop)]
  · rw [if_neg hop, Ops.okUnder_insert]

theorem okOp_list {ls : List Lit} (h : ls ≠ []) : okOp .inList (.list ls) = true ∧ okOp .notIn (.list ls) = true :=
  ⟨decide_eq_true h, decide_eq_true h⟩

theorem okUnder_narrowIn (ids : List Lit) {op : Op} :
    (m.narrowIn ids).okUnder op = if op = .inList then some true else m.okUnder op := by
  unfold Ops.narrowIn
  rw [Ops.okUnder_insert]
  refine ite_congr rfl (fun hop => ?_) fun _ => rfl
  subst hop
  refine congrArg some (okOp_list ?_).1
  split_ifs with hpos
  · exact List.ne_nil_of_length_pos hpos
  · exact List.cons_ne_nil _ _

theorem eraseDups_eq_nil {l : List Lit} : l.eraseDups = [] ↔ l = [] := by
  cases l with
  | nil => simp
  | cons a l => simp [List.eraseDups_cons]

theorem okUnder_widenNin (ids : List Lit) {op : Op} :
    (m.widenNin ids).okUnder op =
      if op = .notIn then some (ids ≠ [] || m.okUnder .notIn = some true) else m.okUnder op := by
  unfold Ops.widenNin
  rw [Ops.okUnder_insert]
  refine ite_congr rfl (fun hop => ?_) fun _ => rfl
  subst hop
  unfold Ops.okUnder
  refine congrArg some ?_
  cases hget : m.get .notIn with
  | none => simp [okOp]
  | some o =>
    cases o with
    | lit l => simp [okOp]
    | list prev =>
      rw [Bool.eq_iff_iff]
      simp only [okOp, Option.map_some, decide_eq_true_eq, Bool.or_eq_true, ne_eq, eraseDups_eq_nil,
        List.append_eq_nil_iff, Option.some.injEq]
      tauto

theorem idsFor_ne_nil (name : JsString) : idsFor findAll name ≠ [] := by
  unfold idsFor
  by_cases hblank : trim name = []
  · simp [hblank]
  · by_cases hnone : (findAll (trim name)).length = 0
    · simp [hblank, hnone]
    · simp only [hblank, hnone, if_false]
      exact fun hnil => hnone (List.length_eq_zero_iff.mpr hnil)

theorem flatMap_ids_eq_nil {ls : List Lit} : ls.flatMap (idsOfLit findAll) = [] ↔ ls = [] := by
  cases ls with
  | nil => simp
  | cons l ls =>
    cases l with
    | str name => simp [idsOfLit, idsFor_ne_nil]
    | null => simp [idsOfLit]
    | other text => simp [idsOfLit]

theorem not_shared_of_plain {op : Op} {o : Operand} (h : plain op o = true) (hsame : same = .eq ∨ same = .neq) :
    (decide (op = same) && isShared findAll o) = false := by
  rw [Bool.eq_false_iff, ne_eq, Bool.and_eq_true, decide_eq_true_eq]
  rintro ⟨rfl, hshared⟩
  unfold isShared at hshared
  split at hshared
  · rcases hsame with rfl | rfl <;> cases h
  · cases hshared

theorem okUnder_inList_resolved (h : Resolved findAll m e m') :
    m'.okUnder .inList = slot .inList .eq (fun _ => true) (isShared findAll) (m.okUnder .inList) e := by
  cases h with
  | eqOne name id hone => simp [Ops.okUnder_insert, slot, isShared, hone]
  | eqMany name hmany => simp [okUnder_narrowIn, slot, isShared, hmany]
  | neqOne name id hone => simp [Ops.okUnder_insert, slot]
  | neqMany name hmany => simp [okUnder_widenNin, slot]
  | narrowed ls => simp [okUnder_narrowIn, slot]
  | widened ls => simp [okUnder_widenNin, slot]
  | kept op o hplain =>
    have hset : (m.set op o).okUnder .inList = _ := Ops.okUnder_set nofun
    rw [hset, slot]
    by_cases hop : op = .inList
    · subst hop
      cases o with
      | lit l => rfl
      | list ls => cases hplain
    · rw [if_neg (Ne.symm hop), if_neg hop, not_shared_of_plain hplain (.inl rfl), if_neg Bool.false_ne_true]

theorem okUnder_notIn_resolved (h : Resolved findAll m e m') :
    m'.okUnder .notIn = slot .notIn .neq (fun ls => ls ≠ []) (isShared findAll) (m.okUnder .notIn) e := by
  cases h with
  | eqOne name id hone => simp [Ops.okUnder_insert, slot]
  | eqMany name hmany => simp [okUnder_narrowIn, slot]
  | neqOne name id hone => simp [Ops.okUnder_insert, slot, isShared, hone]
  | neqMany name hmany => simp [okUnder_widenNin, slot, isShared, hmany, idsFor_ne_nil]
  | narrowed ls => simp [okUnder_narrowIn, slot]
  | widened ls =>
    rw [okUnder_widenNin, if_pos rfl, slot, if_pos rfl]
    simp only [ne_eq, flatMap_ids_eq_nil]
  | kept op o hplain =>
    have hset : (m.set op o).okUnder .notIn = _ := Ops.okUnder_set nofun
    rw [hset, slot]
    by_cases hop : op = .notIn
    · subst hop
      cases o with
      | lit l => rfl
      | list ls => cases hplain
    · rw [if_neg (Ne.symm hop), if_neg hop, not_shared_of_plain hplain (.inr rfl), if_neg Bool.false_ne_true]

theorem get_other_resolved (h : Resolved findAll m e m') (name : String) :
    m'.get (.other name) = none ↔ m.get (.other name) = none ∧ (e.1 = .other name → name = PROTO) := by
  cases h with
  | eqOne => simp [Ops.get_insert]
  | eqMany => simp [Ops.narrowIn, Ops.get_insert]
  | neqOne => simp [Ops.get_insert]
  | neqMany => simp [Ops.widenNin, Ops.get_insert]
  | narrowed => simp [Ops.narrowIn, Ops.get_insert]
  | widened => simp [Ops.widenNin, Ops.get_insert]
  | kept op o hplain =>
    unfold Ops.set
    by_cases hproto : op = .other PROTO
    · rw [if_pos hproto]
      refine (and_iff_left fun heq => ?_).symm
      injection hproto.symm.trans heq with hname
      exact hname.symm
    · rw [if_neg hproto, Ops.get_insert]
      by_cases hop : op = .other name
      · subst hop
        have hname : name ≠ PROTO := fun heq => hproto (heq ▸ rfl)
        simp [hname]
      · simp [hop, Ne.symm hop]

/-- What each step does to a part of the operators, the run does. -/
theorem foldlM_resolveOp {σ : Type} (st : Ops Operand → σ) (g : σ → Op × Operand → σ)
    (hstep : ∀ m e m', Resolved findAll m e m' → st m' = g (st m) e) {col : String} :
    ∀ {es : List (Op × Operand)} {m : Ops Operand}, es.foldlM (resolveOp findAll col) m = .ok m' →
      st m' = es.foldl g (st m)
  | [], m, h => congrArg st (Except.ok.inj h).symm
  | e :: es, m, h => by
    rw [List.foldlM_cons] at h
    obtain ⟨m₁, hone, hrest⟩ := ok_of_bind h
    rw [foldlM_resolveOp st g hstep hrest, hstep m e m₁ (resolved_of_resolveOp hone), List.foldl_cons]

theorem foldl_and {α : Type*} (p : α → Prop) : ∀ (l : List α) (q : Prop),
    l.foldl (fun q a => q ∧ p a) q ↔ q ∧ ∀ a ∈ l, p a
  | [], q => by simp
  | a :: l, q => by rw [List.foldl_cons, foldl_and p l, List.forall_mem_cons, and_assoc]

theorem Ops.ok_iff : (m.entries.all fun e => okOp e.1 e.2) = true ↔
    m.okUnder .inList ≠ some false ∧ m.okUnder .notIn ≠ some false ∧ ∀ name, m.get (.other name) = none := by
  rw [Ops.all_entries]
  unfold Ops.okUnder
  constructor
  · intro h
    refine ⟨fun hbad => ?_, fun hbad => ?_, fun name => ?_⟩
    · obtain ⟨o, ho, hfalse⟩ := Option.map_eq_some_iff.mp hbad
      exact Bool.false_ne_true (hfalse.symm.trans (h _ o ho))
    · obtain ⟨o, ho, hfalse⟩ := Option.map_eq_some_iff.mp hbad
      exact Bool.false_ne_true (hfalse.symm.trans (h _ o ho))
    · refine Option.eq_none_iff_forall_ne_some.mpr fun o ho => ?_
      exact absurd (h _ o ho) (by simp [okOp])
  · rintro ⟨hin, hnin, hother⟩ op o hget
    cases op with
    | inList => simpa [hget] using hin
    | notIn => simpa [hget] using hnin
    | other name => rw [hother name] at hget; cases hget
    | _ => rfl

/-- The resolved operators are taken exactly when the malformed ones are lost. -/
theorem ok_resolved {col : String} (h : m.entries.foldlM (resolveOp findAll col) ⟨[], List.nodup_nil⟩ = .ok m') :
    (m'.entries.all fun e => okOp e.1 e.2) = okOpsAfter findAll m := by
  have hin := foldlM_resolveOp (fun m => m.okUnder .inList) _ (fun _ _ _ => okUnder_inList_resolved) h
  have hnin := foldlM_resolveOp (fun m => m.okUnder .notIn) _ (fun _ _ _ => okUnder_notIn_resolved) h
  have hother : (∀ name, m'.get (.other name) = none) ↔
      ∀ e ∈ m.entries, ∀ name, e.1 = .other name → name = PROTO := by
    have hrun := foldlM_resolveOp (fun m => ∀ name, m.get (.other name) = none)
      (fun q e => q ∧ ∀ name, e.1 = .other name → name = PROTO)
      (fun m e m' hres => propext ((forall_congr' (get_other_resolved hres)).trans forall_and)) h
    rw [hrun, foldl_and]
    exact and_iff_right fun _ => rfl
  rw [Bool.eq_iff_iff, Ops.ok_iff, okOpsAfter, Bool.and_eq_true, Bool.and_eq_true, hin, hnin]
  refine and_congr (foldl_slot nofun m.nodup) (and_congr (foldl_slot nofun m.nodup) (hother.trans ?_))
  rw [List.all_eq_true]
  refine forall_congr' fun e => imp_congr_right fun _ => ?_
  cases e.1 with
  | other name => simp
  | _ => simp

end Mended

/-! ## What the resolved filter answers -/

section Answers

variable {κ ρ : Type} (T : Columns κ ρ) (findAll : κ → JsString → List SubjectId)

/-- Whether what `_parseFilter` refuses in a field is gone from it once it is resolved. -/
def Columns.okAfter (key : String) (value : FieldValue Operand) : Bool :=
  match T.subjectCols key with
  | none => key = PROTO || T.accepts key value
  | some kind =>
    match value with
    | .operand _ => true
    | .ops m => okOpsAfter (findAll kind) m

variable {T findAll}

theorem Columns.ok_proto (value : FieldValue Operand) : T.ok PROTO value = false := by
  simp [Columns.ok, T.proto]

theorem Columns.okAfter_proto (value : FieldValue Operand) : T.okAfter findAll PROTO value = true := by
  simp [Columns.okAfter, T.proto]

theorem Columns.ok_resolveField {key : String} {value value' : FieldValue Operand} (hkey : key ≠ PROTO)
    (h : resolveField T.subjectCols findAll key value = .ok value') :
    T.ok key value' = T.okAfter findAll key value := by
  unfold resolveField at h
  unfold Columns.ok Columns.okAfter
  cases hcol : T.subjectCols key with
  | none =>
    rw [hcol] at h
    obtain rfl := Except.ok.inj h
    simp [hkey]
  | some kind =>
    rw [hcol] at h
    simp only at h ⊢
    unfold resolveSubjectOperand at h
    split at h
    · split at h
      · obtain rfl := Except.ok.inj h
        rfl
      · obtain rfl := Except.ok.inj h
        simp [okOp, idsFor_ne_nil]
    · obtain rfl := Except.ok.inj h
      rfl
    · next m =>
      cases hfold : m.entries.foldlM (resolveOp (findAll kind) key) ⟨[], List.nodup_nil⟩ with
      | error msg =>
        rw [hfold] at h
        cases h
      | ok m' =>
        rw [hfold] at h
        obtain rfl := Except.ok.inj h
        exact ok_resolved hfold

theorem Columns.test_resolveField (row : ρ) {key : String} {value value' : FieldValue Operand} (hok : T.ok key value = true)
    (h : resolveField T.subjectCols findAll key value = .ok value') :
    T.rawTest row key value' = T.namedTest (fun kind => denoted (findAll kind)) row key value := by
  unfold resolveField at h
  unfold Columns.ok at hok
  unfold Columns.rawTest Columns.namedTest
  cases hcol : T.subjectCols key with
  | none =>
    rw [hcol] at h
    obtain rfl := Except.ok.inj h
    rfl
  | some kind =>
    rw [hcol] at h hok
    exact Columns.test_resolved (T.linked key row) (fun m hm => by rwa [hm] at hok) h

/-- Operators that are well formed stay so. -/
theorem okOpsAfter_of_ok {findAll : JsString → List SubjectId} {m : Ops Operand}
    (h : m.entries.all (fun e => okOp e.1 e.2) = true) : okOpsAfter findAll m = true := by
  rw [List.all_eq_true] at h
  unfold okOpsAfter mended
  rw [Bool.and_eq_true, Bool.and_eq_true, List.all_eq_true, List.all_eq_true, List.all_eq_true]
  refine ⟨fun ⟨op, o⟩ he => ?_, fun ⟨op, o⟩ he => ?_, fun ⟨op, o⟩ he => ?_⟩
  · by_cases hop : op = .inList
    · subst hop
      cases o with
      | lit l => exact absurd (h _ he) (by simp [okOp])
      | list ls => simp
    · simp [hop]
  · by_cases hop : op = .notIn
    · subst hop
      cases o with
      | lit l => exact absurd (h _ he) (by simp [okOp])
      | list ls =>
        have hls : ls ≠ [] := of_decide_eq_true (h _ he)
        simp [hls]
    · simp [hop]
  · cases op with
    | other name => exact absurd (h _ he) (by simp [okOp])
    | _ => rfl

theorem Columns.okAfter_of_ok {key : String} {value : FieldValue Operand} (h : T.ok key value = true) :
    T.okAfter findAll key value = true := by
  unfold Columns.ok at h
  unfold Columns.okAfter
  cases hcol : T.subjectCols key with
  | none =>
    rw [hcol] at h
    simp only [Bool.and_eq_true] at h
    simp [h.2]
  | some kind =>
    rw [hcol] at h
    cases value with
    | operand o => rfl
    | ops m => exact okOpsAfter_of_ok h

end Answers

/-! ## A name that two subjects share -/

/-- Contracts that name their owner, each linked to the first of two subjects. -/
def contracts : Columns Unit Unit where
  subjectCols := fun col => if col = "owner" then some () else none
  proto := rfl
  accepts := fun _ _ => true
  means := fun _ _ _ => true
  link := fun _ _ => some (utf16 "s1")
  linked := fun _ _ => by decide
  compare := fun _ _ _ => false

def twoAnnas (_ : Unit) (name : JsString) : List SubjectId :=
  if name = utf16 "Anna" then [utf16 "s1", utf16 "s2"] else []

/-- `{ owner: { $eq: 'Anna', $in: ['Anna', 'Bea'] } }` -/
def ownedByAnna : Filter Operand :=
  .field "owner"
    (.ops ⟨[(.eq, .lit (.str (utf16 "Anna"))), (.inList, .list [.str (utf16 "Anna"), .str (utf16 "Bea")])], by decide⟩)
    .nil

end Lynox.Collections
