import Lynox.Subjects.Forms
import Lynox.Text.Matches

/-!
# One subject per name

`findOrCreate` answers with the subject that has the name or carries it among its aliases, and inserts one
where there is none. The database folds case for ASCII (`lowerAscii`), the alias lists are compared in lower
case; `dbText` is what the database holds of a text that is bound.

Where every call that inserts leaves its alias list out or has its name on it, every subject carries its own
name (`Named`), so that no two of one kind and owner share one, and a name that was answered stays with its
subject (`Answered`).
-/

namespace Lynox.Subjects

open Text

/-! ## Finding -/

def DEFAULT_OWNER : JsString :=
  utf16 "system"

structure CreateParams where
  kind : SubjectKind
  name : JsString
  aliases : Option (List JsString)
  ownerUserId : Option JsString
  isSelf : Bool
  parentId : Option Id

def CreateParams.owner (p : CreateParams) : JsString :=
  p.ownerUserId.getD DEFAULT_OWNER

/-- `\s+` -/
def whiteRun : Pattern Unit := fun s =>
  let n := (s.takeWhile isWhite).length
  if n = 0 then none else some ((), n - 1)

def TRAILING : JsString :=
  utf16 ".,;:!?"

/-- The name of a kind other than an engagement. -/
def normalizeSubjectName (name : JsString) : JsString :=
  let n := replace whiteRun (fun _ => [0x20]) (trim name)
  let n := trim ((n.reverse.dropWhile fun u => TRAILING.contains u).reverse)
  if n = [] then trim name else n

/-- What a create call would fold into. -/
inductive Lookup
  | ambiguous (candidateIds : List Id)
  | row (row : Option (Id × SubjectRow))

section Find

variable (toLowerCase dbText : JsString → JsString) (g : Graph)

def ofKind (kind : SubjectKind) (owner : JsString) (row : SubjectRow) : Bool :=
  row.kind = kind && row.ownerUserId = dbText owner && row.archivedAt.isNone

def findCanonical (name : JsString) (kind : SubjectKind) (owner : JsString) : Option (Id × SubjectRow) :=
  g.subjects.rows.find? fun e =>
    lowerAscii e.2.name = lowerAscii (dbText name) && NAME_DEDUPED_SUBJECT_KINDS.contains e.2.kind &&
      ofKind dbText kind owner e.2

/-- The subjects that carry an alias. -/
def aliasHits (name : JsString) (kind : SubjectKind) (owner : JsString) : List (Id × SubjectRow) :=
  g.subjects.select fun _ row =>
    ofKind dbText kind owner row && (aliasKeys toLowerCase row.aliases).contains (toLowerCase name)

def resolveForCreate (p : CreateParams) : Lookup :=
  if !NAME_DEDUPED_SUBJECT_KINDS.contains p.kind then .row none
  else
    let normalized := normalizeSubjectName p.name
    match findCanonical dbText g p.name p.kind p.owner with
    | some canonical => .row (some canonical)
    | none =>
      match aliasHits toLowerCase dbText g p.name p.kind p.owner with
      | [] => .row (if normalized ≠ p.name then findCanonical dbText g normalized p.kind p.owner else none)
      | [hit] => .row (some hit)
      | hits => .ambiguous (hits.map Prod.fst)

/-! ## Creating -/

/-- The row of a new subject. -/
def newRow (p : CreateParams) : SubjectRow :=
  { kind := p.kind
    name := dbText p.name
    aliases := (Value.strings (p.aliases.getD [p.name])).write
    isSelf := p.isSelf
    ownerUserId := dbText p.owner
    archivedAt := none
    mergedInto := none }

def createSubject (p : CreateParams) (id : Id) : Except JsString Graph :=
  let row := newRow dbText p
  if g.hasSubject id then .error (utf16 "UNIQUE constraint failed: subjects.id")
  else if g.clashes id row then .error (utf16 "UNIQUE constraint failed: index 'idx_subjects_canonical'")
  else if !p.parentId.all g.hasSubject then .error (utf16 "FOREIGN KEY constraint failed")
  else .ok ({ g with subjects := g.subjects.insertOrIgnore id row }.setColumn .subjectsParent
    ((g.columns .subjectsParent).insertOrIgnore id p.parentId))

def mergeAliases (id : Id) (row : SubjectRow) (forms : List JsString) : Graph :=
  g.updateSubject id fun r => { r with aliases := (unionAliases toLowerCase row.aliases forms).json }

inductive SubjectResolution
  | ambiguous (candidateIds : List Id)
  | found (id : Id) (created : Bool)
  | failed (reason : JsString)
  deriving DecidableEq

/-- The graph after a call and its answer; `id` is the one a new subject gets. -/
def findOrCreate (p : CreateParams) (id : Id) : Graph × SubjectResolution :=
  match resolveForCreate toLowerCase dbText g p with
  | .ambiguous ids => (g, .ambiguous ids)
  | .row (some (hit, row)) =>
    (mergeAliases toLowerCase g hit row (p.name :: p.aliases.getD []), .found hit false)
  | .row none =>
    match createSubject dbText g p id with
    | .ok g' => (g', .found id true)
    | .error reason => (g, .failed reason)

/-- A graph without rows. -/
def Graph.empty : Graph :=
  ⟨.empty, fun _ => .empty, fun _ => .empty, .empty, .empty⟩

/-- The graph after some calls. -/
def afterCalls (calls : List (CreateParams × Id)) : Graph :=
  calls.foldl (fun g c => (findOrCreate toLowerCase dbText g c.1 c.2).1) g

end Find

/-! ## What a lookup finds -/

section Lookup

variable {toLowerCase dbText : JsString → JsString} {g g' : Graph} {p : CreateParams} {id id' hit : Id}
  {row : SubjectRow} {kind : SubjectKind} {owner name : JsString}

theorem ofKind_iff : ofKind dbText kind owner row = true ↔
    row.kind = kind ∧ row.ownerUserId = dbText owner ∧ row.archivedAt = none := by
  simp [ofKind, and_assoc]

theorem findCanonical_spec (h : findCanonical dbText g name kind owner = some (id, row)) :
    g.subjects.get id = some row ∧ lowerAscii row.name = lowerAscii (dbText name) ∧ row.kind = kind ∧
      row.ownerUserId = dbText owner := by
  have hfound := List.find?_some h
  simp only [Bool.and_eq_true, decide_eq_true_eq, ofKind_iff] at hfound
  exact ⟨Keyed.get_eq_some_iff.2 (List.mem_of_find?_eq_some h), hfound.1.1, hfound.2.1, hfound.2.2.1⟩

theorem mem_aliasHits : (id, row) ∈ aliasHits toLowerCase dbText g name kind owner ↔
    g.subjects.get id = some row ∧ (row.kind = kind ∧ row.ownerUserId = dbText owner ∧ row.archivedAt = none) ∧
      toLowerCase name ∈ aliasKeys toLowerCase row.aliases := by
  rw [aliasHits, Keyed.mem_select, Bool.and_eq_true, ofKind_iff, List.contains_iff_mem]

/-- How a lookup of a kind with one subject per name ends. -/
theorem resolveForCreate_cases (toLowerCase dbText : JsString → JsString) (g : Graph)
    (hkind : p.kind ∈ NAME_DEDUPED_SUBJECT_KINDS) :
    (∃ e, findCanonical dbText g p.name p.kind p.owner = some e ∧
      resolveForCreate toLowerCase dbText g p = .row (some e)) ∨
    (findCanonical dbText g p.name p.kind p.owner = none ∧
      aliasHits toLowerCase dbText g p.name p.kind p.owner = [] ∧
      resolveForCreate toLowerCase dbText g p = .row
        (if normalizeSubjectName p.name ≠ p.name then
          findCanonical dbText g (normalizeSubjectName p.name) p.kind p.owner else none)) ∨
    (∃ e, aliasHits toLowerCase dbText g p.name p.kind p.owner = [e] ∧
      resolveForCreate toLowerCase dbText g p = .row (some e)) ∨
    ∃ ids, aliasHits toLowerCase dbText g p.name p.kind p.owner ≠ [] ∧
      resolveForCreate toLowerCase dbText g p = .ambiguous ids := by
  have hdedup : (!NAME_DEDUPED_SUBJECT_KINDS.contains p.kind) = false := by simpa using hkind
  unfold resolveForCreate
  rw [hdedup]
  simp only [Bool.false_eq_true, if_false]
  cases hcanonical : findCanonical dbText g p.name p.kind p.owner with
  | some e => exact .inl ⟨e, rfl, rfl⟩
  | none =>
    rcases hhits : aliasHits toLowerCase dbText g p.name p.kind p.owner with _ | ⟨e, _ | ⟨e', hits⟩⟩
    · exact .inr (.inl ⟨rfl, rfl, rfl⟩)
    · exact .inr (.inr (.inl ⟨e, rfl, rfl⟩))
    · exact .inr (.inr (.inr ⟨_, List.cons_ne_nil _ _, rfl⟩))

/-- The subject a call folds into is of its kind and owner. -/
theorem resolveForCreate_row (h : resolveForCreate toLowerCase dbText g p = .row (some (hit, row))) :
    p.kind ∈ NAME_DEDUPED_SUBJECT_KINDS ∧ g.subjects.get hit = some row ∧ row.kind = p.kind ∧
      row.ownerUserId = dbText p.owner := by
  by_cases hkind : p.kind ∈ NAME_DEDUPED_SUBJECT_KINDS
  · refine ⟨hkind, ?_⟩
    rcases resolveForCreate_cases toLowerCase dbText g hkind with
      ⟨e, hcanonical, heq⟩ | ⟨-, -, heq⟩ | ⟨e, hhits, heq⟩ | ⟨ids, -, heq⟩
    · obtain rfl := Option.some.inj (Lookup.row.inj (heq.symm.trans h))
      have hspec := findCanonical_spec hcanonical
      exact ⟨hspec.1, hspec.2.2⟩
    · have hsome := Lookup.row.inj (heq.symm.trans h)
      split at hsome
      · have hspec := findCanonical_spec hsome
        exact ⟨hspec.1, hspec.2.2⟩
      · exact nomatch hsome
    · obtain rfl := Option.some.inj (Lookup.row.inj (heq.symm.trans h))
      have hmem : (hit, row) ∈ aliasHits toLowerCase dbText g p.name p.kind p.owner := by simp [hhits]
      have hspec := mem_aliasHits.1 hmem
      exact ⟨hspec.1, hspec.2.1.1, hspec.2.1.2.1⟩
    · exact nomatch heq.symm.trans h
  · have hnone : resolveForCreate toLowerCase dbText g p = .row none := by
      unfold resolveForCreate
      rw [if_pos (by simpa using hkind)]
    exact nomatch hnone.symm.trans h

/-- What one call can do. -/
theorem findOrCreate_cases (toLowerCase dbText : JsString → JsString) (g : Graph) (p : CreateParams) (id : Id) :
    (∃ ids, findOrCreate toLowerCase dbText g p id = (g, .ambiguous ids)) ∨
    (∃ hit row, resolveForCreate toLowerCase dbText g p = .row (some (hit, row)) ∧
      findOrCreate toLowerCase dbText g p id =
        (mergeAliases toLowerCase g hit row (p.name :: p.aliases.getD []), .found hit false)) ∨
    (∃ g', resolveForCreate toLowerCase dbText g p = .row none ∧ createSubject dbText g p id = .ok g' ∧
      findOrCreate toLowerCase dbText g p id = (g', .found id true)) ∨
    ∃ reason, findOrCreate toLowerCase dbText g p id = (g, .failed reason) := by
  unfold findOrCreate
  cases hresolve : resolveForCreate toLowerCase dbText g p with
  | ambiguous ids => exact .inl ⟨ids, rfl⟩
  | row found =>
    rcases found with _ | ⟨hit, row⟩
    · cases hcreate : createSubject dbText g p id with
      | ok g' => exact .inr (.inr (.inl ⟨g', rfl, rfl, rfl⟩))
      | error reason => exact .inr (.inr (.inr ⟨reason, rfl⟩))
    · exact .inr (.inl ⟨hit, row, rfl, rfl⟩)

/-- An ambiguous answer changes nothing. -/
theorem findOrCreate_ambiguous {ids : List Id} (h : (findOrCreate toLowerCase dbText g p id).2 = .ambiguous ids) :
    (findOrCreate toLowerCase dbText g p id).1 = g := by
  rcases findOrCreate_cases toLowerCase dbText g p id with
    ⟨ids', heq⟩ | ⟨hit, row, -, heq⟩ | ⟨g', -, -, heq⟩ | ⟨reason, heq⟩
  · rw [heq]
  · rw [heq] at h
    exact nomatch h
  · rw [heq] at h
    exact nomatch h
  · rw [heq]

/-! ### The rows after a call -/

theorem get_mergeAliases (forms : List JsString) : (mergeAliases toLowerCase g hit row forms).subjects.get id =
    (g.subjects.get id).map fun r =>
      if id = hit then { r with aliases := (unionAliases toLowerCase row.aliases forms).json } else r :=
  Keyed.get_updateAt _

theorem createSubject_spec (h : createSubject dbText g p id = .ok g') : g.subjects.get id = none ∧
    ∀ id', g'.subjects.get id' = if id' = id then some (newRow dbText p) else g.subjects.get id' := by
  unfold createSubject at h
  simp only at h
  split_ifs at h with hthere hclash hparent
  have hnone : g.subjects.get id = none := by simpa [Graph.hasSubject] using hthere
  refine ⟨hnone, fun id' => ?_⟩
  rw [← Except.ok.inj h]
  show (g.subjects.insertOrIgnore id (newRow dbText p)).get id' = _
  rw [Keyed.get_insertOrIgnore, hnone]
  rfl

end Lookup

/-! ## Subjects keep their names -/

section Named

variable (toLowerCase dbText : JsString → JsString)

/-- Every subject of a kind with one per name carries its name, and no two of one owner share one. -/
structure Named (g : Graph) : Prop where
  live : ∀ {id row}, g.subjects.get id = some row → row.archivedAt = none
  own : ∀ {id row}, g.subjects.get id = some row → row.kind ∈ NAME_DEDUPED_SUBJECT_KINDS →
    toLowerCase row.name ∈ aliasKeys toLowerCase row.aliases
  apart : ∀ {id id' row row'}, g.subjects.get id = some row → g.subjects.get id' = some row' →
    row.kind ∈ NAME_DEDUPED_SUBJECT_KINDS → row'.kind = row.kind → row'.ownerUserId = row.ownerUserId →
      toLowerCase row'.name = toLowerCase row.name → id' = id

/-- The subject carries the name, and no other of its kind and owner is named so. -/
structure Answered (g : Graph) (kind : SubjectKind) (owner key : JsString) (id : Id) : Prop where
  carries : ∃ row, g.subjects.get id = some row ∧ row.kind = kind ∧ row.ownerUserId = dbText owner ∧
    key ∈ aliasKeys toLowerCase row.aliases
  only : ∀ {id' row}, g.subjects.get id' = some row → row.kind = kind → row.ownerUserId = dbText owner →
    toLowerCase row.name = key → id' = id

/-- A call whose name the database holds as it is, and whose alias list has the name on it where no subject
is found for it. -/
def NamesItself (g : Graph) (p : CreateParams) : Prop :=
  p.kind ∈ NAME_DEDUPED_SUBJECT_KINDS → WellFormed p.name ∧
    (findCanonical dbText g p.name p.kind p.owner = none →
      aliasHits toLowerCase dbText g p.name p.kind p.owner = [] →
        findCanonical dbText g (normalizeSubjectName p.name) p.kind p.owner = none →
          ∀ aliases, p.aliases = some aliases → toLowerCase p.name ∈ aliases.map toLowerCase)

variable {toLowerCase dbText} {g g' : Graph} {p : CreateParams} {id hit : Id} {row : SubjectRow}
  {kind : SubjectKind} {owner key : JsString}

theorem named_empty : Named toLowerCase Graph.empty where
  live h := nomatch h
  own h := nomatch h
  apart h := nomatch h

theorem aliasKeys_newRow (haliases : ∀ aliases, p.aliases = some aliases →
    toLowerCase p.name ∈ aliases.map toLowerCase) :
    toLowerCase p.name ∈ aliasKeys toLowerCase (newRow dbText p).aliases := by
  show toLowerCase p.name ∈ aliasKeys toLowerCase (Value.strings (p.aliases.getD [p.name])).write
  rw [aliasKeys, parseAliases_strings]
  cases hp : p.aliases with
  | none => simp
  | some aliases => exact haliases aliases hp

/-- Where a lookup finds nothing, no subject carries the name, and the new one will. -/
theorem resolveForCreate_none (hkind : p.kind ∈ NAME_DEDUPED_SUBJECT_KINDS)
    (hp : NamesItself toLowerCase dbText g p) (h : resolveForCreate toLowerCase dbText g p = .row none) :
    aliasHits toLowerCase dbText g p.name p.kind p.owner = [] ∧
      toLowerCase p.name ∈ aliasKeys toLowerCase (newRow dbText p).aliases := by
  rcases resolveForCreate_cases toLowerCase dbText g hkind with
    ⟨e, -, heq⟩ | ⟨hcanonical, hhits, heq⟩ | ⟨e, -, heq⟩ | ⟨ids, -, heq⟩
  · exact nomatch heq.symm.trans h
  · refine ⟨hhits, aliasKeys_newRow ((hp hkind).2 hcanonical hhits ?_)⟩
    have hnone := Lookup.row.inj (heq.symm.trans h)
    by_cases hsame : normalizeSubjectName p.name = p.name
    · rw [hsame]
      exact hcanonical
    · rwa [if_pos hsame] at hnone
  · exact nomatch heq.symm.trans h
  · exact nomatch heq.symm.trans h

/-- A subject with the name is among those that carry it. -/
theorem Named.mem_hits (hg : Named toLowerCase g) (hkind : p.kind ∈ NAME_DEDUPED_SUBJECT_KINDS)
    (hrow : g.subjects.get id = some row) (hk : row.kind = p.kind) (ho : row.ownerUserId = dbText p.owner)
    (hname : toLowerCase row.name = toLowerCase p.name) :
    (id, row) ∈ aliasHits toLowerCase dbText g p.name p.kind p.owner :=
  mem_aliasHits.2 ⟨hrow, ⟨hk, ho, hg.live hrow⟩, hname ▸ hg.own hrow (hk ▸ hkind)⟩

/-! ### A merge of aliases -/

/-- A row after a merge is a row before it, with more aliases. -/
theorem get_mergeAliases_cases {forms : List JsString} {row' : SubjectRow} (hhit : g.subjects.get hit = some row)
    (h : (mergeAliases toLowerCase g hit row forms).subjects.get id = some row') :
    ∃ r, g.subjects.get id = some r ∧ row'.kind = r.kind ∧ row'.name = r.name ∧
      row'.ownerUserId = r.ownerUserId ∧ row'.archivedAt = r.archivedAt ∧
        ∀ k ∈ aliasKeys toLowerCase r.aliases, k ∈ aliasKeys toLowerCase row'.aliases := by
  rw [get_mergeAliases, Option.map_eq_some_iff] at h
  obtain ⟨r, hr, rfl⟩ := h
  refine ⟨r, hr, ?_⟩
  by_cases hid : id = hit
  · subst hid
    obtain rfl := Option.some.inj (hhit.symm.trans hr)
    rw [if_pos rfl]
    exact ⟨rfl, rfl, rfl, rfl, fun k hk => mem_keys_union.2 (.inl hk)⟩
  · rw [if_neg hid]
    exact ⟨rfl, rfl, rfl, rfl, fun k hk => hk⟩

theorem Named.mergeAliases {forms : List JsString} (hg : Named toLowerCase g)
    (hhit : g.subjects.get hit = some row) :
    Named toLowerCase (mergeAliases toLowerCase g hit row forms) where
  live h := by
    obtain ⟨r, hr, -, -, -, harchived, -⟩ := get_mergeAliases_cases hhit h
    exact harchived.trans (hg.live hr)
  own h hkind := by
    obtain ⟨r, hr, hk, hn, -, -, hkeys⟩ := get_mergeAliases_cases hhit h
    exact hn ▸ hkeys _ (hg.own hr (hk ▸ hkind))
  apart h h' hkind hk ho hn := by
    obtain ⟨r, hr, hrk, hrn, hro, -, -⟩ := get_mergeAliases_cases hhit h
    obtain ⟨r', hr', hrk', hrn', hro', -, -⟩ := get_mergeAliases_cases hhit h'
    exact hg.apart hr hr' (hrk ▸ hkind) (by rw [← hrk', ← hrk, hk]) (by rw [← hro', ← hro, ho])
      (by rw [← hrn', ← hrn, hn])

/-- The subject carries the forms that were merged into it. -/
theorem mem_keys_mergeAliases (forms : List JsString) (hhit : g.subjects.get hit = some row)
    (hkey : key ∈ aliasKeys toLowerCase row.aliases ∨ key ∈ formKeys toLowerCase forms) :
    ∃ row', (mergeAliases toLowerCase g hit row forms).subjects.get hit = some row' ∧ row'.kind = row.kind ∧
      row'.ownerUserId = row.ownerUserId ∧ key ∈ aliasKeys toLowerCase row'.aliases := by
  refine ⟨{ row with aliases := (unionAliases toLowerCase row.aliases forms).json }, ?_, rfl, rfl,
    mem_keys_union.2 hkey⟩
  rw [get_mergeAliases, hhit, Option.map_some, if_pos rfl]

theorem Answered.mergeAliases {forms : List JsString}
    (h : Answered toLowerCase dbText g kind owner key id) (hhit : g.subjects.get hit = some row) :
    Answered toLowerCase dbText (mergeAliases toLowerCase g hit row forms) kind owner key id where
  carries := by
    obtain ⟨r, hr, hk, ho, hkey⟩ := h.carries
    refine ⟨if id = hit then { r with aliases := (unionAliases toLowerCase row.aliases forms).json } else r, ?_⟩
    rw [get_mergeAliases, hr, Option.map_some]
    by_cases hid : id = hit
    · subst hid
      obtain rfl := Option.some.inj (hhit.symm.trans hr)
      rw [if_pos rfl]
      exact ⟨rfl, hk, ho, mem_keys_union.2 (.inl hkey)⟩
    · rw [if_neg hid]
      exact ⟨rfl, hk, ho, hkey⟩
  only h' hk ho hn := by
    obtain ⟨r, hr, hrk, hrn, hro, -, -⟩ := get_mergeAliases_cases hhit h'
    exact h.only hr (hrk ▸ hk) (hro ▸ ho) (hrn ▸ hn)

/-! ### A new subject -/

section Created

variable (hdb : ∀ s, WellFormed s → dbText s = s) (hp : NamesItself toLowerCase dbText g p)
  (hresolve : resolveForCreate toLowerCase dbText g p = .row none)
  (hcreate : createSubject dbText g p id = .ok g')

include hdb hp hresolve hcreate

theorem Named.create (hg : Named toLowerCase g) : Named toLowerCase g' := by
  obtain ⟨hnew, hget⟩ := createSubject_spec hcreate
  -- A subject that was there is not named as the new one.
  have hother : ∀ {id' row}, g.subjects.get id' = some row → row.kind = p.kind →
      p.kind ∈ NAME_DEDUPED_SUBJECT_KINDS → row.ownerUserId = dbText p.owner →
        toLowerCase row.name ≠ toLowerCase (dbText p.name) := by
    intro id' row hrow hk hkind ho hn
    rw [hdb _ (hp hkind).1] at hn
    have hmem := hg.mem_hits hkind hrow hk ho hn
    rw [(resolveForCreate_none hkind hp hresolve).1] at hmem
    exact List.not_mem_nil hmem
  refine ⟨fun {id' row} h => ?_, fun {id' row} h hkind => ?_, fun {id₁ id₂ row₁ row₂} h₁ h₂ hkind hk ho hn => ?_⟩
  · rw [hget] at h
    split_ifs at h
    · exact Option.some.inj h ▸ rfl
    · exact hg.live h
  · rw [hget] at h
    split_ifs at h
    · obtain rfl := Option.some.inj h
      have hname := (resolveForCreate_none hkind hp hresolve).2
      rwa [← hdb _ (hp hkind).1] at hname
    · exact hg.own h hkind
  · rw [hget] at h₁ h₂
    split_ifs at h₁ h₂ with hid₁ hid₂ hid₂
    · exact hid₂.trans hid₁.symm
    · obtain rfl := Option.some.inj h₁
      exact absurd hn (hother h₂ hk hkind ho)
    · obtain rfl := Option.some.inj h₂
      exact absurd hn.symm (hother h₁ hk.symm (Eq.mpr (congrArg (· ∈ _) hk) hkind) ho.symm)
    · exact hg.apart h₁ h₂ hkind hk ho hn

/-- No subject is made for a name that was answered. -/
theorem Answered.create (hg : Named toLowerCase g) {id' : Id} (hkind : kind ∈ NAME_DEDUPED_SUBJECT_KINDS)
    (h : Answered toLowerCase dbText g kind owner key id') :
    Answered toLowerCase dbText g' kind owner key id' := by
  obtain ⟨hnew, hget⟩ := createSubject_spec hcreate
  obtain ⟨r, hr, hk, ho, hkey⟩ := h.carries
  refine ⟨⟨r, ?_, hk, ho, hkey⟩, fun {id₂ row} h₂ hk₂ ho₂ hn₂ => ?_⟩
  · rw [hget, if_neg]
    · exact hr
    · rintro rfl
      exact nomatch hnew.symm.trans hr
  · rw [hget] at h₂
    split_ifs at h₂
    · obtain rfl := Option.some.inj h₂
      have hpk : p.kind = kind := hk₂
      have hname : toLowerCase (dbText p.name) = key := hn₂
      rw [hdb _ (hp (hpk ▸ hkind)).1] at hname
      have hmem : (id', r) ∈ aliasHits toLowerCase dbText g p.name p.kind p.owner :=
        mem_aliasHits.2 ⟨hr, ⟨hk.trans hpk.symm, ho.trans ho₂.symm, hg.live hr⟩, hname ▸ hkey⟩
      rw [(resolveForCreate_none (hpk ▸ hkind) hp hresolve).1] at hmem
      exact absurd hmem List.not_mem_nil
    · exact h.only h₂ hk₂ ho₂ hn₂

omit hdb in
/-- The new subject carries its name. -/
theorem answered_create (hg : Named toLowerCase g) (hkind : p.kind ∈ NAME_DEDUPED_SUBJECT_KINDS) :
    Answered toLowerCase dbText g' p.kind p.owner (toLowerCase p.name) id := by
  have hget := (createSubject_spec hcreate).2
  obtain ⟨hhits, hname⟩ := resolveForCreate_none hkind hp hresolve
  refine ⟨⟨newRow dbText p, by rw [hget, if_pos rfl], rfl, rfl, hname⟩, fun {id' row} h hk ho hn => ?_⟩
  rw [hget] at h
  split_ifs at h with hid
  · exact hid
  · have hmem := hg.mem_hits hkind h hk ho hn
    rw [hhits] at hmem
    exact absurd hmem List.not_mem_nil

end Created

/-! ### One call -/

section Call

variable (hlower : ∀ s, toLowerCase (lowerAscii s) = toLowerCase s) (hdb : ∀ s, WellFormed s → dbText s = s)
  (hg : Named toLowerCase g) (hp : NamesItself toLowerCase dbText g p)

/-- Every subject keeps its name over a call. -/
theorem Named.findOrCreate (hdb : ∀ s, WellFormed s → dbText s = s) (hg : Named toLowerCase g)
    (hp : NamesItself toLowerCase dbText g p) (id : Id) :
    Named toLowerCase (findOrCreate toLowerCase dbText g p id).1 := by
  rcases findOrCreate_cases toLowerCase dbText g p id with
    ⟨ids, heq⟩ | ⟨hit, row, hresolve, heq⟩ | ⟨g', hresolve, hcreate, heq⟩ | ⟨reason, heq⟩ <;> rw [heq]
  · exact hg
  · exact hg.mergeAliases (resolveForCreate_row hresolve).2.1
  · exact hg.create hdb hp hresolve hcreate
  · exact hg

/-- A name that was answered stays with its subject over a call. -/
theorem Answered.findOrCreate (hdb : ∀ s, WellFormed s → dbText s = s) (hg : Named toLowerCase g)
    (hp : NamesItself toLowerCase dbText g p) (hkind : kind ∈ NAME_DEDUPED_SUBJECT_KINDS) {id' : Id}
    (h : Answered toLowerCase dbText g kind owner key id') (id : Id) :
    Answered toLowerCase dbText (findOrCreate toLowerCase dbText g p id).1 kind owner key id' := by
  rcases findOrCreate_cases toLowerCase dbText g p id with
    ⟨ids, heq⟩ | ⟨hit, row, hresolve, heq⟩ | ⟨g', hresolve, hcreate, heq⟩ | ⟨reason, heq⟩ <;> rw [heq]
  · exact h
  · exact h.mergeAliases (resolveForCreate_row hresolve).2.1
  · exact h.create hdb hp hresolve hcreate hg hkind
  · exact h

include hlower hdb in
/-- A canonical hit is named so. -/
theorem lower_of_canonical (hname : WellFormed p.name)
    (h : findCanonical dbText g p.name p.kind p.owner = some (id, row)) :
    toLowerCase row.name = toLowerCase p.name := by
  have hspec := (findCanonical_spec h).2.1
  rw [hdb _ hname] at hspec
  rw [← hlower, hspec, hlower]

include hlower hdb hg hp

/-- The subject a call folds into carries the name after it. -/
theorem answered_merge (h : resolveForCreate toLowerCase dbText g p = .row (some (hit, row))) :
    Answered toLowerCase dbText (Subjects.mergeAliases toLowerCase g hit row (p.name :: p.aliases.getD []))
      p.kind p.owner (toLowerCase p.name) hit := by
  obtain ⟨hkind, hhit, hk, ho⟩ := resolveForCreate_row h
  have hname := (hp hkind).1
  -- The name is among the aliases or is folded in, and no other subject is named so.
  suffices hlookup : (toLowerCase p.name ∈ aliasKeys toLowerCase row.aliases ∨ p.name ≠ []) ∧
      ∀ {id' row'}, g.subjects.get id' = some row' → row'.kind = p.kind → row'.ownerUserId = dbText p.owner →
        toLowerCase row'.name = toLowerCase p.name → id' = hit by
    constructor
    · obtain ⟨row', hrow', hk', ho', hkey⟩ := mem_keys_mergeAliases
        (p.name :: p.aliases.getD []) hhit (hlookup.1.imp_right fun hne => by
          rw [formKeys_cons hne]
          exact List.mem_cons_self)
      exact ⟨row', hrow', hk'.trans hk, ho'.trans ho, hkey⟩
    · intro id' row' h' hk' ho' hn'
      obtain ⟨r, hr, hrk, hrn, hro, -, -⟩ := get_mergeAliases_cases hhit h'
      exact hlookup.2 hr (hrk ▸ hk') (hro ▸ ho') (hrn ▸ hn')
  rcases resolveForCreate_cases toLowerCase dbText g hkind with
    ⟨e, hcanonical, heq⟩ | ⟨-, hhits, heq⟩ | ⟨e, hhits, heq⟩ | ⟨ids, -, heq⟩
  · obtain rfl := Option.some.inj (Lookup.row.inj (heq.symm.trans h))
    have hnamed := lower_of_canonical hlower hdb hname hcanonical
    refine ⟨.inl (hnamed ▸ hg.own hhit (hk ▸ hkind)), fun h' hk' ho' hn' => ?_⟩
    exact hg.apart hhit h' (hk ▸ hkind) (hk'.trans hk.symm) (ho'.trans ho.symm) (hn'.trans hnamed.symm)
  · have hsome := Lookup.row.inj (heq.symm.trans h)
    refine ⟨.inr ?_, fun h' hk' ho' hn' => ?_⟩
    · rintro hempty
      rw [if_neg (by rw [hempty]; decide)] at hsome
      exact nomatch hsome
    · have hmem := hg.mem_hits hkind h' hk' ho' hn'
      rw [hhits] at hmem
      exact absurd hmem List.not_mem_nil
  · obtain rfl := Option.some.inj (Lookup.row.inj (heq.symm.trans h))
    have hmem : (hit, row) ∈ aliasHits toLowerCase dbText g p.name p.kind p.owner := by simp [hhits]
    refine ⟨.inl (mem_aliasHits.1 hmem).2.2, fun h' hk' ho' hn' => ?_⟩
    have hmem' := hg.mem_hits hkind h' hk' ho' hn'
    rw [hhits, List.mem_singleton] at hmem'
    exact congrArg Prod.fst hmem'
  · exact nomatch heq.symm.trans h

/-- What is answered carries the name. -/
theorem answered_findOrCreate (hkind : p.kind ∈ NAME_DEDUPED_SUBJECT_KINDS) {created : Bool} {id' : Id}
    (h : (findOrCreate toLowerCase dbText g p id).2 = .found id' created) :
    Answered toLowerCase dbText (findOrCreate toLowerCase dbText g p id).1 p.kind p.owner
      (toLowerCase p.name) id' := by
  rcases findOrCreate_cases toLowerCase dbText g p id with
    ⟨ids, heq⟩ | ⟨hit, row, hresolve, heq⟩ | ⟨g', hresolve, hcreate, heq⟩ | ⟨reason, heq⟩ <;> rw [heq] at h ⊢
  · exact nomatch h
  · obtain ⟨rfl, -⟩ := SubjectResolution.found.inj h
    exact answered_merge hlower hdb hg hp hresolve
  · obtain ⟨rfl, -⟩ := SubjectResolution.found.inj h
    exact answered_create hp hresolve hcreate hg hkind
  · exact nomatch h

/-- Where a name was answered, a call with it answers its subject, unless it is ambiguous. -/
theorem Answered.answers (hkind : p.kind ∈ NAME_DEDUPED_SUBJECT_KINDS) {created : Bool} {id₁ id₂ : Id}
    (h : Answered toLowerCase dbText g p.kind p.owner (toLowerCase p.name) id₁)
    (hfound : (Subjects.findOrCreate toLowerCase dbText g p id).2 = .found id₂ created) : id₁ = id₂ := by
  obtain ⟨r, hr, hk, ho, hkey⟩ := h.carries
  have hmem : (id₁, r) ∈ aliasHits toLowerCase dbText g p.name p.kind p.owner :=
    mem_aliasHits.2 ⟨hr, ⟨hk, ho, hg.live hr⟩, hkey⟩
  have hrow : ∃ row, resolveForCreate toLowerCase dbText g p = .row (some (id₂, row)) := by
    rcases findOrCreate_cases toLowerCase dbText g p id with
      ⟨ids, heq⟩ | ⟨hit, row, hresolve, heq⟩ | ⟨g', hresolve, hcreate, heq⟩ | ⟨reason, heq⟩ <;>
        rw [heq] at hfound
    · exact nomatch hfound
    · obtain ⟨rfl, -⟩ := SubjectResolution.found.inj hfound
      exact ⟨row, hresolve⟩
    · rw [(resolveForCreate_none hkind hp hresolve).1] at hmem
      exact absurd hmem List.not_mem_nil
    · exact nomatch hfound
  obtain ⟨row, hresolve⟩ := hrow
  rcases resolveForCreate_cases toLowerCase dbText g hkind with
    ⟨e, hcanonical, heq⟩ | ⟨-, hhits, heq⟩ | ⟨e, hhits, heq⟩ | ⟨ids, -, heq⟩
  · obtain rfl := Option.some.inj (Lookup.row.inj (heq.symm.trans hresolve))
    have hspec := findCanonical_spec hcanonical
    exact (h.only hspec.1 hspec.2.2.1 hspec.2.2.2 (lower_of_canonical hlower hdb (hp hkind).1 hcanonical)).symm
  · rw [hhits] at hmem
    exact absurd hmem List.not_mem_nil
  · obtain rfl := Option.some.inj (Lookup.row.inj (heq.symm.trans hresolve))
    rw [hhits, List.mem_singleton] at hmem
    exact congrArg Prod.fst hmem
  · exact nomatch heq.symm.trans hresolve

end Call

/-! ### A run -/

/-- Every call names itself on the graph it meets. -/
def EachNamesItself (toLowerCase dbText : JsString → JsString) (g : Graph) (calls : List (CreateParams × Id)) :
    Prop :=
  ∀ before c after, calls = before ++ c :: after →
    NamesItself toLowerCase dbText (afterCalls toLowerCase dbText g before) c.1

theorem EachNamesItself.tail {c : CreateParams × Id} {calls : List (CreateParams × Id)}
    (h : EachNamesItself toLowerCase dbText g (c :: calls)) :
    NamesItself toLowerCase dbText g c.1 ∧
      EachNamesItself toLowerCase dbText (findOrCreate toLowerCase dbText g c.1 c.2).1 calls :=
  ⟨h [] c calls rfl, fun before d after heq => h (c :: before) d after (by rw [heq]; rfl)⟩

theorem EachNamesItself.nil : EachNamesItself toLowerCase dbText g [] := by
  rintro before c after heq
  exact absurd heq (by simp)

theorem EachNamesItself.cons {c : CreateParams × Id} {calls : List (CreateParams × Id)}
    (hc : NamesItself toLowerCase dbText g c.1)
    (h : EachNamesItself toLowerCase dbText (findOrCreate toLowerCase dbText g c.1 c.2).1 calls) :
    EachNamesItself toLowerCase dbText g (c :: calls) := by
  rintro (_ | ⟨b, before⟩) d after heq
  · obtain ⟨rfl, -⟩ := List.cons.inj heq
    exact hc
  · obtain ⟨rfl, hrest⟩ := List.cons.inj heq
    exact h before d after hrest

theorem EachNamesItself.of_append {calls later : List (CreateParams × Id)}
    (h : EachNamesItself toLowerCase dbText g (calls ++ later)) :
    EachNamesItself toLowerCase dbText g calls ∧
      EachNamesItself toLowerCase dbText (afterCalls toLowerCase dbText g calls) later := by
  refine ⟨fun before c after heq => h before c (after ++ later) (by rw [heq]; simp), fun before c after heq => ?_⟩
  have hnames := h (calls ++ before) c after (by rw [heq]; simp)
  rwa [afterCalls, List.foldl_append] at hnames

/-- What one call keeps is kept over a run. -/
theorem run_keeps {P : Graph → Prop}
    (hstep : ∀ g p id, NamesItself toLowerCase dbText g p → P g →
      P (findOrCreate toLowerCase dbText g p id).1) :
    ∀ (calls : List (CreateParams × Id)) {g : Graph}, EachNamesItself toLowerCase dbText g calls → P g →
      P (afterCalls toLowerCase dbText g calls)
  | [], _, _, hg => hg
  | c :: calls, _, heach, hg =>
    run_keeps hstep calls heach.tail.2 (hstep _ c.1 c.2 heach.tail.1 hg)

end Named

/-- In a run from the empty graph whose calls name themselves, two calls of one kind and owner with one name in
lower case that are both answered with a subject are answered with the same one. An ambiguous answer changes
nothing, whatever the graph. -/
theorem findOrCreate_one_subject (toLowerCase dbText : JsString → JsString)
    (hlower : ∀ s, toLowerCase (lowerAscii s) = toLowerCase s) (hdb : ∀ s, WellFormed s → dbText s = s)
    (before between : List (CreateParams × Id)) (p q : CreateParams) (id id' found found' : Id)
    (created created' : Bool)
    (heach : EachNamesItself toLowerCase dbText Graph.empty (before ++ (p, id) :: between ++ [(q, id')]))
    (hkind : p.kind ∈ NAME_DEDUPED_SUBJECT_KINDS) (hkinds : q.kind = p.kind) (howner : q.owner = p.owner)
    (hname : toLowerCase q.name = toLowerCase p.name)
    (hfirst : (findOrCreate toLowerCase dbText (afterCalls toLowerCase dbText Graph.empty before) p id).2 =
      .found found created)
    (hsecond : (findOrCreate toLowerCase dbText
      (afterCalls toLowerCase dbText Graph.empty (before ++ (p, id) :: between)) q id').2 = .found found' created') :
    found' = found ∧ ∀ (g : Graph) (r : CreateParams) (new : Id) (ids : List Id),
      (findOrCreate toLowerCase dbText g r new).2 = .ambiguous ids →
        (findOrCreate toLowerCase dbText g r new).1 = g := by
  refine ⟨?_, fun g r new ids => findOrCreate_ambiguous⟩
  obtain ⟨hrun, hlast⟩ := heach.of_append
  obtain ⟨hbefore, hrest⟩ := hrun.of_append
  have hq := hlast.tail.1
  obtain ⟨hp, hbetween⟩ := hrest.tail
  -- What was answered first carries the name, and goes on to.
  have hnamed := run_keeps (fun g r new hr hg => hg.findOrCreate hdb hr new) before hbefore named_empty
  have hanswered := answered_findOrCreate hlower hdb hnamed hp hkind hfirst
  have hkept := run_keeps (P := fun g => Named toLowerCase g ∧
      Answered toLowerCase dbText g p.kind p.owner (toLowerCase p.name) found)
    (fun g r new hr hg => ⟨hg.1.findOrCreate hdb hr new, hg.2.findOrCreate hdb hg.1 hr hkind new⟩)
    between hbetween ⟨hnamed.findOrCreate hdb hp id, hanswered⟩
  have hgraph : afterCalls toLowerCase dbText Graph.empty (before ++ (p, id) :: between) =
      afterCalls toLowerCase dbText (findOrCreate toLowerCase dbText
        (afterCalls toLowerCase dbText Graph.empty before) p id).1 between := by
    rw [afterCalls, List.foldl_append]
    rfl
  rw [hgraph] at hq hsecond
  rw [← hkinds, ← howner, ← hname] at hkept
  exact (hkept.2.answers hlower hdb hkept.1 hq (hkinds ▸ hkind) hsecond).symm

/-- Lower case of the letters of one byte. -/
private def lowerLatin (s : JsString) : JsString :=
  s.map fun u => if 0x41 ≤ u ∧ u ≤ 0x5A ∨ 0xC0 ≤ u ∧ u ≤ 0xDE ∧ u ≠ 0xD7 then u + 0x20 else u

private def personNamed (name : JsString) (aliases : Option (List JsString)) : CreateParams :=
  ⟨.person, name, aliases, none, false, none⟩

private theorem lowerLatin_lowerAscii (s : JsString) : lowerLatin (lowerAscii s) = lowerLatin s := by
  rw [lowerLatin, lowerLatin, lowerAscii, List.map_map]
  refine List.map_congr_left fun u _ => ?_
  simp only [Function.comp]
  grind

/-- `Ä` and then `ä`, the first of which lists itself. -/
theorem findOrCreate_one_subject_umlaut : utf16 "1" = utf16 "1" ∧
    ∀ (g : Graph) (r : CreateParams) (new : Id) (ids : List Id),
      (findOrCreate lowerLatin id g r new).2 = .ambiguous ids → (findOrCreate lowerLatin id g r new).1 = g :=
  findOrCreate_one_subject lowerLatin id lowerLatin_lowerAscii (fun _ _ => rfl) [] []
    (personNamed [0xC4] (some [utf16 "q", [0xE4]])) (personNamed [0xE4] none) (utf16 "1") (utf16 "2") (utf16 "1")
    (utf16 "1") true false
    (.cons (fun _ => ⟨.units (n := 0xC4) (by decide), fun _ _ _ aliases h => Option.some.inj h ▸ by decide⟩)
      (.cons (fun _ => ⟨.units (n := 0xE4) (by decide), fun _ _ _ aliases h => nomatch h⟩) .nil))
    (by decide) rfl rfl (by decide) (by decide) (by decide)

/-- `Ä` under the alias `q` alone is not found for `ä`, which gets a subject of its own. -/
theorem alias_list_without_the_name :
    lowerLatin [0xE4] = lowerLatin [0xC4] ∧
      (findOrCreate lowerLatin id Graph.empty (personNamed [0xC4] (some [utf16 "q"])) (utf16 "1")).2 =
        .found (utf16 "1") true ∧
      (findOrCreate lowerLatin id
        (afterCalls lowerLatin id Graph.empty [(personNamed [0xC4] (some [utf16 "q"]), utf16 "1")])
        (personNamed [0xE4] none) (utf16 "2")).2 = .found (utf16 "2") true := by
  decide

end Lynox.Subjects
