import Lynox.Subjects.Merge
import Lynox.Data.Release

/-!
# Reaping orphans

`referenceReason` says what keeps a subject; `reapOrphans` deletes the candidates that nothing keeps, a
canonical together with the shells of the duplicates it absorbed, until a pass deletes nothing. What the
other databases hold (`SubjectExternalRefs`) is asked for each subject and is the same at every time.
-/

namespace Lynox.Subjects

open Text

/-! ## References -/

/-- The subject a cell refers to. -/
def Cell.ref : Cell → Option Id
  | .text id => some id
  | .null | .int _ => none

namespace Graph

variable (g : Graph)

/-- What the row under a key refers to in a column, where there is such a row. -/
def reference : RepointTarget → Id → Option (Option Id)
  | .column c, k => (g.columns c).get k
  | .engagement r, k => ((g.details .engagements).get k).map fun row => (row.cell r.column).ref

/-- Whether a relationship joins a subject with itself. -/
def selfLoop (k : Id) : Bool :=
  g.reference (.column .relationshipsFrom) k = g.reference (.column .relationshipsTo) k

/-- Whether a relationship has an end at a subject. -/
def joins (id k : Id) : Bool :=
  g.reference (.column .relationshipsFrom) k = some (some id) ||
    g.reference (.column .relationshipsTo) k = some (some id)

/-- Whether a row refers to a subject in a column. -/
def isReferenced (id : Id) (t : RepointTarget) : Bool :=
  match t with
  | .column .relationshipsFrom | .column .relationshipsTo => (g.selectPks id t).any fun k => !g.selfLoop k
  | t => (g.selectPks id t).any fun _ => true

/-! ### Deleting a subject -/

/-- The references of a column after a subject is deleted. -/
def columnWithout (id : Id) (c : Column) : Keyed Id (Option Id) :=
  match c with
  | .relationshipsFrom | .relationshipsTo => (g.columns c).delete (g.joins id)
  | .subjectsParent =>
    ((g.columns c).delete fun k => k = id).update fun _ v => v.filter fun target => target ∉ [id]
  | c => (g.columns c).update fun _ v => v.filter fun target => target ∉ [id]

end Graph

/-- A detail row whose references to some subjects are null. -/
def DetailRow.without {t : DetailTable} (ids : List Id) (row : DetailRow t) : DetailRow t :=
  .ofCells t fun c =>
    if (c = .providerSubjectId ∨ c = .clientSubjectId) ∧ (row.cell c).ref.any (fun id => id ∈ ids) then .null
    else row.cell c

def SubjectRow.without (ids : List Id) (row : SubjectRow) : SubjectRow :=
  { row with mergedInto := row.mergedInto.filter fun target => target ∉ ids }

/-- The row goes, with the rows under it and the relationships at it; what refers to it is set to null. -/
def Graph.deleteSubject (g : Graph) (id : Id) : Graph where
  subjects := (g.subjects.delete fun k => k = id).update fun _ row => row.without [id]
  columns := g.columnWithout id
  details t := ((g.details t).delete fun k => k = id).update fun _ row => row.without [id]
  memorySubjects := g.memorySubjects.delete fun k => k.2 = id
  cooccurrences := g.cooccurrences.delete fun k => k.1 = id || k.2 = id

/-! ## What keeps a subject -/

/-- `<>` with a text. -/
def Cell.differs (s : String) : Cell → Bool
  | .null => false
  | .text held => held ≠ utf16 s
  | .int _ => true

/-- A detail row that holds something of its own. -/
def substantive (t : DetailTable) (row : DetailRow t) : Bool :=
  match t with
  | .people => row.cell .email ≠ .null || row.cell .phone ≠ .null || row.cell .role ≠ .null ||
      (row.cell .type).differs "contact"
  | .organizations => row.cell .domain ≠ .null || row.cell .vatId ≠ .null || row.cell .country ≠ .null ||
      (row.cell .type).differs "other"
  | .engagements => row.cell .providerSubjectId ≠ .null || row.cell .clientSubjectId ≠ .null ||
      row.cell .startedAt ≠ .null || row.cell .endedAt ≠ .null || row.cell .budgetCents ≠ .null ||
        row.cell .billingModel ≠ .null
  | .products => row.cell .sku ≠ .null || row.cell .priceCents ≠ .null
  | .services => row.cell .hourlyRateCents ≠ .null

structure SubjectExternalRefs where
  isThreadAnchor : Id → Bool
  hasRecords : Id → Bool

inductive Reason
  | missing
  | isSelf
  | memorySubjects
  | referencedBy (t : RepointTarget)
  | hasDetail
  | threadAnchor
  | record
  | mergeTarget
  deriving DecidableEq

section Reap

variable (external : SubjectExternalRefs)

/-- Whether the detail row of a subject holds something. -/
def Graph.hasDetail (g : Graph) (id : Id) (row : SubjectRow) : Bool :=
  match DETAIL_TABLE row.kind with
  | none => false
  | some t => ((g.details t).get id).any (substantive t)

/-- The shells of the duplicates that were merged into a subject. -/
def Graph.dupsOf (g : Graph) (id : Id) : List Id :=
  (g.subjects.select fun _ row => row.mergedInto = some id).map Prod.fst

def referenceReason (g : Graph) (id : Id) : Option Reason :=
  match g.subjects.get id with
  | none => some .missing
  | some row =>
    if row.isSelf then some .isSelf
    else if g.memorySubjects.rows.any fun e => e.1.2 = id then some .memorySubjects
    else
      match REPOINT_TARGETS.find? (g.isReferenced id) with
      | some t => some (.referencedBy t)
      | none =>
        if g.hasDetail id row then some .hasDetail
        else if external.isThreadAnchor id then some .threadAnchor
        else if external.hasRecords id then some .record
        else if (g.dupsOf id).length > 0 then some .mergeTarget
        else none

end Reap

/-! ### The shells of a canonical -/

/-- New members take away from what was not one before. -/
theorem length_filter_append (ids out : List Id) {new : List Id} (hnew : new.Nodup)
    (hsub : ∀ id ∈ new, id ∈ ids ∧ id ∉ out) :
    (ids.filter fun id => id ∉ out ++ new).length + new.length ≤ (ids.filter fun id => id ∉ out).length := by
  have hsplit : (ids.filter fun id => id ∉ out).length =
      ((ids.filter fun id => id ∉ out).filter fun id => id ∉ new).length +
        ((ids.filter fun id => id ∉ out).filter fun id => !decide (id ∉ new)).length :=
    (List.length_eq_length_filter_add _)
  have hle : new.length ≤ ((ids.filter fun id => id ∉ out).filter fun id => !decide (id ∉ new)).length := by
    refine (List.subperm_of_subset hnew fun id hid => ?_).length_le
    simp only [List.mem_filter, decide_eq_true_eq, Bool.not_eq_true', decide_eq_false_iff_not, not_not]
    exact ⟨⟨(hsub id hid).1, (hsub id hid).2⟩, hid⟩
  have heq : (ids.filter fun id => id ∉ out).filter (fun id => id ∉ new) =
      ids.filter fun id => id ∉ out ++ new := by
    rw [List.filter_filter]
    refine List.filter_congr fun id _ => ?_
    simp [Bool.and_comm]
  rw [heq] at hsplit
  omega

theorem Graph.nodup_dupsOf (g : Graph) (id : Id) : (g.dupsOf id).Nodup :=
  g.subjects.nodup.sublist (List.filter_sublist.map _)

/-- The rest of the search: what was found, the canonical itself apart, and the queue. The ids of one
query are distinct, so that each is checked against what was seen before it. -/
def mergeDupClosureFrom (g : Graph) (canonicalId : Id) (out : List Id) : List Id → List Id
  | [] => out
  | cur :: queue =>
    let new := (g.dupsOf cur).filter fun id => id ∉ canonicalId :: out
    mergeDupClosureFrom g canonicalId (out ++ new) (queue ++ new)
termination_by queue => ((g.subjects.rows.map Prod.fst).filter fun id => id ∉ out).length + queue.length
decreasing_by
  have hle := length_filter_append (g.subjects.rows.map Prod.fst) out
    ((g.nodup_dupsOf cur).filter fun id => id ∉ canonicalId :: out)
    (fun id hid => by
      obtain ⟨hdup, hnot⟩ := List.mem_filter.1 hid
      refine ⟨(List.filter_sublist.map _).subset hdup, fun hout => ?_⟩
      simp [hout] at hnot)
  rw [List.length_cons, List.length_append]
  omega

def mergeDupClosure (g : Graph) (canonicalId : Id) : List Id :=
  mergeDupClosureFrom g canonicalId [] [canonicalId]

section Reap

variable (external : SubjectExternalRefs)

def mergeTargetClosure (g : Graph) (canonicalId : Id) : Option (List Id) :=
  let closure := mergeDupClosure g canonicalId
  let shellHeld := closure.any fun dup =>
    let r := referenceReason external g dup
    r ≠ none && r ≠ some .mergeTarget
  if shellHeld then none else some closure

/-! ### The reap -/

structure Reap where
  graph : Graph
  pending : List Id
  reaped : List Id
  progressed : Bool

/-- `DELETE` of one subject, noted where there was one. -/
def Reap.delete (s : Reap) (id : Id) : Reap :=
  if s.graph.hasSubject id then
    { s with graph := s.graph.deleteSubject id, reaped := s.reaped ++ [id] }
  else s

def Reap.drop (s : Reap) (id : Id) : Reap :=
  { s with pending := s.pending.filter fun id' => id' ≠ id }

/-- One candidate of a pass. -/
def reapOne (s : Reap) (id : Id) : Reap :=
  match referenceReason external s.graph id with
  | some .missing => s.drop id
  | some .mergeTarget =>
    match mergeTargetClosure external s.graph id with
    | none => s
    | some closure => { ((closure.foldl Reap.delete s).delete id).drop id with progressed := true }
  | some _ => s
  | none => { (s.delete id).drop id with progressed := true }

def reapPass (s : Reap) : Reap :=
  s.pending.foldl (reapOne external) { s with progressed := false }

end Reap

/-! ### Every pass that goes on deletes a row -/

section Shrink

variable {external : SubjectExternalRefs} {g : Graph} {s : Reap} {id id' : Id}

@[simp] theorem hasSubject_deleteSubject :
    (g.deleteSubject id).hasSubject id' = (decide (id' ≠ id) && g.hasSubject id') := by
  have hget : (g.deleteSubject id).subjects.get id' =
      if id' = id then none else (g.subjects.get id').map fun row => row.without [id] := by
    show (Keyed.update _ _).get id' = _
    rw [Keyed.get_update, Keyed.get_delete]
    by_cases hid : id' = id <;> simp [hid]
  rw [Graph.hasSubject, hget, Graph.hasSubject]
  by_cases hid : id' = id <;> simp [hid]

theorem length_deleteSubject (h : g.hasSubject id = true) :
    (g.deleteSubject id).subjects.rows.length < g.subjects.rows.length := by
  show (List.map _ (List.filter _ _)).length < _
  rw [List.length_map]
  obtain ⟨row, hrow⟩ := Option.isSome_iff_exists.1 h
  refine List.length_filter_lt_length_iff_exists.2 ⟨(id, row), Keyed.get_eq_some_iff.1 hrow, ?_⟩
  simp

theorem hasSubject_delete (s : Reap) (id id' : Id) :
    (s.delete id).graph.hasSubject id' = (decide (id' ≠ id) && s.graph.hasSubject id') := by
  unfold Reap.delete
  split
  · exact hasSubject_deleteSubject
  · next hnot =>
    by_cases hid : id' = id
    · subst hid
      simpa using hnot
    · simp [hid]

theorem hasSubject_foldl_delete : ∀ (ids : List Id) (s : Reap), id' ∉ ids →
    (ids.foldl Reap.delete s).graph.hasSubject id' = s.graph.hasSubject id'
  | [], _, _ => rfl
  | id :: ids, s, h => by
    rw [List.foldl_cons, hasSubject_foldl_delete ids _ (List.not_mem_of_not_mem_cons h), hasSubject_delete]
    simp [List.ne_of_not_mem_cons h]

/-- The rows of subjects that are left. -/
def Reap.size (s : Reap) : Nat :=
  s.graph.subjects.rows.length

theorem size_delete_le (s : Reap) (id : Id) : (s.delete id).size ≤ s.size := by
  unfold Reap.delete
  split
  · next h => exact (length_deleteSubject h).le
  · exact le_rfl

theorem size_delete_lt (h : s.graph.hasSubject id = true) : (s.delete id).size < s.size := by
  rw [Reap.delete, if_pos h]
  exact length_deleteSubject h

theorem size_foldl_delete : ∀ (ids : List Id) (s : Reap), (ids.foldl Reap.delete s).size ≤ s.size
  | [], _ => le_rfl
  | id :: ids, s => (size_foldl_delete ids (s.delete id)).trans (size_delete_le s id)

/-- A canonical is not among its shells. -/
theorem not_mem_mergeDupClosureFrom (g : Graph) (canonicalId : Id) (out queue : List Id)
    (h : canonicalId ∉ out) : canonicalId ∉ mergeDupClosureFrom g canonicalId out queue := by
  induction out, queue using mergeDupClosureFrom.induct g canonicalId with
  | case1 out => rwa [mergeDupClosureFrom]
  | case2 out cur queue new ih =>
    rw [mergeDupClosureFrom]
    refine ih fun hmem => (List.mem_append.1 hmem).elim h fun hnew => ?_
    simpa using (List.mem_filter.1 hnew).2

theorem not_mem_mergeDupClosure (g : Graph) (canonicalId : Id) :
    canonicalId ∉ mergeDupClosure g canonicalId :=
  not_mem_mergeDupClosureFrom g canonicalId [] _ List.not_mem_nil

theorem hasSubject_of_reason (external : SubjectExternalRefs) (h : referenceReason external g id ≠ some .missing) : g.hasSubject id = true := by
  unfold referenceReason at h
  cases hrow : g.subjects.get id with
  | none => simp [hrow] at h
  | some row => simp [Graph.hasSubject, hrow]

theorem mergeDupClosure_of_target {closure : List Id}
    (h : mergeTargetClosure external g id = some closure) : closure = mergeDupClosure g id := by
  rw [mergeTargetClosure] at h
  simp only at h
  split at h
  · exact nomatch h
  · exact (Option.some.inj h).symm

/-- A candidate changes no graph and starts no pass, or deletes a row. -/
theorem reapOne_cases (external : SubjectExternalRefs) (s : Reap) (id : Id) :
    ((reapOne external s id).progressed = s.progressed ∧ (reapOne external s id).graph = s.graph) ∨
      (reapOne external s id).size < s.size := by
  unfold reapOne
  split
  · exact .inl ⟨rfl, rfl⟩
  · next hreason =>
    split
    · exact .inl ⟨rfl, rfl⟩
    · next closure hclosure =>
      obtain rfl := mergeDupClosure_of_target hclosure
      have hthere : s.graph.hasSubject id = true := hasSubject_of_reason external (by simp [hreason])
      rw [← hasSubject_foldl_delete _ s (not_mem_mergeDupClosure s.graph id)] at hthere
      exact .inr ((size_delete_lt hthere).trans_le (size_foldl_delete _ s))
  · exact .inl ⟨rfl, rfl⟩
  · next hreason =>
    exact .inr (size_delete_lt (hasSubject_of_reason external (by simp [hreason])))

theorem foldl_reapOne_cases (external : SubjectExternalRefs) : ∀ (ids : List Id) (s : Reap),
    ((ids.foldl (reapOne external) s).progressed = s.progressed ∧
        (ids.foldl (reapOne external) s).graph = s.graph) ∨
      (ids.foldl (reapOne external) s).size < s.size
  | [], _ => .inl ⟨rfl, rfl⟩
  | id :: ids, s => by
    rw [List.foldl_cons]
    rcases foldl_reapOne_cases external ids (reapOne external s id) with ⟨hp, hg⟩ | hlt <;>
      rcases reapOne_cases external s id with ⟨hp', hg'⟩ | hlt'
    · exact .inl ⟨hp.trans hp', hg.trans hg'⟩
    · refine .inr ?_
      rw [Reap.size, hg]
      exact hlt'
    · refine .inr (hlt.trans_eq ?_)
      rw [Reap.size, hg', Reap.size]
    · exact .inr (hlt.trans hlt')

end Shrink

section Reap

variable (external : SubjectExternalRefs)

def reapRun (s : Reap) : Reap :=
  if s.progressed ∧ s.pending ≠ [] then reapRun (reapPass external s) else s
termination_by 2 * s.size + s.progressed.toNat
decreasing_by
  next h =>
    rw [h.1]
    have hbool := Bool.toNat_le (reapPass external s).progressed
    rcases foldl_reapOne_cases external s.pending { s with progressed := false } with ⟨hp, hg⟩ | hlt
    · have hsize : (reapPass external s).size = s.size := by
        rw [Reap.size, reapPass, hg, Reap.size]
      have hstop : (reapPass external s).progressed = false := hp
      rw [hsize, hstop]
      simp
    · have hsize : (reapPass external s).size < s.size := hlt
      simp only [Bool.toNat_true]
      omega

/-- The graph after a reap, and the subjects that were deleted. -/
def reapOrphans (g : Graph) (candidateIds : List Id) : Graph × List Id :=
  let s := reapRun external ⟨g, candidateIds.eraseDups, [], true⟩
  (s.graph, s.reaped)

end Reap

end Lynox.Subjects
