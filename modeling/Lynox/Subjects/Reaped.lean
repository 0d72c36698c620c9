import Lynox.Subjects.Orphans

/-!
# What a reap takes

The graph after some deletions is known by what is read of it (`subjects_after`, `reference_after`,
`details_after`), whatever their order. What keeps a subject (`Held`) grows less with every deletion, so that
a reap is a run of `Release` that can take nothing more.
-/

namespace Lynox.Subjects

open Relation Text

/-! ## A graph without some subjects -/

/-- The graph after some subjects are deleted, one after another. -/
def Graph.after (g : Graph) (ids : List Id) : Graph :=
  ids.foldl Graph.deleteSubject g

/-- Whether a row goes with some subjects. -/
def Graph.rowGone (g : Graph) (ids : List Id) (t : RepointTarget) (k : Id) : Bool :=
  match t with
  | .column .relationshipsFrom | .column .relationshipsTo => ids.any fun id => g.joins id k
  | .column .subjectsParent | .engagement _ => ids.any fun id => k = id
  | .column _ => false

section After

variable {g : Graph} {ids ids' : List Id} {t : RepointTarget} {id k : Id}

theorem rowGone_nil : g.rowGone [] t k = false := by
  unfold Graph.rowGone
  split <;> rfl

theorem rowGone_cons : g.rowGone (id :: ids) t k = (g.rowGone [id] t k || g.rowGone ids t k) := by
  unfold Graph.rowGone
  split <;> simp

theorem rowGone_mono (hsub : ids ⊆ ids') (h : g.rowGone ids' t k = false) : g.rowGone ids t k = false := by
  unfold Graph.rowGone at h ⊢
  split at h
  · exact List.any_eq_false.2 fun id hid => List.any_eq_false.1 h id (hsub hid)
  · exact List.any_eq_false.2 fun id hid => List.any_eq_false.1 h id (hsub hid)
  · exact List.any_eq_false.2 fun id hid => List.any_eq_false.1 h id (hsub hid)
  · exact List.any_eq_false.2 fun id hid => List.any_eq_false.1 h id (hsub hid)
  · rfl

/-! ### Detail rows -/

theorem cell_without {t : DetailTable} (row : DetailRow t) (c : DetailColumn) : (row.without ids).cell c =
    if (c = .providerSubjectId ∨ c = .clientSubjectId) ∧ (row.cell c).ref.any (fun id => id ∈ ids) then .null
    else row.cell c := by
  by_cases hc : c ∈ t.cols
  · exact if_pos hc
  · have hnull := row.fits c hc
    rw [(row.without ids).fits c hc, hnull]
    split <;> rfl

theorem without_without {t : DetailTable} (row : DetailRow t) :
    (row.without ids).without ids' = row.without (ids ++ ids') := by
  refine DetailRow.ext (funext fun c => ?_)
  simp only [cell_without]
  by_cases hc : c = .providerSubjectId ∨ c = .clientSubjectId
  · simp only [hc, true_and]
    cases hcell : row.cell c with
    | null => simp [Cell.ref]
    | int n => simp [Cell.ref]
    | text id =>
      by_cases hid : id ∈ ids <;> by_cases hid' : id ∈ ids' <;> simp [Cell.ref, hid, hid']
  · simp [hc]

/-- References that are null take nothing more from a row than the row has. -/
theorem substantive_mono {t : DetailTable} {row : DetailRow t} (hsub : ids ⊆ ids')
    (h : substantive t (row.without ids') = true) : substantive t (row.without ids) = true := by
  have hcell : ∀ c, (row.without ids').cell c ≠ .null → (row.without ids).cell c ≠ .null := by
    intro c
    rw [cell_without, cell_without]
    by_cases hc : c = .providerSubjectId ∨ c = .clientSubjectId
    · simp only [hc, true_and]
      cases hcell : row.cell c with
      | null => simp [Cell.ref]
      | int n => simp [Cell.ref]
      | text id =>
        by_cases hid : id ∈ ids
        · simp [Cell.ref, hsub hid]
        · simp [Cell.ref, hid]
    · simp [hc]
  have htype : (row.without ids').cell .type = (row.without ids).cell .type := by
    simp [cell_without]
  cases t <;> simp only [substantive, Bool.or_eq_true, decide_eq_true_eq, ne_eq, htype] at h ⊢ <;> grind

/-! ### What is read after a deletion -/

theorem map_filter_of_ne {v : Option (Option Id)} (h : v ≠ some (some id)) :
    v.map (fun v => v.filter fun target => target ∉ [id]) = v := by
  rcases v with _ | _ | target
  · rfl
  · rfl
  · have hne : target ≠ id := fun heq => h (by rw [heq])
    simp [hne]

theorem joins_eq_false : g.joins id k = false ↔
    g.reference (.column .relationshipsFrom) k ≠ some (some id) ∧
      g.reference (.column .relationshipsTo) k ≠ some (some id) := by
  simp [Graph.joins]

theorem reference_deleteSubject (g : Graph) (id : Id) (t : RepointTarget) (k : Id) :
    (g.deleteSubject id).reference t k = if g.rowGone [id] t k then none
      else (g.reference t k).map fun v => v.filter fun target => target ∉ [id] := by
  have hjoin : ∀ c v, (g.columns c).get k = v → (g.joins id k = false → v ≠ some (some id)) →
      ((g.columns c).delete (g.joins id)).get k = if g.joins id k then none
        else v.map fun v => v.filter fun target => target ∉ [id] := by
    rintro c v rfl hne
    rw [Keyed.get_delete]
    cases hj : g.joins id k with
    | true => rfl
    | false =>
      simp only [Bool.false_eq_true, if_false]
      exact (map_filter_of_ne (hne hj)).symm
  rcases t with c | r
  · cases c
    case relationshipsFrom =>
      have hrow := hjoin .relationshipsFrom _ rfl fun hj => (joins_eq_false.1 hj).1
      rw [show g.rowGone [id] (.column .relationshipsFrom) k = g.joins id k from Bool.or_false _]
      exact hrow
    case relationshipsTo =>
      have hrow := hjoin .relationshipsTo _ rfl fun hj => (joins_eq_false.1 hj).2
      rw [show g.rowGone [id] (.column .relationshipsTo) k = g.joins id k from Bool.or_false _]
      exact hrow
    case subjectsParent =>
      show (Keyed.update _ _).get k = _
      rw [Keyed.get_update, Keyed.get_delete]
      by_cases hk : k = id <;> simp [Graph.rowGone, Graph.reference, hk]
    all_goals exact Keyed.get_update _
  · show ((Keyed.update _ _).get k).map _ = _
    rw [Keyed.get_update, Keyed.get_delete]
    by_cases hk : k = id
    · simp [Graph.rowGone, hk]
    · have hgone : g.rowGone [id] (.engagement r) k = false := by simp [Graph.rowGone, hk]
      simp only [hgone, hk, decide_false, Bool.false_eq_true, if_false, Graph.reference, Option.map_map]
      refine congrArg (Option.map · _) (funext fun row => ?_)
      simp only [Function.comp, cell_without]
      have hcol : r.column = .providerSubjectId ∨ r.column = .clientSubjectId := by
        cases r <;> simp [EngagementRef.column]
      simp only [hcol, true_and]
      cases row.cell r.column with
      | null => rfl
      | int n => rfl
      | text target => by_cases ht : target = id <;> simp [Cell.ref, ht, Option.filter]

theorem subjects_deleteSubject (g : Graph) (id k : Id) : (g.deleteSubject id).subjects.get k =
    if k = id then none else (g.subjects.get k).map fun row => row.without [id] := by
  show (Keyed.update _ _).get k = _
  rw [Keyed.get_update, Keyed.get_delete]
  by_cases hk : k = id <;> simp [hk]

/-- A deletion takes no other row's place among those that go with a subject. -/
theorem rowGone_deleteSubject (h : g.rowGone [id] t k = false) :
    (g.deleteSubject id).rowGone ids t k = g.rowGone ids t k := by
  have hjoins : g.joins id k = false → ∀ id', (g.deleteSubject id).joins id' k = g.joins id' k := by
    intro hj id'
    have hgone : g.rowGone [id] (.column .relationshipsFrom) k = false := (Bool.or_false _).trans hj
    have hgone' : g.rowGone [id] (.column .relationshipsTo) k = false := (Bool.or_false _).trans hj
    obtain ⟨hfrom, hto⟩ := joins_eq_false.1 hj
    rw [Graph.joins, reference_deleteSubject, reference_deleteSubject, hgone, hgone', if_neg Bool.false_ne_true,
      if_neg Bool.false_ne_true, map_filter_of_ne hfrom, map_filter_of_ne hto]
    rfl
  unfold Graph.rowGone at h ⊢
  split at h
  · exact List.any_congr rfl (hjoins ((Bool.or_false _).symm.trans h))
  · exact List.any_congr rfl (hjoins ((Bool.or_false _).symm.trans h))
  · rfl
  · rfl
  · rfl

theorem reference_after : ∀ (ids : List Id) (g : Graph), (g.after ids).reference t k =
    if g.rowGone ids t k then none
    else (g.reference t k).map fun v => v.filter fun target => target ∉ ids
  | [], g => by
    rw [rowGone_nil, Graph.after, List.foldl_nil]
    rcases g.reference t k with _ | _ | target <;> simp [Option.filter]
  | id :: ids, g => by
    have hafter : (g.after (id :: ids)).reference t k = ((g.deleteSubject id).after ids).reference t k := rfl
    have hcons : g.rowGone (id :: ids) t k = (g.rowGone [id] t k || g.rowGone ids t k) := rowGone_cons
    rw [hafter, reference_after ids, reference_deleteSubject, hcons]
    cases hgone : g.rowGone [id] t k with
    | true => simp
    | false =>
      rw [rowGone_deleteSubject hgone]
      simp only [Bool.false_or, Bool.false_eq_true, if_false, Option.map_map]
      refine if_congr Iff.rfl rfl (congrArg (Option.map · _) (funext fun v => ?_))
      cases v with
      | none => rfl
      | some target => by_cases hid : target = id <;> simp [Option.filter, hid]

theorem subjects_after : ∀ (ids : List Id) (g : Graph), (g.after ids).subjects.get k =
    if k ∈ ids then none else (g.subjects.get k).map fun row => row.without ids
  | [], g => by
    cases h : g.subjects.get k with
    | none => simp [Graph.after, h]
    | some row =>
      have hrow : row.without [] = row := by
        obtain ⟨_, _, _, _, _, _, _ | target⟩ := row <;> simp [SubjectRow.without, Option.filter]
      simp [Graph.after, h, hrow]
  | id :: ids, g => by
    have hafter : (g.after (id :: ids)).subjects.get k = ((g.deleteSubject id).after ids).subjects.get k := rfl
    rw [hafter, subjects_after ids, subjects_deleteSubject]
    by_cases hk : k = id
    · simp [hk]
    · by_cases hids : k ∈ ids
      · simp [hids]
      · simp only [hk, hids, List.mem_cons, or_self, if_false, Option.map_map]
        refine congrArg (Option.map · _) (funext fun row => ?_)
        simp only [Function.comp, SubjectRow.without, Option.filter_filter]
        congr 2
        funext target
        simp

theorem hasSubject_after (ids : List Id) (g : Graph) :
    (g.after ids).hasSubject k = (decide (k ∉ ids) && g.hasSubject k) := by
  rw [Graph.hasSubject, subjects_after, Graph.hasSubject]
  by_cases hk : k ∈ ids <;> simp [hk]

theorem details_after {t : DetailTable} : ∀ (ids : List Id) (g : Graph), ((g.after ids).details t).get k =
    if k ∈ ids then none else ((g.details t).get k).map fun row => row.without ids
  | [], g => by
    cases h : (g.details t).get k with
    | none => simp [Graph.after, h]
    | some row =>
      have hrow : row.without [] = row := DetailRow.ext (funext fun c => by
        rw [cell_without]
        cases row.cell c <;> simp [Cell.ref])
      simp [Graph.after, h, hrow]
  | id :: ids, g => by
    have hafter : ((g.after (id :: ids)).details t).get k =
        (((g.deleteSubject id).after ids).details t).get k := rfl
    have hone : ((g.deleteSubject id).details t).get k =
        if k = id then none else ((g.details t).get k).map fun row => row.without [id] := by
      show (Keyed.update _ _).get k = _
      rw [Keyed.get_update, Keyed.get_delete]
      by_cases hk : k = id <;> simp [hk]
    rw [hafter, details_after ids, hone]
    by_cases hk : k = id
    · simp [hk]
    · by_cases hids : k ∈ ids
      · simp [hids]
      · simp only [hk, hids, List.mem_cons, or_self, if_false, Option.map_map]
        exact congrArg (Option.map · _) (funext fun row => without_without row)

theorem memorySubjects_after {memory : Id} : ∀ (ids : List Id) (g : Graph),
    (g.after ids).memorySubjects.get (memory, k) = if k ∈ ids then none else g.memorySubjects.get (memory, k)
  | [], g => by simp [Graph.after]
  | id :: ids, g => by
    have hafter : (g.after (id :: ids)).memorySubjects.get (memory, k) =
        ((g.deleteSubject id).after ids).memorySubjects.get (memory, k) := rfl
    have hone : (g.deleteSubject id).memorySubjects.get (memory, k) =
        if k = id then none else g.memorySubjects.get (memory, k) := by
      show (Keyed.delete _ _).get _ = _
      rw [Keyed.get_delete]
      by_cases hk : k = id <;> simp [hk]
    rw [hafter, memorySubjects_after ids, hone]
    by_cases hk : k = id <;> by_cases hids : k ∈ ids <;> simp [hk, hids]

theorem cooccurrences_after {a b : Id} : ∀ (ids : List Id) (g : Graph), (g.after ids).cooccurrences.get (a, b) =
    if a ∈ ids ∨ b ∈ ids then none else g.cooccurrences.get (a, b)
  | [], g => by simp [Graph.after]
  | id :: ids, g => by
    have hafter : (g.after (id :: ids)).cooccurrences.get (a, b) =
        ((g.deleteSubject id).after ids).cooccurrences.get (a, b) := rfl
    have hone : (g.deleteSubject id).cooccurrences.get (a, b) =
        if a = id ∨ b = id then none else g.cooccurrences.get (a, b) := by
      show (Keyed.delete _ _).get _ = _
      rw [Keyed.get_delete]
      by_cases ha : a = id <;> by_cases hb : b = id <;> simp [ha, hb]
    rw [hafter, cooccurrences_after ids, hone]
    by_cases ha : a = id <;> by_cases hb : b = id <;> by_cases ha' : a ∈ ids <;> by_cases hb' : b ∈ ids <;>
      simp [ha, hb, ha', hb']

theorem after_append (g : Graph) (ids ids' : List Id) : g.after (ids ++ ids') = (g.after ids).after ids' :=
  List.foldl_append

end After

/-! ## What keeps a subject -/

def RepointTarget.ofRelationship : RepointTarget → Bool
  | .column .relationshipsFrom | .column .relationshipsTo => true
  | _ => false

section Held

variable (external : SubjectExternalRefs)

/-- A subject that something keeps, the shells of its duplicates apart. -/
inductive Held (g : Graph) (id : Id) : Prop
  | self {row} (hrow : g.subjects.get id = some row) (hself : row.isSelf = true)
  | memory {memory mention} (hmention : g.memorySubjects.get (memory, id) = some mention)
  | referenced {t k} (href : g.reference t k = some (some id))
      (hloop : t.ofRelationship = true → g.selfLoop k = false)
  | detail {row} (hrow : g.subjects.get id = some row) (hdetail : g.hasDetail id row = true)
  | anchor (hanchor : external.isThreadAnchor id = true)
  | record (hrecord : external.hasRecords id = true)

variable {external} {g : Graph} {ids ids' : List Id} {id k : Id} {row : SubjectRow} {t : RepointTarget}

theorem mem_selectPks : k ∈ g.selectPks id t ↔ g.reference t k = some (some id) := by
  cases t with
  | column c =>
    show k ∈ ((g.columns c).select _).map Prod.fst ↔ (g.columns c).get k = _
    constructor
    · intro h
      obtain ⟨⟨k', v⟩, hmem, rfl⟩ := List.mem_map.1 h
      obtain ⟨hget, hv⟩ := Keyed.mem_select.1 hmem
      rw [hget, of_decide_eq_true hv]
    · exact fun h => List.mem_map.2 ⟨(k, some id), Keyed.mem_select.2 ⟨h, by simp⟩, rfl⟩
  | engagement r =>
    have href : ∀ cell : Cell, cell.ref = some id ↔ cell = .text id := by
      rintro (_ | _ | _) <;> simp [Cell.ref]
    show k ∈ ((g.details .engagements).select _).map Prod.fst ↔ ((g.details .engagements).get k).map _ = _
    rw [Option.map_eq_some_iff]
    constructor
    · intro h
      obtain ⟨⟨k', row⟩, hmem, rfl⟩ := List.mem_map.1 h
      obtain ⟨hget, hv⟩ := Keyed.mem_select.1 hmem
      exact ⟨row, hget, (href _).2 (of_decide_eq_true hv)⟩
    · rintro ⟨row, hget, hcell⟩
      exact List.mem_map.2 ⟨(k, row), Keyed.mem_select.2 ⟨hget, decide_eq_true ((href _).1 hcell)⟩, rfl⟩

theorem isReferenced_iff : g.isReferenced id t = true ↔
    ∃ k, g.reference t k = some (some id) ∧ (t.ofRelationship = true → g.selfLoop k = false) := by
  have hiff : g.isReferenced id t = (g.selectPks id t).any fun k => !(t.ofRelationship && g.selfLoop k) := by
    rcases t with c | r
    · cases c <;> rfl
    · rfl
  rw [hiff, List.any_eq_true]
  refine exists_congr fun k => and_congr mem_selectPks ?_
  cases t.ofRelationship <;> simp

theorem mem_repointTargets (t : RepointTarget) : t ∈ REPOINT_TARGETS := by
  rcases t with c | r
  · cases c <;> decide
  · cases r <;> decide

/-- A subject that is there is held, or nothing keeps it but its shells. -/
theorem referenceReason_spec (external : SubjectExternalRefs) (hrow : g.subjects.get id = some row) :
    (Held external g id ∧ referenceReason external g id ≠ none ∧
        referenceReason external g id ≠ some .mergeTarget ∧
          referenceReason external g id ≠ some .missing) ∨
      (¬ Held external g id ∧
        referenceReason external g id = if g.dupsOf id = [] then none else some .mergeTarget) := by
  simp only [referenceReason, hrow]
  by_cases hself : row.isSelf = true
  · exact .inl ⟨.self hrow hself, by simp [hself]⟩
  simp only [hself]
  by_cases hmemory : (g.memorySubjects.rows.any fun e => e.1.2 = id) = true
  · obtain ⟨⟨⟨memory, id'⟩, mention⟩, hmem, heq⟩ := List.any_eq_true.1 hmemory
    obtain rfl := of_decide_eq_true heq
    exact .inl ⟨.memory (Keyed.get_eq_some_iff.2 hmem), by simp [hmemory]⟩
  simp only [hmemory]
  cases hfind : REPOINT_TARGETS.find? (g.isReferenced id) with
  | some t =>
    obtain ⟨k, href, hloop⟩ := isReferenced_iff.1 (List.find?_some hfind)
    exact .inl ⟨.referenced href hloop, by simp⟩
  | none =>
    by_cases hdetail : g.hasDetail id row = true
    · exact .inl ⟨.detail hrow hdetail, by simp [hdetail]⟩
    by_cases hanchor : external.isThreadAnchor id = true
    · exact .inl ⟨.anchor hanchor, by simp [hdetail, hanchor]⟩
    by_cases hrecord : external.hasRecords id = true
    · exact .inl ⟨.record hrecord, by simp [hdetail, hanchor, hrecord]⟩
    refine .inr ⟨?_, ?_⟩
    · rintro (⟨hrow', hself'⟩ | ⟨hmention⟩ | ⟨href, hloop⟩ | ⟨hrow', hdetail'⟩ | h | h)
      · exact hself (Option.some.inj (hrow.symm.trans hrow') ▸ hself')
      · exact hmemory (List.any_eq_true.2 ⟨_, Keyed.get_eq_some_iff.1 hmention, by simp⟩)
      · exact List.find?_eq_none.1 hfind _ (mem_repointTargets _) (isReferenced_iff.2 ⟨_, href, hloop⟩)
      · exact hdetail (Option.some.inj (hrow.symm.trans hrow') ▸ hdetail')
      · exact hanchor h
      · exact hrecord h
    · simp only [hdetail, hanchor, hrecord]
      cases g.dupsOf id <;> simp

/-- A relationship that is left joins what it joined. -/
theorem selfLoop_after (h : g.rowGone ids (.column .relationshipsFrom) k = false) :
    (g.after ids).selfLoop k = g.selfLoop k := by
  have hkeep : ∀ v : Option (Option Id), (∀ id ∈ ids, v ≠ some (some id)) →
      (v.map fun v => v.filter fun target => target ∉ ids) = v := by
    rintro (_ | _ | target) hne
    · rfl
    · rfl
    · have hnot : target ∉ ids := fun hmem => hne target hmem rfl
      simp [Option.filter, hnot]
  have hjoin : ∀ id ∈ ids, g.joins id k = false := fun id hid => by
    simpa using List.any_eq_false.1 h id hid
  have hto : g.rowGone ids (.column .relationshipsTo) k = false := h
  rw [Graph.selfLoop, reference_after, reference_after, h, hto, if_neg Bool.false_ne_true,
    if_neg Bool.false_ne_true, hkeep _ fun id hid => (joins_eq_false.1 (hjoin id hid)).1,
    hkeep _ fun id hid => (joins_eq_false.1 (hjoin id hid)).2]
  rfl

/-- What is held after some deletions was held after fewer. -/
theorem Held.mono (hsub : ids ⊆ ids') (hid : id ∉ ids') (h : Held external (g.after ids') id) :
    Held external (g.after ids) id := by
  have hid' : id ∉ ids := fun hmem => hid (hsub hmem)
  rcases h with ⟨hrow, hself⟩ | ⟨hmention⟩ | ⟨href, hloop⟩ | ⟨hrow, hdetail⟩ | h | h
  · rw [subjects_after, if_neg hid, Option.map_eq_some_iff] at hrow
    obtain ⟨r, hr, rfl⟩ := hrow
    have hrow : (g.after ids).subjects.get id = some (r.without ids) := by
      rw [subjects_after, if_neg hid', hr]
      rfl
    exact .self hrow hself
  · rw [memorySubjects_after, if_neg hid] at hmention
    exact .memory (by rw [memorySubjects_after, if_neg hid']; exact hmention)
  · rename_i t k
    rw [reference_after] at href
    split at href
    · exact nomatch href
    next hgone =>
      obtain ⟨v, hv, htarget⟩ := Option.map_eq_some_iff.1 href
      obtain ⟨rfl, -⟩ := Option.filter_eq_some_iff.1 htarget
      rw [Bool.not_eq_true] at hgone
      have hless := rowGone_mono hsub hgone
      refine .referenced (t := t) (k := k) ?_ fun hrel => ?_
      · rw [reference_after, hless, hv]
        simp [Option.filter, hid']
      · have hfrom : g.rowGone ids' (.column .relationshipsFrom) k = false := by
          unfold RepointTarget.ofRelationship at hrel
          split at hrel
          · exact hgone
          · exact hgone
          · exact nomatch hrel
        rw [selfLoop_after (rowGone_mono hsub hfrom), ← selfLoop_after hfrom]
        exact hloop hrel
  · rw [subjects_after, if_neg hid, Option.map_eq_some_iff] at hrow
    obtain ⟨r, hr, rfl⟩ := hrow
    have hrow : (g.after ids).subjects.get id = some (r.without ids) := by
      rw [subjects_after, if_neg hid', hr]
      rfl
    refine .detail hrow ?_
    unfold Graph.hasDetail at hdetail ⊢
    rw [show (r.without ids').kind = r.kind from rfl] at hdetail
    rw [show (r.without ids).kind = r.kind from rfl]
    cases htable : DETAIL_TABLE r.kind with
    | none =>
      rw [htable] at hdetail
      exact hdetail
    | some t =>
      rw [htable] at hdetail
      have hdetail : (((g.after ids').details t).get id).any (substantive t) = true := hdetail
      show (((g.after ids).details t).get id).any (substantive t) = true
      rw [details_after, if_neg hid] at hdetail
      rw [details_after, if_neg hid']
      rcases hd : (g.details t).get id with _ | drow
      · simp [hd] at hdetail
      · rw [hd] at hdetail
        exact substantive_mono hsub hdetail
  · exact .anchor h
  · exact .record h

end Held

/-! ## Shells -/

section Shells

variable {g : Graph} {ids : List Id} {id x y : Id}

/-- A shell hangs on the subject that its duplicate was merged into. -/
def Graph.hangs (g : Graph) (x y : Id) : Prop :=
  y ∈ g.dupsOf x

theorem hangs_iff : g.hangs x y ↔ ∃ row, g.subjects.get y = some row ∧ row.mergedInto = some x := by
  unfold Graph.hangs Graph.dupsOf
  constructor
  · intro h
    obtain ⟨⟨k, row⟩, hmem, rfl⟩ := List.mem_map.1 h
    obtain ⟨hget, hmerged⟩ := Keyed.mem_select.1 hmem
    exact ⟨row, hget, of_decide_eq_true hmerged⟩
  · rintro ⟨row, hget, hmerged⟩
    exact List.mem_map.2 ⟨(y, row), Keyed.mem_select.2 ⟨hget, decide_eq_true hmerged⟩, rfl⟩

theorem hangs_after : (g.after ids).hangs x y ↔ g.hangs x y ∧ y ∉ ids ∧ x ∉ ids := by
  have hfilter : ∀ r : SubjectRow, (r.without ids).mergedInto = some x ↔ r.mergedInto = some x ∧ x ∉ ids := by
    intro r
    rw [SubjectRow.without, Option.filter_eq_some_iff, decide_eq_true_eq]
  rw [hangs_iff, hangs_iff, subjects_after]
  by_cases hy : y ∈ ids
  · simp [hy]
  · rw [if_neg hy]
    constructor
    · rintro ⟨row, hrow, hmerged⟩
      obtain ⟨r, hr, rfl⟩ := Option.map_eq_some_iff.1 hrow
      exact ⟨⟨r, hr, ((hfilter r).1 hmerged).1⟩, hy, ((hfilter r).1 hmerged).2⟩
    · rintro ⟨⟨r, hr, hmerged⟩, -, hx⟩
      exact ⟨r.without ids, Option.map_eq_some_iff.2 ⟨r, hr, rfl⟩, (hfilter r).2 ⟨hmerged, hx⟩⟩

/-- What is left of the shells of a subject hangs on it still. -/
theorem reach_after (hwhole : Release.Whole g.hangs ids) (hx : x ∉ ids) :
    ReflTransGen (g.after ids).hangs x y ↔ ReflTransGen g.hangs x y ∧ y ∉ ids := by
  constructor
  · intro h
    induction h with
    | refl => exact ⟨.refl, hx⟩
    | tail _ hlast ih =>
      obtain ⟨hhangs, hnot, -⟩ := hangs_after.1 hlast
      exact ⟨ih.1.tail hhangs, hnot⟩
  · rintro ⟨h, hy⟩
    induction h with
    | refl => exact .refl
    | @tail mid _ _ hlast ih =>
      by_cases hmid : mid ∈ ids
      · exact absurd (hwhole _ hmid _ hlast) hy
      · exact (ih hmid).tail (hangs_after.2 ⟨hlast, hy, hmid⟩)

/-- The search finds what is seen and what is reached from it. -/
theorem mergeDupClosureFrom_spec (g : Graph) (c : Id) (out queue : List Id)
    (hreach : ∀ y ∈ c :: out, ReflTransGen g.hangs c y) (hqueue : ∀ y ∈ queue, y ∈ c :: out)
    (hclosed : ∀ x ∈ c :: out, x ∈ queue ∨ ∀ y, g.hangs x y → y ∈ c :: out) :
    (∀ y ∈ c :: mergeDupClosureFrom g c out queue, ReflTransGen g.hangs c y) ∧
      ∀ x ∈ c :: mergeDupClosureFrom g c out queue, ∀ y, g.hangs x y →
        y ∈ c :: mergeDupClosureFrom g c out queue := by
  induction out, queue using mergeDupClosureFrom.induct g c with
  | case1 out =>
    rw [mergeDupClosureFrom]
    exact ⟨hreach, fun x hx => (hclosed x hx).resolve_left List.not_mem_nil⟩
  | case2 out cur queue new ih =>
    rw [mergeDupClosureFrom]
    have hnew : ∀ y, y ∈ new ↔ g.hangs cur y ∧ y ∉ c :: out := fun y => by
      show y ∈ (g.dupsOf cur).filter _ ↔ _
      rw [List.mem_filter, decide_eq_true_eq]
      rfl
    have hmem : ∀ y, y ∈ c :: (out ++ new) ↔ y ∈ c :: out ∨ y ∈ new := fun y => by
      rw [← List.cons_append, List.mem_append]
    have hcur := hqueue cur List.mem_cons_self
    refine ih (fun y hy => ?_) (fun y hy => ?_) fun x hx => ?_
    · rcases (hmem y).1 hy with hy | hy
      · exact hreach y hy
      · exact (hreach cur hcur).tail ((hnew y).1 hy).1
    · rw [hmem]
      exact (List.mem_append.1 hy).imp_left fun hy => hqueue y (List.mem_cons_of_mem cur hy)
    · rcases (hmem x).1 hx with hx | hx
      · by_cases heq : x = cur
        · subst heq
          refine .inr fun y hy => (hmem y).2 ?_
          by_cases hseen : y ∈ c :: out
          · exact .inl hseen
          · exact .inr ((hnew y).2 ⟨hy, hseen⟩)
        · refine (hclosed x hx).imp (fun hq => ?_) fun hall y hy => (hmem y).2 (.inl (hall y hy))
          exact List.mem_append_left _ (List.mem_of_ne_of_mem heq hq)
      · exact .inl (List.mem_append_right _ hx)

theorem mem_mergeDupClosure : y = id ∨ y ∈ mergeDupClosure g id ↔ ReflTransGen g.hangs id y := by
  have hspec := mergeDupClosureFrom_spec g id [] [id]
    (fun y hy => List.mem_singleton.1 hy ▸ .refl) (fun y hy => hy) fun x hx => .inl hx
  rw [← List.mem_cons]
  refine ⟨hspec.1 y, fun h => ?_⟩
  induction h with
  | refl => exact List.mem_cons_self
  | tail _ hlast ih => exact hspec.2 _ ih _ hlast

end Shells

/-! ## One candidate -/

section One

variable {external : SubjectExternalRefs} {g : Graph} {s : Reap} {ids : List Id} {id y : Id}

/-- Deletions note the subjects that were there. -/
theorem foldl_delete_spec : ∀ (ids : List Id) (s : Reap), ∃ new, ids.foldl Reap.delete s =
    { s with graph := s.graph.after new, reaped := s.reaped ++ new } ∧
      ∀ y, y ∈ new ↔ y ∈ ids ∧ s.graph.hasSubject y = true
  | [], s => ⟨[], by simp [Graph.after], fun y => by simp⟩
  | id :: ids, s => by
    obtain ⟨new, heq, hmem⟩ := foldl_delete_spec ids (s.delete id)
    rw [List.foldl_cons, heq]
    by_cases hthere : s.graph.hasSubject id = true
    · refine ⟨id :: new, ?_, fun y => ?_⟩
      · rw [Reap.delete, if_pos hthere]
        simp [Graph.after]
      · rw [List.mem_cons, hmem, hasSubject_delete, List.mem_cons]
        by_cases hy : y = id <;> simp [hy, hthere]
    · refine ⟨new, ?_, fun y => ?_⟩
      · rw [Reap.delete, if_neg hthere]
      · rw [hmem, Reap.delete, if_neg hthere, List.mem_cons]
        constructor
        · exact fun h => ⟨.inr h.1, h.2⟩
        · rintro ⟨rfl | hy, h⟩
          · exact absurd h hthere
          · exact ⟨hy, h⟩

theorem hasSubject_of_reach (hid : g.hasSubject id = true) (h : ReflTransGen g.hangs id y) :
    g.hasSubject y = true := by
  rcases h.cases_tail with rfl | ⟨x, -, hlast⟩
  · exact hid
  · obtain ⟨row, hrow, -⟩ := hangs_iff.1 hlast
    simp [Graph.hasSubject, hrow]

theorem mergeTargetClosure_eq_none (hid : g.hasSubject id = true) :
    mergeTargetClosure external g id = none ↔ ∃ y ∈ mergeDupClosure g id, Held external g y := by
  have hshell : ∀ y ∈ mergeDupClosure g id, (referenceReason external g y ≠ none &&
      referenceReason external g y ≠ some .mergeTarget) = true ↔ Held external g y := by
    intro y hy
    have hthere := hasSubject_of_reach hid (mem_mergeDupClosure.1 (.inr hy))
    obtain ⟨row, hrow⟩ := Option.isSome_iff_exists.1 hthere
    rcases referenceReason_spec external hrow with ⟨hheld, hne, hne', -⟩ | ⟨hfree, hreason⟩
    · simp [hheld, hne, hne']
    · rw [hreason]
      split <;> simp [hfree]
  unfold mergeTargetClosure
  simp only
  split
  · next hany =>
    obtain ⟨y, hy, hheld⟩ := List.any_eq_true.1 hany
    exact ⟨fun _ => ⟨y, hy, (hshell y hy).1 hheld⟩, fun _ => rfl⟩
  · next hany =>
    refine ⟨fun h => (nomatch h), fun ⟨y, hy, hheld⟩ => ?_⟩
    exact absurd (List.any_eq_true.2 ⟨y, hy, (hshell y hy).2 hheld⟩) hany

/-- What the pass makes of one candidate. -/
theorem reapOne_spec (external : SubjectExternalRefs) (s : Reap) (id : Id) :
    (s.graph.hasSubject id = false ∧ reapOne external s id = s.drop id) ∨
    (s.graph.hasSubject id = true ∧ (∀ y, ReflTransGen s.graph.hangs id y → ¬ Held external s.graph y) ∧
      ∃ new, (∀ y, y ∈ new ↔ ReflTransGen s.graph.hangs id y) ∧ reapOne external s id =
        { s.drop id with graph := s.graph.after new, reaped := s.reaped ++ new, progressed := true }) ∨
    (s.graph.hasSubject id = true ∧ (∃ y, ReflTransGen s.graph.hangs id y ∧ Held external s.graph y) ∧
      reapOne external s id = s) := by
  cases hrow : s.graph.subjects.get id with
  | none =>
    have hreason : referenceReason external s.graph id = some .missing := by simp [referenceReason, hrow]
    exact .inl ⟨by simp [Graph.hasSubject, hrow], by rw [reapOne, hreason]⟩
  | some row =>
    have hthere : s.graph.hasSubject id = true := by simp [Graph.hasSubject, hrow]
    refine .inr ?_
    rcases referenceReason_spec external hrow with ⟨hheld, hne, hne', hne''⟩ | ⟨hfree, hreason⟩
    · refine .inr ⟨hthere, ⟨id, .refl, hheld⟩, ?_⟩
      unfold reapOne
      split
      · next h => exact absurd h hne''
      · next h => exact absurd h hne'
      · rfl
      · next h => exact absurd h hne
    · by_cases hdups : s.graph.dupsOf id = []
      · rw [if_pos hdups] at hreason
        have honly : ∀ y, ReflTransGen s.graph.hangs id y ↔ y = id := fun y => by
          refine ⟨fun h => ?_, fun h => h ▸ .refl⟩
          rcases h.cases_head with rfl | ⟨x, hfirst, -⟩
          · rfl
          · rw [Graph.hangs, hdups] at hfirst
            exact absurd hfirst List.not_mem_nil
        refine .inl ⟨hthere, fun y hy => (honly y).1 hy ▸ hfree, [id], fun y => ?_, ?_⟩
        · rw [honly, List.mem_singleton]
        · rw [reapOne, hreason]
          simp [Reap.delete, hthere, Graph.after, Reap.drop]
      · rw [if_neg hdups] at hreason
        cases hclosure : mergeTargetClosure external s.graph id with
        | none =>
          obtain ⟨y, hy, hheld⟩ := (mergeTargetClosure_eq_none hthere).1 hclosure
          refine .inr ⟨hthere, ⟨y, mem_mergeDupClosure.1 (.inr hy), hheld⟩, ?_⟩
          simp only [reapOne, hreason, hclosure]
        | some closure =>
          obtain rfl := mergeDupClosure_of_target hclosure
          have hnone : ¬ ∃ y ∈ mergeDupClosure s.graph id, Held external s.graph y := fun h =>
            absurd (hclosure.symm.trans ((mergeTargetClosure_eq_none hthere).2 h)) (by simp)
          obtain ⟨new, heq, hmem⟩ := foldl_delete_spec (mergeDupClosure s.graph id ++ [id]) s
          refine .inl ⟨hthere, fun y hy hheld => ?_, new, fun y => ?_, ?_⟩
          · rcases mem_mergeDupClosure.2 hy with rfl | hy
            · exact hfree hheld
            · exact hnone ⟨y, hy, hheld⟩
          · rw [hmem, List.mem_append, List.mem_singleton, or_comm, mem_mergeDupClosure]
            exact and_iff_left_of_imp (hasSubject_of_reach hthere)
          · rw [List.foldl_append, List.foldl_cons, List.foldl_nil] at heq
            simp only [reapOne, hreason, hclosure, heq]
            rfl

end One

/-! ## The run -/

section Run

variable (external : SubjectExternalRefs) (g : Graph) (cands : List Id)

/-- A subject is held after some deletions. -/
def heldAfter (gone : List Id) (id : Id) : Prop :=
  Held external (g.after gone) id

/-- A candidate that is there. -/
def isWanted (id : Id) : Prop :=
  id ∈ cands ∧ g.hasSubject id = true

/-- What holds between two candidates of a reap. -/
structure Reaping (s : Reap) : Prop where
  graph : s.graph = g.after s.reaped
  run : Release.Run g.hangs (heldAfter external g) (isWanted g cands) s.reaped
  reaped : ∀ id ∈ s.reaped, g.hasSubject id = true
  pending : ∀ id ∈ cands, s.graph.hasSubject id = true → id ∈ s.pending

/-- No candidate that is left goes. -/
def Settled (h : Graph) (ids : List Id) : Prop :=
  ∀ id ∈ ids, h.hasSubject id = true → ∃ y, ReflTransGen h.hangs id y ∧ Held external h y

variable {external g cands} {s : Reap} {id : Id}

theorem Reaping.one (hs : Reaping external g cands s) (hid : id ∈ cands) :
    Reaping external g cands (reapOne external s id) := by
  rcases reapOne_spec external s id with ⟨hmissing, heq⟩ | ⟨hthere, hfree, new, hmem, heq⟩ | ⟨-, -, heq⟩ <;>
    rw [heq]
  · refine ⟨hs.graph, hs.run, hs.reaped, fun id' hid' hthere => ?_⟩
    refine List.mem_filter.2 ⟨hs.pending id' hid' hthere, decide_eq_true ?_⟩
    rintro rfl
    exact nomatch hmissing.symm.trans hthere
  · have hwhole := hs.run.whole
    rw [hs.graph, hasSubject_after, Bool.and_eq_true, decide_eq_true_eq] at hthere
    have hreach : ∀ y, y ∈ new ↔ ReflTransGen g.hangs id y ∧ y ∉ s.reaped := fun y => by
      rw [hmem, hs.graph, reach_after hwhole hthere.1]
    refine ⟨?_, hs.run.tail ⟨id, ⟨hid, hthere.2⟩, hthere.1, fun y hy hleft => ?_, fun y => ?_⟩, fun y hy => ?_,
      fun id' hid' hthere' => ?_⟩
    · show s.graph.after new = _
      rw [after_append, ← hs.graph]
    · unfold heldAfter
      rw [← hs.graph]
      exact hfree y ((hmem y).1 ((hreach y).2 ⟨hy, hleft⟩))
    · rw [List.mem_append, hreach]
      by_cases hy : y ∈ s.reaped <;> simp [hy]
    · rcases List.mem_append.1 hy with hy | hy
      · exact hs.reaped y hy
      · exact hasSubject_of_reach hthere.2 ((hreach y).1 hy).1
    · have hleft : (s.graph.after new).hasSubject id' = true := hthere'
      rw [hasSubject_after, Bool.and_eq_true, decide_eq_true_eq] at hleft
      refine List.mem_filter.2 ⟨hs.pending id' hid' hleft.2, decide_eq_true ?_⟩
      rintro rfl
      exact hleft.1 ((hreach _).2 ⟨.refl, hthere.1⟩)
  · exact hs

theorem Reaping.foldl : ∀ (ids : List Id) {s : Reap}, Reaping external g cands s → ids ⊆ cands →
    Reaping external g cands (ids.foldl (reapOne external) s)
  | [], _, hs, _ => hs
  | _ :: ids, _, hs, hsub =>
    Reaping.foldl ids (hs.one (hsub List.mem_cons_self)) fun _ hid => hsub (List.mem_cons_of_mem _ hid)

/-- A pass that deleted nothing has seen that no candidate goes. -/
theorem settled_of_pass : ∀ (ids : List Id) (s : Reap),
    (ids.foldl (reapOne external) s).progressed = false →
      s.progressed = false ∧ (ids.foldl (reapOne external) s).graph = s.graph ∧
        Settled external s.graph ids
  | [], _, h => ⟨h, rfl, fun _ hid => absurd hid List.not_mem_nil⟩
  | id :: ids, s, h => by
    obtain ⟨hp, hg, hsettled⟩ := settled_of_pass ids _ h
    rw [List.foldl_cons]
    rcases reapOne_spec external s id with ⟨hmissing, heq⟩ | ⟨-, -, new, -, heq⟩ | ⟨-, hheld, heq⟩ <;>
      rw [heq] at hp hg hsettled ⊢
    · refine ⟨hp, hg, fun y hy hthere => ?_⟩
      rcases List.mem_cons.1 hy with rfl | hy
      · exact nomatch hmissing.symm.trans hthere
      · exact hsettled y hy hthere
    · exact nomatch hp
    · refine ⟨hp, hg, fun y hy hthere => ?_⟩
      rcases List.mem_cons.1 hy with rfl | hy
      · exact hheld
      · exact hsettled y hy hthere

theorem Reaping.pass (hs : Reaping external g cands s) (hsub : s.pending ⊆ cands) :
    Reaping external g cands (reapPass external s) :=
  Reaping.foldl s.pending (s := { s with progressed := false }) ⟨hs.graph, hs.run, hs.reaped, hs.pending⟩ hsub

/-- The candidates that are left to look at are candidates. -/
theorem pending_reapOne (external : SubjectExternalRefs) (s : Reap) (id : Id) :
    (reapOne external s id).pending ⊆ s.pending := by
  rcases reapOne_spec external s id with ⟨-, heq⟩ | ⟨-, -, new, -, heq⟩ | ⟨-, -, heq⟩ <;> rw [heq]
  · exact List.filter_sublist.subset
  · exact List.filter_sublist.subset
  · exact List.Subset.refl _

theorem pending_foldl (external : SubjectExternalRefs) : ∀ (ids : List Id) (s : Reap),
    (ids.foldl (reapOne external) s).pending ⊆ s.pending
  | [], _ => List.Subset.refl _
  | id :: ids, s => List.Subset.trans (pending_foldl external ids _) (pending_reapOne external s id)

theorem reapRun_spec (external : SubjectExternalRefs) (s : Reap) (hs : Reaping external g cands s) (hsub : s.pending ⊆ cands)
    (hsettled : s.progressed = false → Settled external s.graph cands) :
    Reaping external g cands (reapRun external s) ∧
      Settled external (reapRun external s).graph cands := by
  induction s using reapRun.induct external with
  | case1 s hgo ih =>
    rw [reapRun, if_pos hgo]
    refine ih (hs.pass hsub) (List.Subset.trans (pending_foldl external _ _) hsub) fun hstop => ?_
    obtain ⟨-, hgraph, hpass⟩ := settled_of_pass s.pending { s with progressed := false } hstop
    intro id hid hthere
    rw [reapPass, hgraph] at hthere ⊢
    exact hpass id (hs.pending id hid hthere) hthere
  | case2 s hstop =>
    rw [reapRun, if_neg hstop]
    refine ⟨hs, fun id hid hthere => ?_⟩
    by_cases hp : s.progressed = true
    · have hpending := hs.pending id hid hthere
      rw [not_not.1 fun hne => hstop ⟨hp, hne⟩] at hpending
      exact absurd hpending List.not_mem_nil
    · exact hsettled (Bool.eq_false_iff.2 hp) id hid hthere

/-- A reap is a run that can take nothing more. -/
theorem reapOrphans_run (external : SubjectExternalRefs) (g : Graph) (cands : List Id) :
    (reapOrphans external g cands).1 = g.after (reapOrphans external g cands).2 ∧
      (∀ id ∈ (reapOrphans external g cands).2, g.hasSubject id = true) ∧
        Release.Run g.hangs (heldAfter external g) (isWanted g cands) (reapOrphans external g cands).2 ∧
          Release.Stuck g.hangs (heldAfter external g) (isWanted g cands) (reapOrphans external g cands).2 := by
  have hstart : Reaping external g cands ⟨g, cands.eraseDups, [], true⟩ :=
    ⟨rfl, .refl, fun _ hid => absurd hid List.not_mem_nil, fun id hid _ => List.mem_eraseDups.2 hid⟩
  obtain ⟨hs, hsettled⟩ := reapRun_spec external _ hstart
    (fun id hid => List.mem_eraseDups.1 hid) fun h => nomatch h
  refine ⟨hs.graph, hs.reaped, hs.run, fun id hwanted hleft hfree => ?_⟩
  have hthere : (reapRun external ⟨g, cands.eraseDups, [], true⟩).graph.hasSubject id = true := by
    rw [hs.graph, hasSubject_after, Bool.and_eq_true, decide_eq_true_eq]
    exact ⟨hleft, hwanted.2⟩
  obtain ⟨y, hreach, hheld⟩ := hsettled id hwanted.1 hthere
  rw [hs.graph] at hreach hheld
  obtain ⟨hreach, hy⟩ := (reach_after hs.run.whole hleft).1 hreach
  exact hfree y hreach hy hheld

/-! ## What is taken -/

/-- What holds of a subject that a reap deletes: before it, and of the rows that are left. -/
structure Orphan (external : SubjectExternalRefs) (g g' : Graph) (id : Id) : Prop where
  row : ∃ row, g.subjects.get id = some row ∧ row.isSelf = false ∧ g.hasDetail id row = false
  memories : ∀ memory, g.memorySubjects.get (memory, id) = none
  anchor : external.isThreadAnchor id = false
  records : external.hasRecords id = false
  references : ∀ t k, (g'.reference t k).isSome = true → g.reference t k ≠ some (some id)
  shells : ∀ k row, g'.hasSubject k = true → g.subjects.get k = some row → row.mergedInto ≠ some id
  cooccurrences : ∀ a b, (g'.cooccurrences.get (a, b)).isSome = true → a ≠ id ∧ b ≠ id

/-- No row that is left refers to what a run took, a row of a relationship with itself apart, which goes. -/
theorem rowGone_of_run {gone : List Id} (hrun : Release.Run g.hangs (heldAfter external g) (isWanted g cands) gone)
    {t : RepointTarget} {k : Id} (hid : id ∈ gone) (href : g.reference t k = some (some id)) :
    g.rowGone gone t k = true := by
  obtain ⟨before, -, hsub, hnot, hheld⟩ := hrun.taken hid
  by_contra hleft
  rw [Bool.not_eq_true] at hleft
  refine hheld (.referenced (t := t) (k := k) ?_ fun hrel => ?_)
  · rw [reference_after, rowGone_mono hsub hleft, href]
    simp [Option.filter, hnot]
  · -- Both ends of the relationship are not gone, so that neither is the subject.
    exfalso
    have hjoins : g.joins id k = true := by
      unfold RepointTarget.ofRelationship at hrel
      split at hrel
      · simp [Graph.joins, href]
      · simp [Graph.joins, href]
      · exact nomatch hrel
    have hgone : g.rowGone gone t k = true := by
      unfold RepointTarget.ofRelationship at hrel
      split at hrel
      · exact List.any_eq_true.2 ⟨id, hid, hjoins⟩
      · exact List.any_eq_true.2 ⟨id, hid, hjoins⟩
      · exact nomatch hrel
    exact nomatch hleft.symm.trans hgone

/-- A detail row whose references are not to some subjects is the same without them. -/
theorem without_eq_self {ids : List Id} {t : DetailTable} {drow : DetailRow t} (hrow : (g.details t).get id = some drow)
    (href : ∀ r, ∀ target ∈ ids, g.reference (.engagement r) id ≠ some (some target)) :
    drow.without ids = drow := by
  refine DetailRow.ext (funext fun c => ?_)
  rw [cell_without]
  refine if_neg fun ⟨hc, hany⟩ => ?_
  obtain ⟨target, hcell, htarget⟩ := (Option.any_eq_true _ _).1 hany
  have htarget := of_decide_eq_true htarget
  have hcol : c ∈ t.cols := by
    by_contra hnot
    rw [drow.fits c hnot] at hcell
    exact nomatch hcell
  cases t <;> rcases hc with rfl | rfl <;> try exact absurd hcol (by decide)
  · refine href .provider target htarget ?_
    show ((g.details .engagements).get id).map _ = _
    rw [hrow, ← hcell]
    rfl
  · refine href .client target htarget ?_
    show ((g.details .engagements).get id).map _ = _
    rw [hrow, ← hcell]
    rfl

/-- Every subject that a reap deletes is an orphan. -/
theorem orphan_of_run {gone : List Id} (hthere : ∀ id ∈ gone, g.hasSubject id = true)
    (hrun : Release.Run g.hangs (heldAfter external g) (isWanted g cands) gone) (hid : id ∈ gone) :
    Orphan external g (g.after gone) id := by
  obtain ⟨before, hbefore, hsub, hnot, hheld⟩ := hrun.taken hid
  obtain ⟨row, hrow⟩ := Option.isSome_iff_exists.1 (hthere id hid)
  have hrow' : (g.after before).subjects.get id = some (row.without before) := by
    rw [subjects_after, if_neg hnot, hrow]
    rfl
  refine ⟨⟨row, hrow, ?_, ?_⟩, fun memory => ?_, ?_, ?_, fun t k hleft href => ?_, fun k row' hleft hget hmerged => ?_,
    fun a b hleft => ?_⟩
  · exact Bool.eq_false_iff.2 fun hself => hheld (.self hrow' hself)
  · refine Bool.eq_false_iff.2 fun hdetail => hheld (.detail hrow' ?_)
    -- The references of its detail row are to subjects that were left.
    unfold Graph.hasDetail at hdetail ⊢
    rw [show (row.without before).kind = row.kind from rfl]
    cases hkind : DETAIL_TABLE row.kind with
    | none =>
      rw [hkind] at hdetail
      cases hdetail
    | some t =>
      rw [hkind] at hdetail
      obtain ⟨drow, hdrow, hsubst⟩ := (Option.any_eq_true _ _).1 hdetail
      have hsame : drow.without before = drow := without_eq_self hdrow fun r target htarget href => by
        obtain ⟨taken, htaken, heq⟩ := List.any_eq_true.1 (rowGone_of_run hbefore htarget href)
        exact hnot (of_decide_eq_true heq ▸ htaken)
      show (((g.after before).details t).get id).any (substantive t) = true
      rw [details_after, if_neg hnot, hdrow, Option.map_some, hsame]
      exact hsubst
  · cases hmention : g.memorySubjects.get (memory, id) with
    | none => rfl
    | some mention =>
      have hleft : (g.after before).memorySubjects.get (memory, id) = some mention := by
        rw [memorySubjects_after, if_neg hnot, hmention]
      exact absurd (.memory hleft) hheld
  · exact Bool.eq_false_iff.2 fun h => hheld (.anchor h)
  · exact Bool.eq_false_iff.2 fun h => hheld (.record h)
  · rw [reference_after, rowGone_of_run hrun hid href] at hleft
    cases hleft
  · rw [hasSubject_after, Bool.and_eq_true, decide_eq_true_eq] at hleft
    exact hleft.1 (hrun.whole id hid k (hangs_iff.2 ⟨row', hget, hmerged⟩))
  · rw [cooccurrences_after] at hleft
    split at hleft
    · cases hleft
    next hnone =>
      obtain ⟨ha, hb⟩ := not_or.1 hnone
      exact ⟨fun h => ha (h ▸ hid), fun h => hb (h ▸ hid)⟩

end Run

/-- A reap ends, and deletes the same subjects whatever the order of its candidates. What it deletes was there,
is neither the owner's own nor held by anything, and no row that is left refers to it; every other subject
stays. -/
theorem reapOrphans_confluent (external : SubjectExternalRefs) (g : Graph) (cands cands' : List Id)
    (hsame : ∀ id, id ∈ cands ↔ id ∈ cands') :
    (∀ id, id ∈ (reapOrphans external g cands).2 ↔ id ∈ (reapOrphans external g cands').2) ∧
      (∀ id, (reapOrphans external g cands).1.hasSubject id = true ↔
        g.hasSubject id = true ∧ id ∉ (reapOrphans external g cands).2) ∧
          ∀ id ∈ (reapOrphans external g cands).2, Orphan external g (reapOrphans external g cands).1 id := by
  obtain ⟨hgraph, hthere, hrun, hstuck⟩ := reapOrphans_run external g cands
  obtain ⟨-, -, hrun', hstuck'⟩ := reapOrphans_run external g cands'
  have hwanted : isWanted g cands' = isWanted g cands := by
    funext id
    rw [isWanted, isWanted, hsame]
  rw [hwanted] at hrun' hstuck'
  have hmono : ∀ {gone gone' : List Id} {id}, gone ⊆ gone' → id ∉ gone' → heldAfter external g gone' id →
      heldAfter external g gone id := fun hsub hid => Held.mono hsub hid
  refine ⟨fun id => hrun.mem_iff hmono hstuck hrun' hstuck', fun id => ?_, fun id hid => ?_⟩
  · rw [hgraph, hasSubject_after, Bool.and_eq_true, decide_eq_true_eq, and_comm]
  · rw [hgraph]
    exact orphan_of_run hthere hrun hid

/-- Three subjects, the first a child of the second. -/
private def family : Graph where
  subjects := ⟨[utf16 "a", utf16 "b", utf16 "c"].map fun id =>
    (id, ⟨.person, id, utf16 "[]", false, utf16 "system", none, none⟩), by decide⟩
  columns c := if c = .subjectsParent then ⟨[(utf16 "a", some (utf16 "b"))], by decide⟩ else .empty
  details _ := .empty
  memorySubjects := .empty
  cooccurrences := .empty

/-- A child and its parent in both orders, with one that a thread is anchored at. -/
theorem reapOrphans_confluent_family :
    utf16 "b" ∈ (reapOrphans ⟨fun id => id = utf16 "c", fun _ => false⟩ family
        [utf16 "a", utf16 "b", utf16 "c"]).2 ↔
      utf16 "b" ∈ (reapOrphans ⟨fun id => id = utf16 "c", fun _ => false⟩ family
        [utf16 "c", utf16 "b", utf16 "a"]).2 :=
  (reapOrphans_confluent _ family _ _ (fun id => by
    simp only [List.mem_cons, List.not_mem_nil, or_false]
    tauto)).1 _

/-- A reap leaves nothing to a second one : its candidates that are still there stay. -/
theorem reapOrphans_again (external : SubjectExternalRefs) (g : Graph) (cands : List Id) :
    (reapOrphans external (reapOrphans external g cands).1 cands).2 = [] := by
  obtain ⟨hgraph, -, hrun, hstuck⟩ := reapOrphans_run external g cands
  obtain ⟨-, -, hagain, -⟩ := reapOrphans_run external (reapOrphans external g cands).1 cands
  refine List.eq_nil_of_subset_nil (hagain.subset ?_ .refl fun id hwanted _ hfree => ?_)
  · exact fun hsub hid => Held.mono hsub hid
  have hthere := hwanted.2
  rw [hgraph, hasSubject_after, Bool.and_eq_true, decide_eq_true_eq] at hthere
  refine hstuck id ⟨hwanted.1, hthere.2⟩ hthere.1 fun y hreach hy hheld => ?_
  -- nothing that hangs on it was held when the first reap ended
  refine hfree y ?_ List.not_mem_nil ?_ <;> rw [hgraph]
  · exact (reach_after hrun.whole hthere.1).2 ⟨hreach, hy⟩
  · exact hheld

end Lynox.Subjects
