import Lynox.Bulk.Statements

/-!
# Operations as statements

`Ledger.statements_step` : from a staged ledger, an allowed operation is a sequence of
statements. One lemma an operation says which; callers of the invariants never unfold one.

A chain of statements is written as `Ledger.Reaches`, which carries the staged ledger along, so
that a later statement of an operation may use what the earlier ones kept.
-/

namespace Lynox.Bulk

open Relation

variable {V : Type} {D : Deps V}

/-! ## Chains of statements -/

theorem Ledger.Staged.statements {L L' : Ledger} (h : L.Staged)
    (hs : ReflTransGen (Ledger.Statement D) L L') : L'.Staged := by
  induction hs with
  | refl => exact h
  | tail _ hs ih => exact ih.statement hs

/-- From a staged ledger, statements lead there. -/
def Ledger.Reaches (D : Deps V) (L L' : Ledger) : Prop :=
  L.Staged → ReflTransGen (Ledger.Statement D) L L'

namespace Ledger

variable {L L' L'' : Ledger} {id : String} {e : RunEdit}

theorem Reaches.refl (L : Ledger) : L.Reaches D L :=
  fun _ => .refl

theorem Reaches.trans (h : L.Reaches D L') (h' : L'.Reaches D L'') : L.Reaches D L'' :=
  fun hL => (h hL).trans (h' (hL.statements (h hL)))

theorem Statement.reaches (h : Statement D L L') : L.Reaches D L' :=
  fun _ => .single h

/-- Rows changed in place. -/
theorem reaches_mapRuns (h : L.Staged → ∀ x ∈ L.runs, x.Move (e.apply x)) :
    L.Reaches D (L.mapRuns e) :=
  fun hL => .single (.rows e (h hL))

theorem reaches_editRun (h : L.Staged → ∀ x, L.runRow id = some x → x.Move (e.apply x)) :
    L.Reaches D (L.editRun id e) := by
  refine reaches_mapRuns fun hL y hy => ?_
  simp only [RunEdit.under]
  split
  · next hid => exact h hL y (of_decide_eq_true hid ▸ runRow_of_mem hy)
  · exact .refl y

theorem reaches_updateRun {guard : Run → Bool}
    (h : L.Staged → ∀ x, L.runRow id = some x → guard x = true → x.Move (e.apply x)) :
    L.Reaches D (L.updateRun id guard e).2 := by
  refine reaches_editRun fun hL x hx => ?_
  simp only [RunEdit.under]
  split
  · next hguard => exact h hL x hx hguard
  · exact .refl x

end Ledger

/-! ## Moves by a target -/

namespace Run

variable {x : Run} {e : TargetEdit} {seq : ℕ}

theorem Move.notes_editTarget (he : ∀ t ∈ x.targets, (e.apply t).decided = t.decided)
    (hm : ∀ t ∈ x.targets, (e.apply t).traces = t.traces) : x.Move (x.editTarget seq e) :=
  .notes rfl rfl rfl (map_editTarget he) (map_editTarget hm)

theorem Marked.editTarget (h : x.Marked) (he : ∀ t, t.Marked → (e.apply t).Marked) :
    (x.editTarget seq e).Marked := by
  intro t ht
  rcases mem_editTarget.mp ht with ⟨u, hu, rfl⟩ | ⟨ht, -⟩
  · exact he u (h u (mem_of_target? hu))
  · exact h t ht

theorem Move.records_editTarget (approved : x.approvedAt.isSome = true)
    (he : ∀ t ∈ x.targets, (e.apply t).decided = t.decided)
    (hm : ∀ t, t.Marked → (e.apply t).Marked) : x.Move (x.editTarget seq e) :=
  .records approved rfl rfl rfl (map_editTarget he) fun h => h.editTarget hm

/-- A target of a planned run edited so that it stays prepared. -/
theorem Move.prepares_editTarget (planned : x.phase = .planned)
    (he : ∀ t, t.Prepared → (e.apply t).Prepared) : x.Move (x.editTarget seq e) := by
  refine .prepares planned rfl rfl rfl fun hprepared t ht => ?_
  rcases mem_editTarget.mp ht with ⟨u, hu, rfl⟩ | ⟨ht, -⟩
  · exact he u (hprepared u (mem_of_target? hu))
  · exact hprepared t ht

end Run

theorem Target.Prepared.under {e : TargetEdit} {p : Target → Bool} {t : Target} (ht : t.Prepared)
    (h : (e.apply t).Prepared) : ((e.under p).apply t).Prepared := by
  simp only [TargetEdit.under]
  split
  · exact h
  · exact ht

theorem Target.Marked.under {e : TargetEdit} {p : Target → Bool} {t : Target} (ht : t.Marked)
    (he : t.Marked → (e.apply t).Marked) : ((e.under p).apply t).Marked := by
  simp only [TargetEdit.under]
  split
  · exact he ht
  · exact ht

/-- Edits that touch none of the marks keep a target untouched. -/
theorem Target.Prepared.of_traces {t t' : Target} (ht : t.Prepared) (hmarks : t'.traces = t.traces)
    (hafter : t'.change ≠ .invalid → t'.afterPlanned.isSome = true) : t'.Prepared :=
  ⟨Target.untouched_of_traces hmarks ht.untouched, hafter⟩

theorem Run.planned_of_readingList {x : Run} (h : x.readingList = true) :
    x.phase = .planned ∧ x.haltReason = none ∧ x.listState = some .pending := by
  simpa [Run.readingList, and_assoc] using h

theorem Run.planned_of_previewing {x : Run} (h : x.previewing = true) : x.phase = .planned := by
  simp only [Run.previewing, Bool.and_eq_true, decide_eq_true_eq] at h
  exact h.1

/-! ## Plannings -/

namespace Ledger

variable {L L' : Ledger} {principal : RequestPrincipal} {own : ℕ} {newRun : Option String}

/-- A prunable run was never approved. -/
theorem Staged.approvedAt_of_prunable {x : Run} (h : L.Staged) (hx : x ∈ L.runs)
    (hp : x.prunable = true) : x.approvedAt = none := by
  simp only [Run.prunable, Bool.and_eq_true, Bool.or_eq_true, decide_eq_true_eq] at hp
  rcases hp.2 with ⟨hphase, -⟩ | ⟨hphase, hhalt⟩
  · refine (h.runs x hx).approvedAt_eq_none ?_
    rcases hphase with hphase | hphase <;> simp [Run.unapproved, hphase]
  · exact (h.runs x hx).ended hphase (by simp [hhalt, HaltReason.endsUnapproved])

theorem reaches_pruneUnapproved : L.Reaches D (L.pruneUnapproved D principal own newRun) := by
  refine fun hL => .single (.deletes _ fun x hx hdoomed => ?_)
  obtain ⟨q, hq, hid⟩ := List.mem_map.mp (List.contains_iff_mem.mp hdoomed)
  obtain ⟨hql, hprunable⟩ := prunable_of_doomed hq
  obtain rfl : q = x := Option.some.inj ((runRow_of_mem hql).symm.trans (hid ▸ runRow_of_mem hx))
  exact hL.approvedAt_of_prunable hx hprunable

theorem reaches_plan {r : Run} (new : r.New L) (h : L.plan D r principal = .ok L') :
    L.Reaches D L' := by
  unfold plan at h
  split at h
  · cases h
  · next own hown =>
    obtain rfl := Except.ok.inj h
    exact (Statement.inserts new).reaches.trans reaches_pruneUnapproved

theorem new_dryRun [DecidableEq V] {p : DryRun V} (fresh : L.runRow p.id = none) :
    (dryRun D p).New L where
  fresh := fresh
  approved := rfl
  unapproved := by
    simp only [Run.unapproved, dryRun]
    split <;> simp
  halted := by
    simp only [dryRun]
    split <;> simp
  cap := rfl
  untouched := by
    intro t ht
    obtain ⟨i, hi, rfl⟩ := List.mem_mapIdx.mp ht
    unfold plannedRow
    split <;> exact ⟨rfl, rfl, rfl, rfl, rfl⟩
  planned := by
    intro _ t ht hchange
    obtain ⟨i, hi, rfl⟩ := List.mem_mapIdx.mp ht
    unfold plannedRow at hchange ⊢
    split
    · next heq => simp [heq, invalidTarget] at hchange
    · rfl
  complete := by
    intro hphase
    have hjudge : p.judge = none := by
      by_contra hsome
      simp [dryRun, Option.isSome_iff_ne_none.mpr hsome] at hphase
    refine ⟨fun t ht hchange => ?_, by simp [dryRun]⟩
    obtain ⟨i, hi, rfl⟩ := List.mem_mapIdx.mp ht
    unfold plannedRow at hchange ⊢
    split
    · next heq => simp [heq, invalidTarget] at hchange
    · simp [dryRun, hjudge]
  source := by simp [dryRun]

theorem new_externalRun {p : ExternalPlan V} (fresh : L.runRow p.id = none) :
    (externalRun D p).New L where
  fresh := fresh
  approved := rfl
  unapproved := by
    simp only [Run.unapproved, externalRun]
    split <;> simp
  halted := by
    simp only [externalRun]
    split <;> simp
  cap := rfl
  untouched := by
    intro t ht
    obtain ⟨i, hi, rfl⟩ := List.mem_mapIdx.mp ht
    unfold externalRow
    split <;> exact ⟨rfl, rfl, rfl, rfl, rfl⟩
  planned := by
    intro _ t ht hchange
    obtain ⟨i, hi, rfl⟩ := List.mem_mapIdx.mp ht
    unfold externalRow at hchange ⊢
    split
    · next heq => simp [heq, invalidTarget] at hchange
    · rfl
  complete := by
    intro hphase
    -- previewed at once only when no target is valid
    have hinvalid : ∀ t ∈ p.targets, t.2.isOk = false := by
      simpa [externalRun] using hphase
    refine ⟨fun t ht hchange => ?_, by simp [externalRun]⟩
    obtain ⟨i, hi, rfl⟩ := List.mem_mapIdx.mp ht
    unfold externalRow at hchange
    split at hchange
    · simp [invalidTarget] at hchange
    · next heq =>
      have := hinvalid _ (List.getElem_mem hi)
      simp [heq, Except.isOk, Except.toBool] at this
  source := by simp [externalRun]

theorem new_listRun {p : ListPlan} (fresh : L.runRow p.id = none) : (listRun D p).New L where
  fresh := fresh
  approved := rfl
  unapproved := rfl
  halted := by simp [listRun]
  cap := rfl
  untouched := by simp [Run.Untouched, listRun]
  planned := by simp [listRun]
  complete := by simp [listRun]
  source := by simp [listRun]

theorem reaches_haltDeadReads (dead : String → Bool) : L.Reaches D (L.haltDeadReads dead) := by
  refine reaches_mapRuns fun _ x _ => ?_
  simp only [RunEdit.under]
  split
  · exact .halts rfl rfl rfl rfl rfl rfl ⟨.unavailable, rfl, rfl⟩
  · exact .refl x

theorem reaches_freeDeadReads (dead : String → Bool) (onlyRunId : Option String) :
    L.Reaches D (L.freeDeadReads dead onlyRunId) :=
  reaches_haltDeadReads _

theorem runRow_haltDeadReads_none {id : String} {dead : String → Bool} (h : L.runRow id = none) :
    (L.haltDeadReads dead).runRow id = none := by
  rw [haltDeadReads, runRow_mapRuns, h]
  rfl

/-- A refused external planning leaves at most halts. -/
theorem reaches_afterExternal {out : Except PlanRefusal Ledger} (dead : String → Bool)
    (h : ∀ L', out = .ok L' → L.Reaches D L') : L.Reaches D (L.afterExternal dead out) := by
  unfold afterExternal
  split
  · next L' => exact h L' rfl
  · exact reaches_haltDeadReads dead
  · exact .refl L

theorem reaches_orElse {ε : Type} {out : Except ε Ledger} (h : ∀ L', out = .ok L' → L.Reaches D L') :
    L.Reaches D (L.orElse out) := by
  unfold orElse
  split
  · next L' => exact h L' rfl
  · exact .refl L

theorem reaches_recordDryRun [DecidableEq V] {p : DryRun V} (fresh : L.runRow p.id = none)
    (h : L.recordDryRun D p = .ok L') : L.Reaches D L' := by
  unfold recordDryRun at h
  split_ifs at h
  exact reaches_plan (new_dryRun fresh) h

theorem reaches_recordExternalPlan {p : ExternalPlan V} {dead : String → Bool}
    (fresh : L.runRow p.id = none) (h : L.recordExternalPlan D dead p = .ok L') :
    L.Reaches D L' := by
  unfold recordExternalPlan at h
  dsimp only at h
  split_ifs at h
  exact (reaches_haltDeadReads dead).trans
    (reaches_plan (new_externalRun (runRow_haltDeadReads_none fresh)) h)

theorem reaches_recordExternalListPlan {p : ListPlan} {dead : String → Bool}
    (fresh : L.runRow p.id = none) (h : L.recordExternalListPlan D dead p = .ok L') :
    L.Reaches D L' := by
  unfold recordExternalListPlan at h
  dsimp only at h
  split_ifs at h
  exact (reaches_haltDeadReads dead).trans
    (reaches_plan (new_listRun (runRow_haltDeadReads_none fresh)) h)

/-! ## Lists -/

variable {runId : String} {seq : ℕ}

theorem reaches_takeListCall (limit : ℤ) : L.Reaches D (L.takeListCall runId limit) := by
  refine reaches_editRun fun _ x _ => ?_
  simp only [RunEdit.under]
  split
  · exact .notes rfl rfl rfl rfl rfl
  · exact .refl x

theorem prepared_listedRow (afterText : String) (seq : ℕ) (t : String × Option InvalidReason) :
    (listedRow afterText seq t).Prepared := by
  unfold listedRow
  split
  · exact ⟨⟨rfl, rfl, rfl, rfl, rfl⟩, fun h => absurd rfl h⟩
  · exact ⟨⟨rfl, rfl, rfl, rfl, rfl⟩, fun _ => rfl⟩

theorem mem_appendTargets {x : Run} {rows : List Target} {t : Target}
    (h : t ∈ (x.appendTargets rows).targets) : t ∈ x.targets ∨ t ∈ rows := by
  unfold Run.appendTargets at h
  split at h
  · exact List.mem_append.mp h
  · exact .inl h

theorem appendTargets_columns (x : Run) (rows : List Target) :
    (x.appendTargets rows).frame = x.frame ∧ (x.appendTargets rows).terms = x.terms ∧
      (x.appendTargets rows).stage = x.stage := by
  unfold Run.appendTargets
  split <;> exact ⟨rfl, rfl, rfl⟩

theorem reaches_recordListPage (p : ListPage) : L.Reaches D (L.recordListPage D runId p) := by
  unfold recordListPage
  split
  · exact .refl L
  · next r hr =>
    split
    · exact .refl L
    · next source hsource =>
      dsimp only
      split
      · exact .refl L
      · next hguard =>
        simp only [Bool.or_eq_true, not_or, Bool.not_eq_true'] at hguard
        refine reaches_editRun fun _ x hx => ?_
        obtain rfl : r = x := Option.some.inj (hr.symm.trans hx)
        have hplanned := (Run.planned_of_readingList (by simpa using hguard.1.1.1)).1
        obtain ⟨hframe, hterms, hstage⟩ := appendTargets_columns r _
        refine .prepares hplanned hframe hterms hstage fun hprepared t ht => ?_
        rcases mem_appendTargets ht with ht | ht
        · exact hprepared t ht
        · obtain ⟨i, hi, rfl⟩ := List.mem_mapIdx.mp ht
          exact prepared_listedRow ..

/-- A list with no usable target leaves a prepared run with invalid targets only. -/
theorem invalid_of_no_keys {x : Run} (hprepared : ∀ t ∈ x.targets, t.Prepared)
    (h : (((rowPairs D x).filter fun p => p.2.isSome).map Prod.fst).isEmpty = true) :
    ∀ t ∈ x.targets, t.change = .invalid := by
  intro t ht
  by_contra hchange
  have hnone : ∀ p ∈ rowPairs D x, ¬p.2.isSome = true := by
    simpa [List.filter_eq_nil_iff] using h
  have hafter := (hprepared t ht).after hchange
  refine hnone _ (List.mem_map_of_mem ht) ?_
  simpa [hchange] using hafter

theorem reaches_finishList (mint : List String → String) :
    L.Reaches D (L.finishList D runId mint) := by
  unfold finishList
  split
  · exact .refl L
  · next r hr =>
    split
    · exact .refl L
    · next host hhost =>
      dsimp only
      split
      · exact .refl L
      · next hguard =>
        have hplanned := (Run.planned_of_readingList (by simpa using hguard)).1
        refine reaches_editRun fun _ x hx => ?_
        obtain rfl : r = x := Option.some.inj (hr.symm.trans hx)
        by_cases hkeys : ((((rowPairs D r).filter fun p => p.2.isSome).map Prod.fst).isEmpty) = true
        · refine .previews hplanned rfl rfl rfl rfl (by simp [hkeys]) (by simp) rfl
            fun hprepared t ht hchange => ?_
          exact absurd (invalid_of_no_keys hprepared hkeys t ht) hchange
        · exact .lists hplanned rfl rfl rfl rfl (by simp [hkeys]) (by simp [hkeys]) rfl

/-! ## Ended planners -/

theorem reaches_endPlannedRun : L.Reaches D (L.endPlannedRun runId) := by
  refine reaches_editRun fun _ x _ => ?_
  simp only [RunEdit.under]
  split
  · next h => exact .ends h rfl rfl rfl rfl
  · exact .refl x

theorem reaches_expireEndedPlanners (own : BulkOwnership) :
    L.Reaches D (L.expireEndedPlanners own) := by
  refine reaches_mapRuns fun _ x _ => ?_
  simp only [RunEdit.under]
  split
  · next h =>
    simp only [Bool.and_eq_true] at h
    exact .ends h.1.1 rfl rfl rfl rfl
  · exact .refl x

theorem reaches_endIfPlannerEnded (own : BulkOwnership) :
    L.Reaches D (L.endIfPlannerEnded runId own) := by
  unfold endIfPlannerEnded
  split
  · exact .refl L
  · split
    · exact reaches_endPlannedRun
    · exact .refl L

/-! ## Previews -/

/-- An edit of a target of a planned run, under its guard. -/
theorem reaches_updateTarget {run : Run → Bool} {guard : Target → Bool} {e : TargetEdit}
    (hrun : ∀ x, run x = true → x.phase = .planned)
    (he : ∀ t, t.Prepared → (e.apply t).Prepared) :
    L.Reaches D (L.updateTarget runId seq run guard e).2 := by
  refine reaches_updateRun fun _ x _ hguard => ?_
  simp only [Bool.and_eq_true] at hguard
  exact .prepares_editTarget (hrun x hguard.1) fun t ht => ht.under (he t ht)

theorem prepared_ruledOut {t : Target} (ht : t.Prepared) (reason : InvalidReason)
    (linkDomain : Option String) :
    ((TargetEdit.ruledOut reason linkDomain).apply t).Prepared :=
  ht.of_traces rfl fun h => absurd rfl h

theorem prepared_imaged {t : Target} (ht : t.Prepared) (image after : String) (change : Change)
    (context : Option String) (via : Option AttachedConnection) :
    ((TargetEdit.imaged image after change context via).apply t).Prepared :=
  ht.of_traces rfl fun _ => rfl

theorem prepared_readFailed {t : Target} (ht : t.Prepared) :
    (TargetEdit.readFailed.apply t).Prepared := by
  simp only [TargetEdit.readFailed]
  split
  · exact ht.of_traces rfl ht.after
  · exact ht.of_traces rfl fun h => absurd rfl h

theorem reaches_recordRead [DecidableEq V] (read : TargetRead V) :
    L.Reaches D (L.recordRead D runId seq read).2 := by
  unfold recordRead
  split
  · exact reaches_updateTarget (fun _ => Run.planned_of_previewing)
      fun _ ht => prepared_ruledOut ht ..
  · split
    · refine reaches_updateRun fun _ x _ hguard => ?_
      simp only [Bool.and_eq_true] at hguard
      refine .prepares (Run.planned_of_previewing hguard.1) rfl rfl rfl fun hprepared t ht => ?_
      rcases Run.mem_editTarget.mp ht with ⟨u, hu, rfl⟩ | ⟨ht, -⟩
      · have hu' := hprepared u (Run.mem_of_target? hu)
        exact hu'.under (prepared_imaged hu' ..)
      · exact hprepared t ht
    · exact .refl L

theorem reaches_recordReadFailure : L.Reaches D (L.recordReadFailure runId seq).2 := by
  unfold recordReadFailure
  dsimp only
  split
  · exact reaches_updateTarget (fun _ => Run.planned_of_previewing) fun _ => prepared_readFailed
  · exact .refl L

theorem reaches_haltPreview {reason : HaltReason} (hreason : reason.endsUnapproved = false) :
    L.Reaches D (L.haltPreview runId reason) :=
  reaches_updateRun fun _ _ _ _ => .halts rfl rfl rfl rfl rfl rfl ⟨reason, rfl, hreason⟩

theorem reaches_halt {reason : HaltReason} (hreason : reason.endsUnapproved = false) :
    L.Reaches D (L.halt runId reason) :=
  reaches_editRun fun _ _ _ => .halts rfl rfl rfl rfl rfl rfl ⟨reason, rfl, hreason⟩

theorem reaches_finishPreview : L.Reaches D (L.finishPreview runId).2 := by
  refine reaches_updateRun fun _ x _ hguard => ?_
  simp only [Bool.and_eq_true, Bool.not_eq_true', decide_eq_true_eq,
    Option.isNone_iff_eq_none] at hguard
  obtain ⟨⟨⟨hread, hpreviewing⟩, hlist⟩, hjudge⟩ := hguard
  refine .previews (Run.planned_of_previewing hpreviewing) rfl rfl rfl rfl rfl hlist rfl
    fun _ t ht hchange => ⟨?_, by simp [hjudge]⟩
  have hbefore : t.before ≠ none := by
    simpa [Target.unread, hchange] using List.any_eq_false.mp hread t ht
  exact Option.isSome_iff_ne_none.mpr hbefore

theorem reaches_supersede : L.Reaches D (L.supersede runId) := by
  refine reaches_editRun fun _ x _ => ?_
  simp only [RunEdit.under]
  split
  · next h => exact .ends h rfl rfl rfl rfl
  · exact .refl x

/-! ## Starts -/

theorem start_started {x : Run} {p : StartParams} {setDomains : Bool}
    {startList : Option (List String)} {judging : Bool} (hjudging : judging = true →
      x.judging = true) (hplanned : x.phase = .planned) :
    x.Start ((RunEdit.started D p judging setDomains startList).apply x) where
  frame := rfl
  source := rfl
  approved := rfl
  targets := rfl
  list := rfl
  planned := hplanned
  phase := hplanned
  cap := by
    simp only [RunEdit.started]
    split
    · exact fun _ => .inr (hjudging ‹_›)
    · exact .inl

/-- The start itself, once no other run reads and no other judged run is started. -/
theorem reaches_started {x : Run} {p : StartParams} {setDomains : Bool}
    {startList : Option (List String)} (row : L.runRow x.id = some x)
    (reader : (externalHostOf x.targetSystem).isSome = true → ∀ y ∈ L.runs, y.reading = true →
      y.id = x.id)
    (judge : x.judging = true → ∀ y ∈ L.runs, y.holdsJudge = true → y.id = x.id) :
    L.Reaches D (L.editRun x.id <|
      RunEdit.under (fun r => r.phase = .planned && r.haltReason.isSome)
        (.started D p x.judging setDomains startList)) := by
  by_cases hguard : (decide (x.phase = .planned) && x.haltReason.isSome) = true
  · have hplanned : x.phase = .planned := by
      simp only [Bool.and_eq_true, decide_eq_true_eq] at hguard
      exact hguard.1
    refine (Statement.starts _ row ?_ reader judge).reaches
    simp only [RunEdit.under, hguard, if_true]
    exact start_started (fun h => h) hplanned
  · refine reaches_editRun fun _ y hy => ?_
    obtain rfl : x = y := Option.some.inj (row.symm.trans hy)
    simp only [RunEdit.under, hguard]
    exact .refl x

/-- A halted run is left as it is. -/
theorem runRow_haltDeadReads {id : String} {x : Run} (dead : String → Bool)
    (row : L.runRow id = some x) (h : x.reading = false) :
    (L.haltDeadReads dead).runRow id = some x := by
  rw [haltDeadReads, runRow_mapRuns, row, Option.map_some, RunEdit.under]
  simp [h]

theorem startedJudged_cases (D : Deps V) (runId : String) :
    (∀ other, L.startedJudged D runId = some other →
      other ∈ L.runs ∧ other.holdsJudge = true ∧ other.id ≠ runId) ∧
    (L.startedJudged D runId = none → ∀ y ∈ L.runs, y.holdsJudge = true → y.id = runId) := by
  have hmem {y : Run} : y ∈ byAge D
      (L.runs.filter fun r => r.judgeStarted && r.unapproved && r.id ≠ runId) ↔
      y ∈ L.runs ∧ y.holdsJudge = true ∧ y.id ≠ runId := by
    rw [byAge, (List.perm_insertionSort ..).mem_iff, List.mem_filter, Run.holdsJudge]
    simp [and_assoc]
  constructor
  · intro other h
    exact hmem.mp (List.mem_of_mem_head? h)
  · intro h y hy hj
    by_contra hne
    have := hmem.mpr ⟨hy, hj, hne⟩
    rw [List.head?_eq_none_iff.mp h] at this
    cases this

/-- Once the other started judge is ended, none is left. -/
theorem holdsJudge_supersede {other : Run} (hL : L.Staged) (hother : other ∈ L.runs)
    (hj : other.holdsJudge = true) : ∀ y ∈ (L.supersede other.id).runs, ¬y.holdsJudge = true := by
  intro y hy hyj
  obtain ⟨q, hq, rfl⟩ := mem_mapRuns.mp hy
  by_cases hid : q.id = other.id
  · obtain rfl : q = other := Option.some.inj
      ((runRow_of_mem hq).symm.trans (hid ▸ runRow_of_mem hother))
    have hunapproved : q.unapproved = true := by
      simp only [Run.holdsJudge, Bool.and_eq_true] at hj
      exact hj.2
    simp only [RunEdit.under, decide_true, hunapproved, if_true] at hyj
    simp [Run.holdsJudge, Run.unapproved] at hyj
  · simp only [RunEdit.under, hid, decide_false] at hyj
    exact hid (hL.judge q hq other hother hyj hj)

theorem reading_supersede {id : String} : ∀ y ∈ (L.supersede id).runs, y.reading = true →
    ∃ q ∈ L.runs, q.reading = true ∧ q.id = y.id := by
  intro y hy hr
  obtain ⟨q, hq, rfl⟩ := mem_mapRuns.mp hy
  refine ⟨q, hq, ?_, (RunEdit.keeps _ q).symm⟩
  simp only [RunEdit.under] at hr
  split at hr
  · split at hr
    · simp [Run.reading] at hr
    · exact hr
  · exact hr

theorem reaches_start {dead : String → Bool} {run : Run} {p : StartParams}
    (row : L.runRow run.id = some run) (hhalted : run.haltReason.isSome = true) :
    L.Reaches D (L.start D dead run p).2 := by
  have hnot : run.reading = false := by
    simp [Run.reading, Option.isSome_iff_ne_none.mp hhalted]
  have hrow := runRow_haltDeadReads dead row hnot
  have hhalts := reaches_haltDeadReads (D := D) (L := L) dead
  unfold start
  dsimp only
  split
  · exact .refl L
  split
  · exact hhalts
  next hbusy =>
  have hreader : (externalHostOf run.targetSystem).isSome = true →
      ∀ y ∈ (L.haltDeadReads dead).runs, y.reading = true → y.id = run.id := by
    intro hext y hy hr
    by_contra hne
    exact hbusy (by simpa [hext] using ⟨y, hy, hr, hne⟩)
  obtain ⟨hsome, hnone⟩ := startedJudged_cases (L := L.haltDeadReads dead) D run.id
  split
  · next hother =>
    refine hhalts.trans (reaches_started hrow hreader fun hjudging => ?_)
    simp only [hjudging, if_true] at hother
    exact hnone hother
  · next other hother =>
    split
    · exact hhalts
    · have hjudging : run.judging = true := by
        by_contra hfalse
        simp [hfalse] at hother
      simp only [hjudging, if_true] at hother
      obtain ⟨hmem, hj, hne⟩ := hsome other hother
      refine hhalts.trans fun hL => reaches_supersede.trans (reaches_started ?_ ?_ ?_) hL
      · rw [supersede, runRow_editRun_ne (Ne.symm hne)]
        exact hrow
      · intro hext y hy hr
        obtain ⟨q, hq, hqr, hid⟩ := reading_supersede y hy hr
        exact hid ▸ hreader hext q hq hqr
      · exact fun _ y hy hyj => absurd hyj (holdsJudge_supersede hL hmem hj y hy)

theorem halted_of_startRefusal {run : Run} {p : StartParams} (h : startRefusal D run p = none) :
    run.haltReason.isSome = true := by
  unfold startRefusal at h
  dsimp only at h
  split_ifs at h with hphase
  all_goals
    simp only [Bool.or_eq_true, not_or, Option.isNone_iff_eq_none] at hphase
    exact Option.isSome_iff_ne_none.mpr hphase.2

theorem reaches_resumePreview {dead deadThen : String → Bool} {p : StartParams} :
    L.Reaches D (L.resumePreview D dead deadThen runId p).2 := by
  have hfree := reaches_freeDeadReads (D := D) (L := L) dead (some runId)
  unfold resumePreview
  dsimp only
  split
  · exact hfree
  · next run hrun =>
    split
    · exact hfree
    · next hrefusal =>
      have hid := id_of_runRow hrun
      exact hfree.trans (reaches_start (hid ▸ hrun) (halted_of_startRefusal hrefusal))

/-! ## The judge -/

theorem reaches_claimJudge (token : String) (now staleMs : Time) :
    L.Reaches D (L.claimJudge D runId seq token now staleMs).2 :=
  reaches_updateTarget (fun _ => Run.planned_of_previewing) fun _ ht => ht.of_traces rfl ht.after

theorem reaches_releaseJudgeClaim (token : String) :
    L.Reaches D (L.releaseJudgeClaim runId seq token) :=
  reaches_editRun fun _ _ _ => .notes_editTarget
    (fun _ _ => TargetEdit.under_keeps (f := Target.decided) rfl)
    fun _ _ => TargetEdit.under_keeps (f := Target.traces) rfl

theorem reaches_addJudgeCost (usd : ℚ) : L.Reaches D (L.addJudgeCost runId usd) := by
  unfold addJudgeCost
  split
  · exact .refl L
  · exact reaches_editRun fun _ _ _ => .notes rfl rfl rfl rfl rfl

theorem reaches_settleJudgeCost (provisionalUsd usd : ℚ) :
    L.Reaches D (L.settleJudgeCost runId provisionalUsd usd) := by
  unfold settleJudgeCost
  split
  · exact .refl L
  · exact reaches_editRun fun _ _ _ => .notes rfl rfl rfl rfl rfl

theorem reaches_recordJudgement [DecidableEq V] (token : String) (verdict : Verdict V)
    (now : Time) : L.Reaches D (L.recordJudgement D runId seq token verdict now).2 := by
  unfold recordJudgement
  dsimp only
  split
  · exact reaches_updateTarget (fun _ => of_decide_eq_true) fun _ ht =>
      ht.of_traces rfl fun h => absurd rfl h
  · split
    · exact reaches_updateTarget (fun _ => of_decide_eq_true) fun _ ht =>
        ht.of_traces rfl fun _ => rfl
    · exact .refl L

theorem reaches_finishJudge : L.Reaches D (L.finishJudge D runId).2 := by
  refine reaches_updateRun fun _ x _ hguard => ?_
  simp only [Bool.and_eq_true, Bool.not_eq_true', decide_eq_true_eq] at hguard
  obtain ⟨⟨⟨hpreviewing, -⟩, hlist⟩, hopen⟩ := hguard
  refine .previews (Run.planned_of_previewing hpreviewing) rfl rfl rfl rfl rfl hlist rfl
    fun _ t ht hchange => ?_
  have hsettled : t.before ≠ none ∧ t.judgedAt ≠ none := by
    simpa [hchange] using List.any_eq_false.mp hopen t ht
  exact ⟨Option.isSome_iff_ne_none.mpr hsettled.1, fun _ => Option.isSome_iff_ne_none.mpr hsettled.2⟩

theorem Staged.approvedAt_of_unapprovedJudged {x : Run} (h : L.Staged) (hx : x ∈ L.runs)
    (hp : x.unapprovedJudged = true) : x.approvedAt = none := by
  simp only [Run.unapprovedJudged, Bool.or_eq_true, Bool.and_eq_true, decide_eq_true_eq] at hp
  rcases hp with hp | ⟨hphase, hhalt⟩
  · exact (h.runs x hx).approvedAt_eq_none hp
  · refine (h.runs x hx).ended hphase ?_
    rcases hhalt with hhalt | hhalt <;> simp [hhalt, HaltReason.endsUnapproved]

theorem reaches_expireStaleJudgedRuns (now maxAgeMs : Time) :
    L.Reaches D (L.expireStaleJudgedRuns D now maxAgeMs) := by
  refine fun hL => .single (.deletes _ fun x hx hdoomed => ?_)
  simp only [Bool.and_eq_true] at hdoomed
  exact hL.approvedAt_of_unapprovedJudged hx hdoomed.1.2

/-! ## The owner's routes -/

theorem openInFamily_of_writeBlocked {x : Run} (h : L.writeBlocked x = none) :
    L.openInFamily x.id (some x.id) = none := by
  unfold writeBlocked at h
  split at h
  · cases h
  · next hnone => exact hnone

theorem reaches_setSelected {selected : Bool} {checksum : String} {now : Time}
    (h : L.setSelected D runId seq selected checksum now = .ok L') : L.Reaches D L' := by
  obtain ⟨run, hrun, hphase, -, rfl⟩ := setSelected_ok h
  refine reaches_editRun fun _ x hx => ?_
  obtain rfl : run = x := Option.some.inj (hrun.symm.trans hx)
  refine .selects hphase rfl rfl rfl ⟨_, rfl, fun t => ?_⟩
  simp only [TargetEdit.selected, TargetEdit.under]
  split
  · split <;> exact ⟨rfl, rfl, rfl, rfl⟩
  · exact ⟨rfl, rfl, rfl, rfl⟩

theorem reaches_approve {p : ApproveParams} (h : L.approve D runId p = .ok L') :
    L.Reaches D L' := by
  obtain ⟨run, hrun, hphase, hchecksum, -, hblocked, rfl⟩ := approve_ok h
  obtain rfl := id_of_runRow hrun
  refine (Statement.opens _ hrun ?_ (openInFamily_of_writeBlocked hblocked)).reaches
  rw [computeChecksum, hrun] at hchecksum
  exact ⟨rfl, rfl, rfl, rfl, rfl, rfl, rfl, rfl, .inl hphase, .inl hchecksum, rfl, .inl rfl⟩

theorem reaches_resume {p : ResumeParams} (h : L.resume D runId p = .ok L') : L.Reaches D L' := by
  intro hL
  obtain ⟨run, hrun, hphase, -, hblocked, rfl⟩ := resume_ok h
  obtain rfl := id_of_runRow hrun
  have happroved : run.approvedAt.isSome = true := by
    refine (hL.runs run (mem_of_runRow hrun)).reached ?_ ?_
    · rcases hphase with hphase | hphase <;> simp [Run.unapproved, hphase]
    · rcases hphase with hphase | hphase <;> simp [hphase]
  refine .single (.opens _ hrun ?_ (openInFamily_of_writeBlocked hblocked))
  exact ⟨rfl, rfl, rfl, rfl, rfl,
    Run.map_mapTargets fun _ _ => TargetEdit.under_keeps (f := Target.decided) rfl,
    Run.map_mapTargets fun _ _ => TargetEdit.under_keeps (f := Target.traces) rfl, rfl, .inr hphase,
    .inr ⟨happroved, rfl⟩, happroved, hphase⟩

theorem reaches_confirmProbe (confirmedBy : Option String) (now : Time) :
    L.Reaches D (L.confirmProbe D runId confirmedBy now) := by
  unfold confirmProbe
  split
  · exact .refl L
  · split
    · exact .refl L
    · exact (Statement.files _).reaches

theorem new_undoRun {src : Run} {id : String} {createdAt : Time} {createdBy : Option String}
    (hL : L.Staged) (hsrc : L.runRow runId = some src) (hu : L.undoTargets D src ≠ [])
    (fresh : L.runRow id = none) : (L.undoRun D src id createdAt createdBy).New L where
  fresh := fresh
  approved := rfl
  unapproved := rfl
  halted := by simp [undoRun]
  cap := rfl
  untouched := undoRun_untouched src id createdAt createdBy
  planned := by simp [undoRun]
  complete := by
    refine fun _ => ⟨fun t ht hchange => ?_, by simp [undoRun]⟩
    obtain ⟨i, hi, rfl⟩ := List.mem_mapIdx.mp ht
    unfold undoRow at hchange ⊢
    split
    · next htainted => simp [htainted, invalidTarget] at hchange
    · exact ⟨rfl, by simp [undoRun]⟩
  source := by
    rintro s ⟨⟩
    refine ⟨src, id_of_runRow hsrc ▸ hsrc, ?_⟩
    by_contra hnone
    have huntouched := (hL.runs src (mem_of_runRow hsrc)).untouched (by simpa using hnone)
    refine hu (List.map_eq_nil_iff.mpr (List.reverse_eq_nil_iff.mpr
      (List.filter_eq_nil_iff.mpr fun t ht => ?_)))
    simp [Target.undoEligible, (huntouched t ht).applied, (huntouched t ht).sent]

theorem reaches_planUndo {id : String} {createdAt : Time} {createdBy : Option String}
    (fresh : L.runRow id = none) (h : L.planUndo D runId id createdAt createdBy = .ok L') :
    L.Reaches D L' := by
  intro hL
  obtain ⟨src, hsrc, -, -, -, hu, rfl⟩ := planUndo_ok h
  exact ((Statement.inserts (new_undoRun hL hsrc hu fresh)).reaches.trans
    reaches_pruneUnapproved) hL

/-! ## The effect -/

theorem reaches_claimTarget (now : Time) : L.Reaches D (L.claimTarget D runId seq now).2 :=
  reaches_editRun fun _ _ _ => .notes_editTarget
    (fun _ _ => TargetEdit.under_keeps (f := Target.decided) rfl)
    fun _ _ => TargetEdit.under_keeps (f := Target.traces) rfl

/-- Marks on a target of an approved run. -/
theorem reaches_records {x : Run} {e : TargetEdit} (row : L.runRow runId = some x)
    (approved : x.approvedAt.isSome = true) (he : ∀ t, (e.apply t).decided = t.decided)
    (hm : ∀ t, t.Marked → (e.apply t).Marked) : L.Reaches D (L.editTarget runId seq e) := by
  refine reaches_editRun fun _ y hy => ?_
  obtain rfl : x = y := Option.some.inj (row.symm.trans hy)
  exact .records_editTarget approved (fun t _ => he t) hm

/-- An undo's mark on its source, which was approved. -/
theorem reaches_markSource {x run : Run} {undoneAt : Option Time} (row : L.runRow run.id = some x)
    (hsource : run.sourceRunId = x.sourceRunId) : L.Reaches D (L.markSource run seq undoneAt) := by
  intro hL
  unfold markSource
  split
  · next source s _ hs _ =>
    obtain ⟨-, y, hy, happroved⟩ := hL.source x (mem_of_runRow row) source (hsource ▸ hs)
    exact reaches_records hy happroved (fun _ => rfl) (fun _ ht => ht) hL
  · exact .refl

theorem row_editRun {x : Run} {e : RunEdit} (row : L.runRow runId = some x) :
    (L.editRun runId e).runRow runId = some (e.apply x) := by
  rw [runRow_editRun_self, row]
  rfl

theorem reaches_recordApplied {x run : Run} {result : String} {now : Time}
    {actual : Option (ActualImage V)} {via : Option AttachedConnection}
    {shopAddedMarkup hostRewrote : Bool} (row : L.runRow run.id = some x)
    (approved : x.approvedAt.isSome = true) (hsource : run.sourceRunId = x.sourceRunId) :
    L.Reaches D (L.recordApplied D run seq result now actual via shopAddedMarkup hostRewrote) := by
  have hown : L.Reaches D (L.editRun run.id
      { apply := Run.recordApplied D seq result now actual via shopAddedMarkup hostRewrote
        keeps := fun r => r.recordApplied_id D }) := by
    refine reaches_editRun fun _ y hy => ?_
    obtain rfl : x = y := Option.some.inj (row.symm.trans hy)
    dsimp only [Run.recordApplied]
    split
    · exact .records approved rfl rfl rfl (Run.map_editTarget (r := x.noteFirst via) fun _ _ => rfl)
        fun h => Run.Marked.editTarget (x := x.noteFirst via) h fun _ ht => ht
    · exact .refl x
  unfold recordApplied
  dsimp only
  split
  · refine hown.trans (reaches_markSource (row_editRun row) ?_)
    rw [hsource]
    dsimp only [Run.recordApplied]
    split <;> rfl
  · exact hown

theorem reaches_recordFailed {x : Run} {error : TargetError} {via : Option AttachedConnection}
    (row : L.runRow runId = some x) (approved : x.approvedAt.isSome = true) :
    L.Reaches D (L.recordFailed runId seq error via) := by
  refine reaches_editRun fun _ y hy => ?_
  obtain rfl : x = y := Option.some.inj (row.symm.trans hy)
  dsimp only [Run.recordFailed]
  split
  · exact .records approved rfl rfl rfl (Run.map_editTarget (r := x.noteFirst via) fun _ _ => rfl)
      fun h => Run.Marked.editTarget (x := x.noteFirst via) h fun _ ht => ht
  · exact .refl x

theorem reaches_markSent {x : Run} {via : Option AttachedConnection}
    (row : L.runRow runId = some x) (approved : x.approvedAt.isSome = true) :
    L.Reaches D (L.markSent runId seq via) := by
  refine reaches_editRun fun _ y hy => ?_
  obtain rfl : x = y := Option.some.inj (row.symm.trans hy)
  exact .records approved rfl rfl rfl (Run.map_editTarget (r := x.noteFirst via) fun _ _ => rfl)
    fun h => Run.Marked.editTarget (x := x.noteFirst via) h fun _ _ _ => rfl

/-- The moves of the phase by the effect. A run in a phase they start from was approved. -/
theorem reaches_setPhase {source target : Phase} {reason : Option HaltReason}
    (hmove : source = .approved ∧ target = .writing ∧ reason = none ∨
      source = .writing ∧ target = .done ∨ source = .writing ∧ target = .aborted ∧
        reason.any HaltReason.endsUnapproved = false ∧ reason.isSome = true) :
    L.Reaches D (L.setPhase runId [source] target reason) := by
  refine reaches_editRun fun hL x hx => ?_
  dsimp only [Run.setPhase]
  split
  · next hin =>
    have hphase : x.phase = source := by simpa using hin
    have approved : x.approvedAt.isSome = true := by
      refine (hL.runs x (mem_of_runRow hx)).reached ?_ ?_
      · rcases hmove with ⟨rfl, -⟩ | ⟨rfl, -⟩ | ⟨rfl, -⟩ <;> simp [Run.unapproved, hphase]
      · rcases hmove with ⟨rfl, -⟩ | ⟨rfl, -⟩ | ⟨rfl, -⟩ <;> simp [hphase]
    refine .turns approved rfl rfl rfl rfl ?_ ?_ fun hended habort => ?_
    · rcases hmove with ⟨-, rfl, -⟩ | ⟨-, rfl⟩ | ⟨-, rfl, -⟩ <;> rfl
    · rcases hmove with ⟨rfl, rfl, rfl⟩ | ⟨-, rfl⟩ | ⟨-, rfl, -⟩
      · simp [Run.mayWrite, hphase]
      · simp [Run.mayWrite]
      · simp [Run.mayWrite]
    · rcases hmove with ⟨-, rfl, -⟩ | ⟨-, rfl⟩ | ⟨-, rfl, hreason, hsome⟩
      · cases habort
      · cases habort
      · obtain ⟨r, rfl⟩ := Option.isSome_iff_exists.mp hsome
        simp only [Option.some_or, Option.any_some] at hended hreason
        rw [hreason] at hended
        cases hended
  · exact .refl x

theorem reaches_setUndone {x : Run} (row : L.runRow runId = some x)
    (approved : x.approvedAt.isSome = true) :
    L.Reaches D (L.editRun runId { apply := Run.setUndone, keeps := Run.setUndone_id }) := by
  refine reaches_editRun fun _ y hy => ?_
  obtain rfl : x = y := Option.some.inj (row.symm.trans hy)
  dsimp only [Run.setUndone]
  split
  · exact .turns approved rfl rfl rfl rfl rfl (by simp [Run.mayWrite]) fun _ h => by cases h
  · exact .refl x

theorem reaches_finish {x run : Run} (row : L.runRow run.id = some x)
    (hsource : run.sourceRunId = x.sourceRunId) : L.Reaches D (L.finish run) := by
  have hclosed : L.Reaches D (L.setPhase run.id [.writing] .done none) :=
    reaches_setPhase (.inr (.inl ⟨rfl, rfl⟩))
  have hrow : (L.setPhase run.id [.writing] .done none).runRow run.id =
      some (x.setPhase [.writing] .done none) :=
    row_editRun row
  have hlink : (x.setPhase [.writing] .done none).sourceRunId = x.sourceRunId := by
    unfold Run.setPhase
    split <;> rfl
  unfold finish
  dsimp only
  split
  · next source _ hs =>
    refine hclosed.trans fun hL => ?_
    obtain ⟨-, y, hy, hya⟩ := hL.source _ (mem_of_runRow hrow) source (by rw [hlink, ← hsource, hs])
    exact reaches_setUndone hy hya hL
  · exact hclosed

theorem reaches_effect {call : EffectCall V} {x : Run} (h : call.Fits L x) :
    L.Reaches D (call.perform D L) := by
  obtain ⟨row, approved, hkind, hsource, hreason⟩ := h
  cases call with
  | releaseClaim runId seq =>
    exact reaches_records row (approved rfl)
      (fun _ => TargetEdit.under_keeps (f := Target.decided) rfl) fun _ ht => ht.under fun h => h
  | markSent runId seq via => exact reaches_markSent row (approved rfl)
  | markRefused runId seq =>
    exact reaches_records row (approved rfl) (fun _ => rfl)
      fun t ht h => ht (lt_of_lt_of_le h (Nat.sub_le t.unknownSends 1))
  | recordApplied run seq result now actual via shopAddedMarkup hostRewrote =>
    exact reaches_recordApplied row (approved rfl) (hsource run rfl)
  | recordFailed runId seq error via => exact reaches_recordFailed row (approved rfl)
  | recordUnrecordedSettled runId seq now =>
    exact reaches_records row (approved rfl)
      (fun _ => TargetEdit.under_keeps (f := Target.decided) rfl) fun _ ht => ht.under fun h => h
  | recordRolledBack run seq now =>
    have hown : L.Reaches D (L.editTarget run.id seq (.rolledBack now)) :=
      reaches_records row (approved rfl)
        (fun _ => TargetEdit.under_keeps (f := Target.decided) rfl) fun _ ht => ht.under fun h => h
    exact hown.trans (reaches_markSource (row_editRun row) (hsource run rfl))
  | setWriting runId => exact reaches_setPhase (.inl ⟨rfl, rfl, rfl⟩)
  | setAborted runId reason =>
    exact reaches_setPhase (.inr (.inr ⟨rfl, rfl, by simpa using hreason reason rfl, rfl⟩))
  | halt runId reason => exact reaches_halt (hreason reason rfl)
  | finish run => exact reaches_finish row (hsource run rfl)

/-! ## Operations -/

/-- An allowed operation on a staged ledger is a sequence of statements. -/
theorem statements_step [DecidableEq V] {op : LedgerOp V} (hL : L.Staged) (h : op.Allowed L) :
    ReflTransGen (Statement D) L (L.step D op) := by
  suffices hreaches : L.Reaches D (L.step D op) from hreaches hL
  cases op with
  | recordDryRun p => exact reaches_orElse fun _ hok => reaches_recordDryRun h hok
  | recordExternalPlan dead p =>
    exact reaches_afterExternal dead fun _ hok => reaches_recordExternalPlan h hok
  | recordExternalListPlan dead p =>
    exact reaches_afterExternal dead fun _ hok => reaches_recordExternalListPlan h hok
  | takeListCall runId limit => exact reaches_takeListCall limit
  | returnListCall runId => exact reaches_editRun fun _ _ _ => .notes rfl rfl rfl rfl rfl
  | recordListPage runId p => exact reaches_recordListPage p
  | finishList runId mint => exact reaches_finishList mint
  | expireEndedPlanners own => exact reaches_expireEndedPlanners own
  | endIfPlannerEnded runId own => exact reaches_endIfPlannerEnded own
  | freeDeadReads dead onlyRunId => exact reaches_freeDeadReads dead onlyRunId
  | recordRead runId seq read => exact reaches_recordRead read
  | recordReadFailure runId seq => exact reaches_recordReadFailure
  | haltPreview runId reason => exact reaches_haltPreview h
  | halt runId reason => exact reaches_halt h
  | finishPreview runId => exact reaches_finishPreview
  | resumePreview dead deadThen runId p => exact reaches_resumePreview
  | claimJudge runId seq token now staleMs => exact reaches_claimJudge token now staleMs
  | releaseJudgeClaim runId seq token => exact reaches_releaseJudgeClaim token
  | addJudgeCost runId usd => exact reaches_addJudgeCost usd
  | settleJudgeCost runId provisionalUsd usd => exact reaches_settleJudgeCost provisionalUsd usd
  | recordJudgement runId seq token verdict now => exact reaches_recordJudgement token verdict now
  | finishJudge runId => exact reaches_finishJudge
  | expireStaleJudgedRuns now maxAgeMs => exact reaches_expireStaleJudgedRuns now maxAgeMs
  | setSelected runId seq selected checksum now =>
    exact reaches_orElse fun _ hok => reaches_setSelected hok
  | approve runId p => exact reaches_orElse fun _ hok => reaches_approve hok
  | resume runId p => exact reaches_orElse fun _ hok => reaches_resume hok
  | confirmProbe runId confirmedBy now => exact reaches_confirmProbe confirmedBy now
  | planUndo sourceRunId id createdAt createdBy =>
    exact reaches_orElse fun _ hok => reaches_planUndo h hok
  | claimTarget runId seq now => exact reaches_claimTarget now
  | effect call =>
    obtain ⟨x, hx⟩ := h
    exact reaches_effect hx

/-- What every statement on a staged ledger keeps, a run of operations keeps. -/
theorem invariant_afterOps [DecidableEq V] {I : Ledger → Prop}
    (hstatement : ∀ {L L' : Ledger}, L.Staged → I L → Statement D L L' → I L') (hI : I empty)
    {ops : List (LedgerOp V)}
    (hops : Run.Obeys (step D) LedgerOp.Allowed empty ops) :
    (afterOps D ops).Staged ∧ I (afterOps D ops) := by
  refine Run.invariant_of (I := fun L : Ledger => L.Staged ∧ I L) (fun L op hL hallowed => ?_)
    ⟨staged_empty, hI⟩ hops
  have hsteps := statements_step (D := D) hL.1 hallowed
  generalize hL' : L.step D op = L' at hsteps
  clear hL'
  induction hsteps with
  | refl => exact hL
  | tail _ hs ih => exact ⟨ih.1.statement hs, hstatement ih.1 ih.2 hs⟩

theorem staged_afterOps [DecidableEq V] {ops : List (LedgerOp V)}
    (hops : Run.Obeys (step D) LedgerOp.Allowed empty ops) : (afterOps D ops).Staged :=
  (invariant_afterOps (I := fun _ => True) (fun _ _ _ => trivial) trivial hops).1

end Ledger

end Lynox.Bulk
