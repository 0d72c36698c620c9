import Lynox.Bulk.Approval

/-!
# Well-formed ledgers

A run has started once it was approved; before that nothing was sent or recorded for any of
its targets. A ledger is well formed when this holds of every run and the links of its
families are in order : a source is in the ledger, has started, and was inserted before the
runs that take it back.

Every operation keeps a ledger well formed. An update keeps it when it keeps the links, leaves
no started run unstarted and touches no target of an unstarted one (`WellFormed.map`); a
new run keeps it when its source has started (`WellFormed.insertRun`); the runs a planning drops
have not started, so no run loses its source (`WellFormed.deleteRuns`).
-/

namespace Lynox.Bulk

variable {V : Type} {D : Deps V}

/-! ## Runs that have started -/

/-- The reasons an unapproved run is ended with. -/
def HaltReason.endsUnapproved : HaltReason → Bool
  | .superseded | .mandateEnded => true
  | _ => false

/-- A run that was approved : it has left its preview and was not ended before. -/
def Run.started (x : Run) : Bool :=
  match x.phase with
  | .planned | .previewed => false
  | .aborted => !x.haltReason.any HaltReason.endsUnapproved
  | .approved | .writing | .done | .undone => true

/-- What was planned, without what an approval or a resume sets. -/
def Run.fixed (x : Run) : RunPlan :=
  { x.plan with approvalChecksum := none, maxTargets := none }

theorem Run.fixed_of_plan {x x' : Run} (h : x'.plan = x.plan) : x'.fixed = x.fixed := by
  rw [fixed, fixed, h]

theorem Run.started_of_mayWrite {x : Run} (h : x.mayWrite = true) : x.started = true := by
  obtain ⟨hphase, -⟩ : (x.phase = .approved ∨ x.phase = .writing) ∧ x.haltReason = none := by
    simpa [mayWrite] using h
  rcases hphase with hphase | hphase <;> simp [started, hphase]

theorem Run.started_congr {x x' : Run} (h : x'.phase = x.phase)
    (hhalt : x'.haltReason = x.haltReason) : x'.started = x.started := by
  rw [started, started, h, hhalt]

theorem Run.started_setUndone {x : Run} (h : x.started = true) : x.setUndone.started = true := by
  unfold setUndone
  split
  · rfl
  · exact h

/-- Nothing was sent to the target or recorded for it. -/
structure Target.Untouched (t : Target) : Prop where
  applied : t.appliedAt = none
  undone : t.undoneAt = none
  sent : t.writeSent = false
  unknown : t.unknownSends = 0
  found : t.foundUnsent = false

def Run.Untouched (x : Run) : Prop :=
  ∀ t ∈ x.targets, t.Untouched

theorem Run.started_eq_false_of_prunable {x : Run} (h : x.prunable = true) : x.started = false := by
  simp only [prunable, Bool.and_eq_true, Bool.or_eq_true, decide_eq_true_eq] at h
  rcases h.2 with ⟨hphase | hphase, -⟩ | ⟨hphase, hhalt⟩
  · simp [started, hphase]
  · simp [started, hphase]
  · simp [started, hphase, hhalt, HaltReason.endsUnapproved]

/-! ## Well-formedness -/

/-- Dropping runs that are nobody's source leaves every other row as it was. -/
theorem Ledger.runs_deleteRuns_of {L : Ledger} {p : Run → Bool}
    (h : ∀ x ∈ L.runs, ∀ s, x.sourceRunId = some s → ∀ q, L.runRow s = some q → ¬p q = true) :
    (L.deleteRuns p).runs = L.runs.filter fun x => !p x := by
  refine (List.map_congr_left fun x hx => ?_).trans (List.map_id _)
  simp only [RunEdit.under]
  rw [if_neg]
  · rfl
  · intro hsource
    obtain ⟨s, hs, hany⟩ := (Option.any_eq_true _ _).mp hsource
    obtain ⟨q, hq, hqp⟩ := List.any_eq_true.mp hany
    simp only [Bool.and_eq_true, decide_eq_true_eq] at hqp
    exact h x (List.mem_of_mem_filter hx) s hs q (hqp.1 ▸ runRow_of_mem hq) hqp.2

/-- The links of the families are in order, and nothing was done for an unstarted run. -/
structure Ledger.WellFormed (L : Ledger) : Prop where
  source : ∀ x ∈ L.runs, ∀ s, x.sourceRunId = some s →
    s ≠ x.id ∧ ∃ y, L.runRow s = some y ∧ y.started = true
  order : L.runs.Pairwise fun a b => a.sourceRunId ≠ some b.id
  untouched : ∀ x ∈ L.runs, x.started = false → x.Untouched

namespace Ledger.WellFormed

variable {L : Ledger}

/-- Rows updated in place. -/
theorem map {L' : Ledger} {f : Run → Run} (h : L.WellFormed) (hruns : L'.runs = L.runs.map f)
    (hid : ∀ x ∈ L.runs, (f x).id = x.id)
    (hsource : ∀ x ∈ L.runs, (f x).sourceRunId = x.sourceRunId)
    (hstarted : ∀ x ∈ L.runs, x.started = true → (f x).started = true)
    (huntouched : ∀ x ∈ L.runs, x.started = false → (f x).started = false → x.Untouched →
      (f x).Untouched) : L'.WellFormed where
  source := by
    intro x hx s hs
    rw [hruns] at hx
    obtain ⟨q, hq, rfl⟩ := List.mem_map.mp hx
    obtain ⟨hne, y, hy, hys⟩ := h.source q hq s (hsource q hq ▸ hs)
    have hyl := mem_of_runRow hy
    have hmem : f y ∈ L'.runs := hruns ▸ List.mem_map_of_mem hyl
    refine ⟨(hid q hq).symm ▸ hne, f y, ?_, hstarted y hyl hys⟩
    rw [← id_of_runRow hy, ← hid y hyl]
    exact runRow_of_mem hmem
  order := by
    rw [hruns, List.pairwise_map]
    refine h.order.imp_of_mem fun {a b} ha hb hab => ?_
    rw [hsource a ha, hid b hb]
    exact hab
  untouched := by
    intro x hx hx'
    rw [hruns] at hx
    obtain ⟨q, hq, rfl⟩ := List.mem_map.mp hx
    have hqs : q.started = false := by
      by_contra hne
      simp [hstarted q hq (by simpa using hne)] at hx'
    exact huntouched q hq hqs hx' (h.untouched q hq hqs)

/-- An update of one run. -/
theorem editRun {id : String} {e : RunEdit} (h : L.WellFormed)
    (hsource : ∀ x, (e.apply x).sourceRunId = x.sourceRunId)
    (hstarted : ∀ x, L.runRow id = some x → x.started = true → (e.apply x).started = true)
    (huntouched : ∀ x, L.runRow id = some x → (e.apply x).started = false → x.Untouched →
      (e.apply x).Untouched) : (L.editRun id e).WellFormed := by
  have hrow {x : Run} (hx : x ∈ L.runs) (hid : decide (x.id = id) = true) : L.runRow id = some x :=
    of_decide_eq_true hid ▸ runRow_of_mem hx
  refine h.map rfl (fun x _ => RunEdit.keeps _ x) (fun x _ => ?_) (fun x hx => ?_) fun x hx _ => ?_
  · simp only [RunEdit.under]
    split
    · exact hsource x
    · rfl
  · simp only [RunEdit.under]
    split
    · next hid => exact hstarted x (hrow hx hid)
    · exact fun hs => hs
  · simp only [RunEdit.under]
    split
    · next hid => exact huntouched x (hrow hx hid)
    · exact fun _ hu => hu

/-- A new run whose source, if it has one, has started. -/
theorem insertRun {x : Run} (h : L.WellFormed)
    (hsource : ∀ s, x.sourceRunId = some s → ∃ y, L.runRow s = some y ∧ y.started = true)
    (huntouched : x.Untouched) : (L.insertRun x).WellFormed := by
  by_cases hid : x.id ∈ L.runs.map Run.id
  · rw [Ledger.insertRun, dif_pos hid]
    exact h
  have hnone : L.runRow x.id = none := Table.find_eq_none.mpr hid
  have hruns : (L.insertRun x).runs = L.runs ++ [x] := by rw [Ledger.insertRun, dif_neg hid]
  have hkept {s : String} {y : Run} (hy : L.runRow s = some y) : (L.insertRun x).runRow s = some y := by
    rw [runRow_insertRun hnone, if_neg, hy]
    rintro rfl
    simp [hnone] at hy
  refine ⟨fun y hy s hs => ?_, ?_, fun y hy hns => ?_⟩
  · rw [hruns, List.mem_append, List.mem_singleton] at hy
    rcases hy with hy | rfl
    · obtain ⟨hne, z, hz, hzs⟩ := h.source y hy s hs
      exact ⟨hne, z, hkept hz, hzs⟩
    · obtain ⟨z, hz, hzs⟩ := hsource s hs
      exact ⟨fun he => by simp [he, hnone] at hz, z, hkept hz, hzs⟩
  · rw [hruns, List.pairwise_append]
    refine ⟨h.order, List.pairwise_singleton .., ?_⟩
    rintro a ha b hb hs
    obtain rfl := List.mem_singleton.mp hb
    obtain ⟨-, y, hy, -⟩ := h.source a ha _ hs
    simp [hnone] at hy
  · rw [hruns, List.mem_append, List.mem_singleton] at hy
    rcases hy with hy | rfl
    · exact h.untouched y hy hns
    · exact huntouched

/-- Dropping unstarted runs leaves every other row as it was. -/
theorem runs_deleteRuns {p : Run → Bool} (h : L.WellFormed)
    (hp : ∀ x ∈ L.runs, p x = true → x.started = false) :
    (L.deleteRuns p).runs = L.runs.filter fun x => !p x := by
  refine runs_deleteRuns_of fun x hx s hs q hq hqp => ?_
  obtain ⟨-, y, hy, hys⟩ := h.source x hx s hs
  obtain rfl : q = y := Option.some.inj (hq.symm.trans hy)
  simp [hp q (mem_of_runRow hq) hqp] at hys

theorem runRow_deleteRuns {p : Run → Bool} (h : L.WellFormed)
    (hp : ∀ x ∈ L.runs, p x = true → x.started = false) (id : String) :
    (L.deleteRuns p).runRow id = (L.runRow id).filter fun x => !p x := by
  rw [runRow, h.runs_deleteRuns hp, Table.find_filter L.id_nodup]
  rfl

theorem deleteRuns {p : Run → Bool} (h : L.WellFormed)
    (hp : ∀ x ∈ L.runs, p x = true → x.started = false) : (L.deleteRuns p).WellFormed := by
  have hruns := h.runs_deleteRuns hp
  refine ⟨fun x hx s hs => ?_, ?_, fun x hx => ?_⟩
  · rw [hruns] at hx
    obtain ⟨hne, y, hy, hys⟩ := h.source x (List.mem_of_mem_filter hx) s hs
    refine ⟨hne, y, ?_, hys⟩
    rw [h.runRow_deleteRuns hp, hy, Option.filter_some_pos]
    by_contra hdrop
    simp [hp y (mem_of_runRow hy) (by simpa using hdrop)] at hys
  · rw [hruns]
    exact h.order.filter _
  · rw [hruns] at hx
    exact h.untouched x (List.mem_of_mem_filter hx)

end Ledger.WellFormed

namespace Ledger

variable {L : Ledger} {principal : RequestPrincipal} {own : ℕ} {newRun : Option String}

/-- A planning drops unapproved runs alone. -/
theorem prunable_of_doomed {x : Run} (h : x ∈ L.doomed D principal own newRun) :
    x ∈ L.runs ∧ x.prunable = true := by
  have hage {runs : List Run} {n : ℕ} (hx : x ∈ (byAge D runs).take n) : x ∈ runs :=
    (List.perm_insertionSort _ _).mem_iff.mp (List.mem_of_mem_take hx)
  unfold doomed at h
  split at h
  · simpa using hage h
  · have := List.mem_filter.mp (hage h)
    simp only [Run.prunableBy, Bool.and_eq_true] at this
    exact ⟨this.1, this.2.1.1.1⟩

theorem not_started_of_doomed (D : Deps V) (principal : RequestPrincipal) (own : ℕ)
    (newRun : Option String) {x : Run} (hx : x ∈ L.runs)
    (h : ((L.doomed D principal own newRun).map Run.id).contains x.id = true) :
    x.started = false := by
  obtain ⟨q, hq, hid⟩ := List.mem_map.mp (List.contains_iff_mem.mp h)
  obtain ⟨hql, hprunable⟩ := prunable_of_doomed hq
  obtain rfl : q = x := Option.some.inj ((runRow_of_mem hql).symm.trans (hid ▸ runRow_of_mem hx))
  exact Run.started_eq_false_of_prunable hprunable

theorem WellFormed.pruneUnapproved (h : L.WellFormed) :
    (L.pruneUnapproved D principal own newRun).WellFormed :=
  h.deleteRuns fun _ hx hd => not_started_of_doomed D principal own newRun hx hd

/-- A started run is left as it was by the prune. -/
theorem WellFormed.runRow_pruneUnapproved (h : L.WellFormed) {id : String} {x : Run}
    (hx : L.runRow id = some x) (hs : x.started = true) :
    (L.pruneUnapproved D principal own newRun).runRow id = some x := by
  have hprune := h.runRow_deleteRuns
    (fun _ hx hd => not_started_of_doomed D principal own newRun hx hd) id
  rw [Ledger.pruneUnapproved, hprune, hx, Option.filter_some_pos]
  by_contra hdrop
  simp [not_started_of_doomed D principal own newRun (mem_of_runRow hx)
    (by simpa using hdrop)] at hs

end Ledger

/-! ## The owner's operations -/

theorem Run.not_started_of_previewed {x : Run} (h : x.phase = .previewed) : x.started = false := by
  simp [started, h]

theorem Run.started_of_open {x : Run} (h : x.phase = .approved ∨ x.phase = .writing) :
    x.started = true := by
  rcases h with h | h <;> simp [started, h]

theorem Run.Untouched.editTarget {x : Run} {e : TargetEdit} {seq : ℕ} (h : x.Untouched)
    (he : ∀ t, t.Untouched → (e.apply t).Untouched) : (x.editTarget seq e).Untouched := by
  intro t ht
  rcases mem_editTarget.mp ht with ⟨u, hu, rfl⟩ | ⟨ht, -⟩
  · exact he u (h u (mem_of_target? hu))
  · exact h t ht

theorem Target.Untouched.selected {t : Target} (h : t.Untouched) (selected : Bool) (now : Time) :
    ((TargetEdit.selected selected now).apply t).Untouched := by
  simp only [TargetEdit.selected, TargetEdit.under]
  split
  · exact ⟨h.applied, h.undone, h.sent, h.unknown, h.found⟩
  · exact h

namespace Ledger

variable {L L' : Ledger} {runId id : String} {x : Run}

/-- What an undo takes back was sent to or recorded, so its source has started. -/
theorem WellFormed.started_of_undoTargets (h : L.WellFormed) (hx : L.runRow id = some x)
    (hu : L.undoTargets D x ≠ []) : x.started = true := by
  by_contra hs
  have huntouched := h.untouched x (mem_of_runRow hx) (by simpa using hs)
  refine hu (List.map_eq_nil_iff.mpr (List.reverse_eq_nil_iff.mpr (List.filter_eq_nil_iff.mpr ?_)))
  intro t ht
  simp [Target.undoEligible, (huntouched t ht).applied, (huntouched t ht).sent]

theorem undoRun_untouched (src : Run) (id : String) (createdAt : Time)
    (createdBy : Option String) : (L.undoRun D src id createdAt createdBy).Untouched := by
  intro t ht
  obtain ⟨i, hi, rfl⟩ := List.mem_mapIdx.mp ht
  unfold undoRow
  split <;> exact ⟨rfl, rfl, rfl, rfl, rfl⟩

theorem WellFormed.setSelected {seq : ℕ} {selected : Bool} {checksum : String} {now : Time}
    (h : L.WellFormed) (hok : L.setSelected D runId seq selected checksum now = .ok L') :
    L'.WellFormed := by
  obtain ⟨run, -, -, -, rfl⟩ := setSelected_ok hok
  exact h.editRun (fun _ => rfl) (fun _ _ hs => hs)
    fun _ _ _ hu => hu.editTarget fun _ ht => ht.selected selected now

theorem WellFormed.approve {p : ApproveParams} (h : L.WellFormed)
    (hok : L.approve D runId p = .ok L') : L'.WellFormed := by
  obtain ⟨run, -, -, -, -, -, rfl⟩ := approve_ok hok
  exact h.editRun (fun _ => rfl) (fun _ _ _ => rfl) fun _ _ _ hu => hu

theorem WellFormed.resume {p : ResumeParams} (h : L.WellFormed)
    (hok : L.resume D runId p = .ok L') : L'.WellFormed := by
  obtain ⟨run, hrun, hphase, -, -, rfl⟩ := resume_ok hok
  have hstarted (x : Run) (hx : L.runRow runId = some x) :
      ((RunEdit.resumed p run.countWriting (p.maxTargets.or run.maxTargets)).apply x).started =
        true := by
    obtain rfl : run = x := Option.some.inj (hrun.symm.trans hx)
    exact Run.started_of_open hphase
  refine h.editRun (fun _ => rfl) (fun x hx _ => hstarted x hx) fun x hx hs => ?_
  simp [hstarted x hx] at hs

theorem WellFormed.insertUndo {src : Run} (h : L.WellFormed) (id : String) (createdAt : Time)
    (createdBy : Option String) (hsrc : L.runRow runId = some src) (hu : L.undoTargets D src ≠ []) :
    (L.insertRun (L.undoRun D src id createdAt createdBy)).WellFormed := by
  refine h.insertRun ?_ (undoRun_untouched src id createdAt createdBy)
  rintro s ⟨⟩
  exact ⟨src, id_of_runRow hsrc ▸ hsrc, h.started_of_undoTargets hsrc hu⟩

theorem WellFormed.planUndo {createdAt : Time} {createdBy : Option String} (h : L.WellFormed)
    (hok : L.planUndo D runId id createdAt createdBy = .ok L') : L'.WellFormed := by
  obtain ⟨src, hsrc, -, -, -, hu, rfl⟩ := planUndo_ok hok
  exact (h.insertUndo _ _ _ hsrc hu).pruneUnapproved

/-! ### Rows of started runs -/

theorem runRow_insertRun_of_some {y : Run} (hx : L.runRow id = some x) :
    (L.insertRun y).runRow id = some x := by
  by_cases hid : y.id ∈ L.runs.map Run.id
  · rw [insertRun, dif_pos hid, hx]
  · have hnone : L.runRow y.id = none := Table.find_eq_none.mpr hid
    rw [runRow_insertRun hnone, if_neg, hx]
    rintro rfl
    simp [hnone] at hx

theorem runRow_setSelected {seq : ℕ} {selected : Bool} {checksum : String} {now : Time}
    (hok : L.setSelected D runId seq selected checksum now = .ok L')
    (hx : L.runRow id = some x) (hs : x.started = true) : L'.runRow id = some x := by
  obtain ⟨run, hrun, hphase, -, rfl⟩ := setSelected_ok hok
  refine (runRow_editRun_ne ?_).trans hx
  rintro rfl
  obtain rfl : run = x := Option.some.inj (hrun.symm.trans hx)
  simp [Run.not_started_of_previewed hphase] at hs

theorem runRow_approve {p : ApproveParams} (hok : L.approve D runId p = .ok L')
    (hx : L.runRow id = some x) (hs : x.started = true) : L'.runRow id = some x := by
  obtain ⟨run, hrun, hphase, -, -, -, rfl⟩ := approve_ok hok
  refine (runRow_editRun_ne ?_).trans hx
  rintro rfl
  obtain rfl : run = x := Option.some.inj (hrun.symm.trans hx)
  simp [Run.not_started_of_previewed hphase] at hs

theorem WellFormed.runRow_planUndo {createdAt : Time} {createdBy : Option String} {source : String}
    (h : L.WellFormed) (hok : L.planUndo D source runId createdAt createdBy = .ok L')
    (hx : L.runRow id = some x) (hs : x.started = true) : L'.runRow id = some x := by
  obtain ⟨src, hsrc, -, -, -, hu, rfl⟩ := planUndo_ok hok
  exact (h.insertUndo _ _ _ hsrc hu).runRow_pruneUnapproved (runRow_insertRun_of_some hx) hs

end Ledger

end Lynox.Bulk
