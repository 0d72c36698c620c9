import Lynox.Bulk.Steps

/-!
# What holds of every run of the ledger

Over every sequence of operations : a run that has left its planning is complete, with an image
and in a judged run a verdict on every target it could write; one external run reads at a time
and one started judge waits; and the checksum of an approved run never changes, so the
comparison with the approval never fails because of what the ledger wrote itself.

All three are read off statements, not off operations. The first two are fields of
`Ledger.Staged`; the third needs that a statement touches nothing the checksum is taken over
once a run is approved (`Run.Move.checksumParts`).
-/

namespace Lynox.Bulk

open Relation

variable {V : Type} {D : Deps V}

/-! ## Completeness -/

theorem Run.Staged.complete_of_phase {x : Run} (h : x.Staged)
    (hphase : x.phase = .previewed ∨ x.phase = .approved ∨ x.phase = .writing ∨
      x.phase = .done ∨ x.phase = .undone) : x.Complete := by
  refine (h.complete (hphase.symm.imp (fun hphase => h.reached ?_ ?_) fun hphase => hphase)).1
  · rcases hphase with hphase | hphase | hphase | hphase <;> simp [Run.unapproved, hphase]
  · rcases hphase with hphase | hphase | hphase | hphase <;> simp [hphase]

namespace Ledger

variable [DecidableEq V] {ops : List (LedgerOp V)}

/-- From its preview on a run has an image on every target that is not invalid and, when it is
judged, a verdict; and a run is not previewed before its list is read. -/
theorem preview_is_complete (hops : Run.Obeys (step D) LedgerOp.Allowed empty ops) :
    (∀ x ∈ (afterOps D ops).runs, x.phase = .previewed ∨ x.phase = .approved ∨
      x.phase = .writing ∨ x.phase = .done ∨ x.phase = .undone →
      ∀ t ∈ x.targets, t.change ≠ .invalid →
        t.before.isSome = true ∧ (x.judgeRule.isSome = true → t.judgedAt.isSome = true)) ∧
    ∀ op : LedgerOp V, op.Allowed (afterOps D ops) → ∀ x x' : Run,
      (afterOps D ops).runRow x.id = some x → x.phase = .planned →
      ((afterOps D ops).step D op).runRow x.id = some x' → x'.phase = .previewed →
        x'.listState ≠ some .pending := by
  have hstaged := staged_afterOps hops
  refine ⟨fun x hx hphase => (hstaged.runs x hx).complete_of_phase hphase, ?_⟩
  intro op hop x x' _ _ hx' hphase
  have hnext := hstaged.statements (statements_step (D := D) hstaged hop)
  exact ((hnext.runs x' (mem_of_runRow hx')).complete (.inr hphase)).2

/-- An external run over one target is planned, started, read, previewed and approved. -/
def externalPreview : List (LedgerOp Bool) :=
  [.recordExternalPlan (fun _ => false)
      { id := "r", createdAt := 0, createdBy := none, principal := .owner, host := "shop",
        targets := [("/items/1", .ok true)], contract := "contract" },
    .resumePreview (fun _ => false) (fun _ => false) "r" {},
    .recordRead "r" 0 (.image false none none none none),
    .finishPreview "r",
    .approve "r" { checksum := "hash" }]

theorem obeys_externalPreview (n : ℕ) :
    Run.Obeys (step plainDeps) LedgerOp.Allowed empty (externalPreview.take n) := by
  match n with
  | 0 => trivial
  | 1 => exact ⟨rfl, trivial⟩
  | 2 => exact ⟨rfl, trivial, trivial⟩
  | 3 => exact ⟨rfl, trivial, trivial, trivial⟩
  | 4 => exact ⟨rfl, trivial, trivial, trivial, trivial⟩
  | n + 5 => exact ⟨rfl, trivial, trivial, trivial, trivial, by simp [Run.Obeys]⟩

theorem approved_run_was_read :
    ∃ x ∈ (afterOps plainDeps externalPreview).runs, x.phase = .approved ∧
      ∃ t ∈ x.targets, t.change = .update ∧ t.before.isSome = true := by
  have hrun : (afterOps plainDeps externalPreview).runs.map
      (fun x => (x.phase, x.targets.map (·.change))) = [(.approved, [.update])] := by
    decide +kernel
  obtain ⟨x, hruns, hx⟩ := List.map_eq_singleton_iff.mp hrun
  obtain ⟨hphase, htargets⟩ := Prod.mk.inj hx
  obtain ⟨t, hlist, hchange⟩ := List.map_eq_singleton_iff.mp htargets
  have hmem : x ∈ (afterOps plainDeps externalPreview).runs := by simp [hruns]
  refine ⟨x, hmem, hphase, t, by simp [hlist], hchange, ?_⟩
  exact ((preview_is_complete (obeys_externalPreview 5)).1 x hmem (.inr (.inl hphase)) t
    (by simp [hlist]) (by simp [hchange])).1

/-- A run has an approval from its approval on; what an undo takes back stays, approved and planned
before it. -/
theorem undo_follows_an_approval (hops : Run.Obeys (step D) LedgerOp.Allowed empty ops) :
    let L := afterOps D ops
    (∀ x ∈ L.runs, x.phase ≠ .aborted → (x.approvedAt.isSome = true ↔ x.unapproved = false)) ∧
      (∀ x ∈ L.runs, ∀ s, x.sourceRunId = some s →
        ∃ y, L.runRow s = some y ∧ y.approvedAt.isSome = true) ∧
      L.runs.Pairwise fun x y => x.sourceRunId ≠ some y.id := by
  have hstaged := staged_afterOps hops
  refine ⟨fun x hx hphase => ?_, fun x hx s hs => (hstaged.source x hx s hs).2, hstaged.order⟩
  exact ⟨(hstaged.runs x hx).approved, fun hleft => (hstaged.runs x hx).reached hleft hphase⟩

theorem approved_run_has_its_approval :
    ∃ x ∈ (afterOps plainDeps externalPreview).runs, x.approvedAt.isSome = true := by
  have hrun : (afterOps plainDeps externalPreview).runs.map Run.phase = [.approved] := by
    decide +kernel
  obtain ⟨x, hruns, hphase⟩ := List.map_eq_singleton_iff.mp hrun
  have hmem : x ∈ (afterOps plainDeps externalPreview).runs := by simp [hruns]
  exact ⟨x, hmem, ((undo_follows_an_approval (obeys_externalPreview 5)).1 x hmem (by simp [hphase])).2
    (by simp [Run.unapproved, hphase])⟩

/-! ## One reader, one judge -/

/-- At most one external run is planned and not halted, and at most one judged run with a spend
limit is planned or previewed. -/
theorem one_reader_one_judge (hops : Run.Obeys (step D) LedgerOp.Allowed empty ops) :
    ∀ x ∈ (afterOps D ops).runs, ∀ y ∈ (afterOps D ops).runs,
      (x.reading = true → y.reading = true → x = y) ∧
      (x.judgeStarted = true → x.unapproved = true → y.judgeStarted = true →
        y.unapproved = true → x = y) := by
  intro x hx y hy
  have hstaged := staged_afterOps hops
  have heq (hid : x.id = y.id) : x = y :=
    Option.some.inj ((runRow_of_mem hx).symm.trans (hid ▸ runRow_of_mem hy))
  refine ⟨fun hrx hry => heq (hstaged.reader x hx y hy hrx hry), ?_⟩
  intro hsx hux hsy huy
  exact heq (hstaged.judge x hx y hy (by simp [Run.holdsJudge, hsx, hux])
    (by simp [Run.holdsJudge, hsy, huy]))

theorem started_run_is_the_reader :
    ∃ x ∈ (afterOps plainDeps (externalPreview.take 2)).runs, x.reading = true ∧
      ∀ y ∈ (afterOps plainDeps (externalPreview.take 2)).runs, y.reading = true → y = x := by
  have hrun : (afterOps plainDeps (externalPreview.take 2)).runs.map Run.reading = [true] := by
    decide +kernel
  obtain ⟨x, hruns, hx⟩ := List.map_eq_singleton_iff.mp hrun
  have hmem : x ∈ (afterOps plainDeps (externalPreview.take 2)).runs := by simp [hruns]
  exact ⟨x, hmem, hx, fun y hy hr =>
    (one_reader_one_judge (obeys_externalPreview 2) y hy x hmem).1 hr hx⟩

end Ledger

/-! ## Frozen plans -/

theorem Target.checksumParts_of_decided {t t' : Target} (h : t'.decided = t.decided) :
    t'.checksumParts = t.checksumParts := by
  simp only [decided, plan, Prod.mk.injEq, TargetPlan.mk.injEq] at h
  obtain ⟨⟨hseq, hkey, hchange, hbefore, hafter, -, hdeselected⟩, -⟩ := h
  rw [checksumParts, checksumParts, hseq, hkey, hchange, hbefore, hafter, hdeselected]

namespace Run

variable {x x' : Run}

theorem checksumParts_congr (hframe : x'.frame = x.frame)
    (hsource : x'.sourceRunId = x.sourceRunId) (hrule : x'.ruleHash = x.ruleHash)
    (hcontract : x'.contractJson = x.contractJson) (hdomains : x'.startDomains = x.startDomains)
    (hdecided : x'.targets.map Target.decided = x.targets.map Target.decided) :
    x'.checksumParts = x.checksumParts := by
  have htargets : x'.targets.flatMap Target.checksumParts =
      x.targets.flatMap Target.checksumParts := by
    have hparts : x'.targets.map Target.checksumParts = x.targets.map Target.checksumParts := by
      have hlen : x'.targets.length = x.targets.length := by
        simpa using congrArg List.length hdecided
      refine List.ext_getElem (by simpa using hlen) fun i h₁ h₂ => ?_
      have hi := congrArg (·[i]?) hdecided
      simp only [List.length_map] at h₁ h₂
      simp only [List.getElem?_map, List.getElem?_eq_getElem h₁, List.getElem?_eq_getElem h₂,
        Option.map_some, Option.some.injEq] at hi
      simpa using Target.checksumParts_of_decided hi
    rw [List.flatMap_def, List.flatMap_def, hparts]
  simp only [frame, RunFrame.mk.injEq] at hframe
  obtain ⟨-, -, hsystem, hatomic, hkind, hcollection, -, -, hlist, -, hjudge⟩ := hframe
  simp only [checksumParts, hsystem, hatomic, hkind, hcollection, hlist, hjudge, hsource, hrule,
    hcontract, hdomains, htargets]

/-- The checksum of a run that holds an approval, and the approval, survive every move. -/
theorem Move.checksumParts (h : x.Move x') (hx : x.Staged) (approved : x.approvedAt.isSome = true) :
    x'.checksumParts = x.checksumParts ∧ x'.approvalChecksum = x.approvalChecksum := by
  have hleft := hx.approved approved
  have hsame (frame : x'.frame = x.frame) (terms : x'.terms = x.terms)
      (decided : x'.targets.map Target.decided = x.targets.map Target.decided) :
      x'.checksumParts = x.checksumParts ∧ x'.approvalChecksum = x.approvalChecksum := by
    simp only [Run.terms, RunTerms.mk.injEq] at terms
    obtain ⟨hsource, hrule, hcontract, hdomains, -, hchecksum⟩ := terms
    exact ⟨checksumParts_congr frame hsource hrule hcontract hdomains decided, hchecksum⟩
  have hplanned (planned : x.phase = .planned) : False := by
    rw [unapproved_of_planned planned] at hleft
    cases hleft
  cases h with
  | notes frame terms stage decided marks => exact hsame frame terms decided
  | records _ frame terms stage decided _ => exact hsame frame terms decided
  | turns _ frame terms targets => exact hsame frame terms (by rw [targets])
  | halts frame terms targets => exact hsame frame terms (by rw [targets])
  | prepares planned => exact (hplanned planned).elim
  | lists planned => exact (hplanned planned).elim
  | previews planned => exact (hplanned planned).elim
  | ends unapproved =>
    rw [unapproved] at hleft
    cases hleft
  | selects previewed => simp [Run.unapproved, previewed] at hleft

theorem Opening.checksumParts (h : x.Opening D x') : x'.checksumParts = x.checksumParts :=
  checksumParts_congr h.frame h.source h.ruleHash h.contractJson h.startDomains h.decided

end Run

namespace Ledger

variable {L L' : Ledger}

/-- An approved run is in the ledger after a statement, with the checksum it had. -/
theorem Statement.checksumParts (hs : Statement D L L') (hL : L.Staged) {x : Run}
    (hx : x ∈ L.runs) (approved : x.approvedAt.isSome = true) :
    ∃ x' ∈ L'.runs, x'.id = x.id ∧ x'.approvedAt.isSome = true ∧
      x'.checksumParts = x.checksumParts := by
  cases hs with
  | rows e moves =>
    refine ⟨e.apply x, List.mem_map_of_mem hx, e.keeps x, (moves x hx).approvedAt ▸ approved, ?_⟩
    exact ((moves x hx).checksumParts (hL.runs x hx) approved).1
  | @starts id y e row start reader judge =>
    have hne : x.id ≠ id := by
      rintro rfl
      obtain rfl : x = y := Option.some.inj ((runRow_of_mem hx).symm.trans row)
      have := (hL.runs x hx).approved approved
      rw [Run.unapproved_of_planned start.planned] at this
      cases this
    exact ⟨x, mem_editRun_ne hx hne, rfl, approved, rfl⟩
  | @opens id y e row opening alone =>
    by_cases hid : x.id = id
    · obtain rfl : x = y := Option.some.inj ((runRow_of_mem hx).symm.trans (hid ▸ row))
      exact ⟨e.apply x, mem_editRun_self row, e.keeps x, opening.approved, opening.checksumParts⟩
    · exact ⟨x, mem_editRun_ne hx hid, rfl, approved, rfl⟩
  | inserts new =>
    refine ⟨x, ?_, rfl, approved, rfl⟩
    rw [runs_insertRun new.fresh]
    exact List.mem_append_left _ hx
  | deletes p unapproved =>
    refine ⟨x, ?_, rfl, approved, rfl⟩
    rw [hL.runs_deleteRuns unapproved, List.mem_filter]
    refine ⟨hx, ?_⟩
    by_contra hdrop
    simp [unapproved x hx (by simpa using hdrop)] at approved
  | files probes => exact ⟨x, hx, rfl, approved, rfl⟩

theorem checksumParts_statements (hs : ReflTransGen (Statement D) L L') (hL : L.Staged) {x : Run}
    (hx : x ∈ L.runs) (approved : x.approvedAt.isSome = true) :
    ∃ x' ∈ L'.runs, x'.id = x.id ∧ x'.checksumParts = x.checksumParts := by
  suffices h : ∃ x' ∈ L'.runs, x'.id = x.id ∧ x'.approvedAt.isSome = true ∧
      x'.checksumParts = x.checksumParts by
    obtain ⟨x', hx', hid, -, hparts⟩ := h
    exact ⟨x', hx', hid, hparts⟩
  induction hs with
  | refl => exact ⟨x, hx, rfl, approved, rfl⟩
  | tail hsteps hs ih =>
    obtain ⟨y, hy, hid, hya, hparts⟩ := ih
    obtain ⟨z, hz, hid', hza, hparts'⟩ := hs.checksumParts (hL.statements hsteps) hy hya
    exact ⟨z, hz, hid'.trans hid, hza, hparts'.trans hparts⟩

/-- Every approval names the checksum its run has now. -/
def Sealed (D : Deps V) (L : Ledger) : Prop :=
  ∀ x ∈ L.runs, x.approvedAt.isSome = true →
    x.approvalChecksum = some (D.keyedHash x.checksumParts)

theorem Sealed.statement (hL : L.Staged) (h : L.Sealed D) (hs : Statement D L L') :
    L'.Sealed D := by
  cases hs with
  | rows e moves =>
    intro x hx approved
    obtain ⟨q, hq, rfl⟩ := mem_mapRuns.mp hx
    rw [(moves q hq).approvedAt] at approved
    obtain ⟨hparts, hchecksum⟩ := (moves q hq).checksumParts (hL.runs q hq) approved
    rw [hparts, hchecksum]
    exact h q hq approved
  | @starts id y e row start reader judge =>
    have hy := hL.runs y (mem_of_runRow row)
    refine fun x hx => ?_
    obtain ⟨q, hq, rfl⟩ := mem_mapRuns.mp hx
    refine forall_under (P := fun z z' => z'.approvedAt.isSome = true →
      z'.approvalChecksum = some (D.keyedHash z'.checksumParts)) row (fun approved => ?_)
      (fun z hz => h z hz) q hq
    rw [start.approved, hy.approvedAt_eq_none (Run.unapproved_of_planned start.planned)] at approved
    cases approved
  | @opens id y e row opening alone =>
    refine fun x hx => ?_
    obtain ⟨q, hq, rfl⟩ := mem_mapRuns.mp hx
    refine forall_under (P := fun z z' => z'.approvedAt.isSome = true →
      z'.approvalChecksum = some (D.keyedHash z'.checksumParts)) row (fun _ => ?_)
      (fun z hz => h z hz) q hq
    rw [opening.checksumParts]
    rcases opening.checksum with hchecksum | ⟨happroved, hchecksum⟩
    · exact hchecksum
    · exact hchecksum.trans (h y (mem_of_runRow row) happroved)
  | inserts new =>
    intro x hx approved
    rw [runs_insertRun new.fresh, List.mem_append, List.mem_singleton] at hx
    rcases hx with hx | rfl
    · exact h x hx approved
    · simp [new.approved] at approved
  | deletes p unapproved =>
    intro x hx approved
    rw [hL.runs_deleteRuns unapproved] at hx
    exact h x (List.mem_of_mem_filter hx) approved
  | files probes => exact h

variable [DecidableEq V] {ops : List (LedgerOp V)}

/-- The checksum of a run that is approved, writing, done or undone is the same after any
operation, and it is the one the run was approved with. -/
theorem plan_is_frozen (hops : Run.Obeys (step D) LedgerOp.Allowed empty ops) {op : LedgerOp V}
    (hop : op.Allowed (afterOps D ops)) {x : Run} (hx : x ∈ (afterOps D ops).runs)
    (hphase : x.phase = .approved ∨ x.phase = .writing ∨ x.phase = .done ∨ x.phase = .undone) :
    ((afterOps D ops).step D op).computeChecksum D x.id = (afterOps D ops).computeChecksum D x.id ∧
      (afterOps D ops).computeChecksum D x.id = x.approvalChecksum := by
  obtain ⟨hstaged, hsealed⟩ := invariant_afterOps (I := Sealed D)
    (fun hL hI hs => Sealed.statement hL hI hs) (by simp [Sealed, empty]) hops
  have happroved : x.approvedAt.isSome = true := by
    refine (hstaged.runs x hx).reached ?_ ?_
    · rcases hphase with hphase | hphase | hphase | hphase <;> simp [Run.unapproved, hphase]
    · rcases hphase with hphase | hphase | hphase | hphase <;> simp [hphase]
  obtain ⟨x', hx', hid, hparts⟩ :=
    checksumParts_statements (statements_step (D := D) hstaged hop) hstaged hx happroved
  have hrow : ((afterOps D ops).step D op).runRow x.id = some x' := hid ▸ runRow_of_mem hx'
  refine ⟨?_, ?_⟩
  · rw [computeChecksum, computeChecksum, hrow, runRow_of_mem hx, Option.map_some, Option.map_some,
      hparts]
  · rw [computeChecksum, runRow_of_mem hx, Option.map_some]
    exact (hsealed x hx happroved).symm

theorem halted_run_keeps_its_checksum :
    ∃ x ∈ (afterOps plainDeps externalPreview).runs, x.phase = .approved ∧
      ((afterOps plainDeps externalPreview).step plainDeps
        (.halt "r" .timeBudget)).computeChecksum plainDeps x.id = x.approvalChecksum := by
  have hrun : (afterOps plainDeps externalPreview).runs.map Run.phase = [.approved] := by
    decide +kernel
  obtain ⟨x, hruns, hphase⟩ := List.map_eq_singleton_iff.mp hrun
  have hmem : x ∈ (afterOps plainDeps externalPreview).runs := by simp [hruns]
  have hallowed : LedgerOp.Allowed (afterOps plainDeps externalPreview)
      (.halt (V := Bool) "r" .timeBudget) := rfl
  obtain ⟨hsame, hsealed⟩ :=
    plan_is_frozen (obeys_externalPreview 5) hallowed hmem (.inl hphase)
  exact ⟨x, hmem, hphase, hsame.trans hsealed⟩

end Ledger

end Lynox.Bulk
