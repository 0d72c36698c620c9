import Lynox.Bulk.EffectSafe

/-!
# Histories of passes

What one step of a history does to the row of any run. A pass edits its own run's row
(`EffectCall.onOwn`) and, for an undo, its source's (`EffectCall.onSource`); `runRow_perform`
says so once for every operation. Owners resume a run between its passes, plan undos and
approve; a run that has started is touched by a resume alone (`runRow_outside`), and keeps
what was planned for it.

`sound_of_steps` is the rule the later modules use : a property of worlds that entering,
guarded operations, deaths, returns and the steps of others keep holds along every history
in which no other step touches the row of a run while a pass over it is live.
-/

namespace Lynox.Bulk

variable {V : Type} {D : Deps V}

/-! ## Rows under one operation -/

/-- What an operation of a pass over `p` does to the row of the run `id`; `own` is the row of
`p` before it. -/
def EffectOp.onRow (D : Deps V) (own : Option Run) (p id : String) : EffectOp V → Run → Run
  | .call c =>
    if id = p then c.onOwn D
    else if c.source = some id then c.onSource own
    else fun x => x
  | .claimTarget _ seq time => if id = p then Run.editTarget seq (.claimed D time) else fun x => x
  | _ => fun x => x

theorem Ledger.sourceSeq_of_plan {L L' : Ledger} {id : String} {seq : ℕ}
    (h : (L'.runRow id).map Run.plan = (L.runRow id).map Run.plan) :
    (L'.row id seq).bind Target.sourceSeq = (L.row id seq).bind Target.sourceSeq := by
  have hrow (M : Ledger) : (M.row id seq).bind Target.sourceSeq =
      (((M.runRow id).map Run.plan).bind fun p => Table.find TargetPlan.seq p.targets seq).bind
        TargetPlan.sourceSeq := by
    rw [Ledger.row]
    rcases M.runRow id with _ | x
    · rfl
    · simp only [Option.map_some, Option.bind_some, ← Run.plan_target?]
      cases x.target? seq <;> rfl
  rw [hrow, hrow, h]

theorem Ledger.runRow_markSource {L : Ledger} {run : Run} {seq : ℕ} {undoneAt : Option Time}
    {id : String} (hk : run.kind = .undo) (hs : run.sourceRunId = some id) :
    (L.markSource run seq undoneAt).runRow id =
      match (L.row run.id seq).bind Target.sourceSeq with
      | some s => (L.runRow id).map (Run.editTarget s (.taken undoneAt))
      | none => L.runRow id := by
  rw [Ledger.markSource, hk, hs]
  rcases (L.row run.id seq).bind Target.sourceSeq with _ | s
  · rfl
  · exact Ledger.runRow_editRun_self

/-- A write of an undo edits its source's row. -/
theorem runRow_call_source {L : Ledger} {c : EffectCall V} {id : String} (h : id ≠ c.runId)
    (hs : c.source = some id) :
    (c.perform D L).runRow id = (L.runRow id).map (c.onSource (L.runRow c.runId)) := by
  have hundo {run : Run} (hs : (if run.kind = .undo then run.sourceRunId else none) = some id) :
      run.kind = .undo ∧ run.sourceRunId = some id := by simpa using hs
  cases c with
  | recordApplied run seq result now actual via shopAddedMarkup hostRewrote =>
    obtain ⟨hk, hsource⟩ := hundo hs
    have hne : id ≠ run.id := h
    simp only [EffectCall.perform, EffectCall.runId, EffectCall.onSource, Ledger.recordApplied]
    rw [← Ledger.row]
    rcases hrow : L.row run.id seq with _ | t
    · simp [Ledger.runRow_editRun_ne hne]
    · rcases hpending : t.appliedAt.isNone with _ | _
      · simp only [Option.any_some, hpending, Bool.false_eq_true, if_false]
        rw [Ledger.runRow_editRun_ne hne]
        cases t.sourceSeq <;> exact Option.map_id'.symm
      · simp only [Option.any_some, hpending, if_true]
        rw [Ledger.runRow_markSource hk hsource, Ledger.runRow_editRun_ne hne,
          Ledger.sourceSeq_of_plan (Ledger.plan_editRun fun x => x.plan_recordApplied D ..), hrow,
          Option.bind_some]
        cases t.sourceSeq with
        | none => exact Option.map_id'.symm
        | some s => rfl
  | recordRolledBack run seq now =>
    obtain ⟨hk, hsource⟩ := hundo hs
    have hsame : (L.editTarget run.id seq (.rolledBack now)).runRow id = L.runRow id :=
      Ledger.runRow_editRun_ne h
    simp only [EffectCall.perform, EffectCall.runId, EffectCall.onSource, Ledger.recordRolledBack]
    rw [← Ledger.row, Ledger.runRow_markSource hk hsource, hsame,
      Ledger.sourceSeq_of_plan (Ledger.plan_editTarget (TargetEdit.keepsPlan_rolledBack now))]
    cases (L.row run.id seq).bind Target.sourceSeq with
    | none => exact Option.map_id'.symm
    | some s => rfl
  | finish run =>
    obtain ⟨hk, hsource⟩ := hundo hs
    have hne : id ≠ run.id := h
    simp only [EffectCall.perform, Ledger.finish, hk, hsource, EffectCall.onSource]
    rw [Ledger.runRow_editRun_self, Ledger.setPhase, Ledger.runRow_editRun_ne hne]
  | _ => cases hs

/-- No guarded write has its own run as its source. -/
theorem CallGuard.source_ne {r : String} {v : Seen V} {c : EffectCall V} (h : CallGuard D r v c) :
    c.source ≠ some r := by
  cases c with
  | recordApplied run seq result now actual via shopAddedMarkup hostRewrote =>
    obtain ⟨x, t, hgoing, hplan, -⟩ := h
    exact hgoing.source_ne hplan.symm
  | recordRolledBack run seq now =>
    obtain ⟨x, t, hlive, -, -, hplan, -⟩ := h
    exact hlive.source_ne hplan.symm
  | finish run =>
    obtain ⟨x, hgoing, hplan, -⟩ := h
    exact hgoing.source_ne hplan.symm
  | _ => rintro ⟨⟩

/-- The source a guarded write also edits is the source of its own run. -/
theorem CallGuard.source_eq {r s : String} {v : Seen V} {c : EffectCall V}
    (h : CallGuard D r v c) (hs : c.source = some s) :
    ∃ x, v.run = some x ∧ x.kind = .undo ∧ x.sourceRunId = some s := by
  have hplan {run x : Run} (hplan : run.plan = x.plan)
      (hs : (if run.kind = .undo then run.sourceRunId else none) = some s) :
      x.kind = .undo ∧ x.sourceRunId = some s := by
    rw [← show run.kind = x.kind from congrArg RunPlan.kind hplan,
      ← show run.sourceRunId = x.sourceRunId from congrArg RunPlan.sourceRunId hplan]
    simpa using hs
  cases c with
  | recordApplied run seq result now actual via shopAddedMarkup hostRewrote =>
    obtain ⟨x, t, hgoing, hp, -⟩ := h
    exact ⟨x, hgoing.run, hplan hp hs⟩
  | recordRolledBack run seq now =>
    obtain ⟨x, t, hlive, -, -, hp, -⟩ := h
    exact ⟨x, hlive.run, hplan hp hs⟩
  | finish run =>
    obtain ⟨x, hgoing, hp, -⟩ := h
    exact ⟨x, hgoing.run, hplan hp hs⟩
  | _ => cases hs

/-- What a guarded operation does to the row of any run. -/
theorem runRow_perform {p i : String} {w : World V} {o : EffectOp V} {c : Choice V}
    (hG : Guard D p (seen p w) o) : (perform D w o c).2.ledger.runRow i =
      (w.ledger.runRow i).map (o.onRow D (w.ledger.runRow p) p i) := by
  cases o with
  | call call =>
    obtain ⟨rfl, hcall⟩ := hG
    have hne := hcall.source_ne
    simp only [perform, EffectOp.onRow]
    split
    · next hid =>
      subst hid
      exact runRow_call D hne
    · next hid =>
      split
      · next hs => exact runRow_call_source hid hs
      · next hs => rw [runRow_call_of_ne D hid hs, Option.map_id']
  | claimTarget runId seq time =>
    obtain rfl : runId = p := hG
    simp only [perform, EffectOp.onRow, Ledger.claimTarget]
    split
    · next hid =>
      subst hid
      exact Ledger.runRow_editRun_self
    · next hid => exact (Ledger.runRow_editRun_ne hid).trans Option.map_id'.symm
  | read tag place =>
    simp only [perform, EffectOp.onRow, Option.map_id']
    split <;> rfl
  | _ =>
    exact Option.map_id'.symm

/-! ## Runs that have started -/

theorem Live.started {r : String} {v : Seen V} {x : Run} (h : Live r v x) : x.started = true := by
  simp [Run.started, h.writing]

/-- A write of an undo marks one target of its source, or closes it. -/
theorem onSource_cases (c : EffectCall V) (own : Option Run) (x : Run) :
    c.onSource own x = x ∨ (∃ s undoneAt, c.onSource own x = x.editTarget s (.taken undoneAt)) ∨
      c.onSource own x = x.setUndone := by
  cases c with
  | recordApplied run seq result now actual via shopAddedMarkup hostRewrote =>
    simp only [EffectCall.onSource]
    rcases own.bind (·.target? seq) with _ | t
    · exact .inl rfl
    · rcases hs : t.sourceSeq with _ | s
      · exact .inl (by simp only [hs])
      · by_cases ht : t.appliedAt.isNone = true
        · exact .inr (.inl ⟨s, some now, by simp only [hs, ht, if_true]⟩)
        · exact .inl (by simp only [hs, if_neg ht])
  | recordRolledBack run seq now =>
    simp only [EffectCall.onSource]
    rcases (own.bind (·.target? seq)).bind Target.sourceSeq with _ | s
    · exact .inl rfl
    · exact .inr (.inl ⟨s, none, rfl⟩)
  | finish run => exact .inr (.inr rfl)
  | _ => exact .inl rfl

theorem started_onSource {c : EffectCall V} {own : Option Run} {x : Run} (h : x.started = true) :
    (c.onSource own x).started = true := by
  rcases onSource_cases c own x with hx | ⟨s, u, hx⟩ | hx <;> rw [hx]
  · exact h
  · exact h
  · exact Run.started_setUndone h

theorem plan_onSource (c : EffectCall V) (own : Option Run) (x : Run) :
    (c.onSource own x).plan = x.plan := by
  rcases onSource_cases c own x with hx | ⟨s, u, hx⟩ | hx <;> rw [hx]
  · exact Run.plan_editTarget (TargetEdit.keepsPlan_taken u) s x
  · exact x.plan_setUndone

/-- Every guarded write is to a run that has started, and leaves it so. -/
theorem CallGuard.started {r : String} {v : Seen V} {c : EffectCall V} (h : CallGuard D r v c) :
    ∃ x, v.run = some x ∧ x.started = true ∧ (c.onOwn D x).started = true := by
  cases c with
  | releaseClaim runId seq =>
    obtain ⟨x, hgoing⟩ := h
    exact ⟨x, hgoing.run, hgoing.started, hgoing.started⟩
  | markSent runId seq via =>
    obtain ⟨x, t, hgoing, -⟩ := h
    exact ⟨x, hgoing.run, hgoing.started, hgoing.started⟩
  | markRefused runId seq =>
    obtain ⟨x, t, hgoing, -⟩ := h
    exact ⟨x, hgoing.run, hgoing.started, hgoing.started⟩
  | recordApplied run seq result now actual via shopAddedMarkup hostRewrote =>
    obtain ⟨x, t, hgoing, -⟩ := h
    have hopen := x.recordApplied_open D seq result now actual via shopAddedMarkup hostRewrote
    exact ⟨x, hgoing.run, hgoing.started,
      (Run.started_congr hopen.1 hopen.2).trans hgoing.started⟩
  | recordFailed runId seq error via =>
    obtain ⟨x, t, hgoing, -⟩ := h
    have hopen := x.recordFailed_open seq error via
    exact ⟨x, hgoing.run, hgoing.started,
      (Run.started_congr hopen.1 hopen.2).trans hgoing.started⟩
  | recordUnrecordedSettled runId seq now =>
    obtain ⟨x, t, hlive, -⟩ := h
    exact ⟨x, hlive.run, hlive.started, hlive.started⟩
  | recordRolledBack run seq now =>
    obtain ⟨x, t, hlive, -⟩ := h
    exact ⟨x, hlive.run, hlive.started, hlive.started⟩
  | setWriting runId =>
    obtain ⟨x, hrun, hmay⟩ := h
    refine ⟨x, hrun, Run.started_of_mayWrite hmay, ?_⟩
    simp only [EffectCall.onOwn, Run.setPhase]
    split
    · rfl
    · exact Run.started_of_mayWrite hmay
  | setAborted runId reason =>
    obtain ⟨x, hlive, -, -, hreason⟩ := h
    refine ⟨x, hlive.run, hlive.started, ?_⟩
    simp [EffectCall.onOwn, Run.setPhase, hlive.writing, Run.started, hreason]
  | halt runId reason =>
    obtain ⟨x, hrun, hmay, -⟩ := h
    obtain ⟨hphase, -⟩ : (x.phase = .approved ∨ x.phase = .writing) ∧ x.haltReason = none := by
      simpa [Run.mayWrite] using hmay
    refine ⟨x, hrun, Run.started_of_mayWrite hmay, ?_⟩
    rcases hphase with hphase | hphase <;>
      simp [EffectCall.onOwn, Run.halt, Run.started, hphase]
  | finish run =>
    obtain ⟨x, hgoing, -⟩ := h
    refine ⟨x, hgoing.run, hgoing.started, ?_⟩
    simp [EffectCall.onOwn, Run.setPhase, hgoing.writing, Run.started]

/-- What holds of a started run's row after an operation of any pass. -/
theorem started_onRow {p id : String} {w : World V} {o : EffectOp V} {x : Run}
    (hG : Guard D p (seen p w) o) (hx : w.ledger.runRow id = some x) (h : x.started = true) :
    (o.onRow D (w.ledger.runRow p) p id x).started = true := by
  cases o with
  | call c =>
    simp only [EffectOp.onRow]
    split
    · next hid =>
      subst hid
      obtain ⟨x', hx', -, hown⟩ := hG.2.started
      obtain rfl : x = x' := Option.some.inj (hx.symm.trans hx')
      exact hown
    · split
      · exact started_onSource h
      · exact h
  | claimTarget runId seq time =>
    simp only [EffectOp.onRow]
    split <;> exact h
  | _ =>
    exact h

theorem plan_onRow (D : Deps V) (own : Option Run) (p id : String) (o : EffectOp V) (x : Run) :
    (o.onRow D own p id x).plan = x.plan := by
  cases o with
  | call c =>
    simp only [EffectOp.onRow]
    split
    · exact plan_onOwn D c x
    · split
      · exact plan_onSource c own x
      · rfl
  | claimTarget runId seq time =>
    simp only [EffectOp.onRow]
    split
    · exact Run.plan_editTarget (TargetEdit.keepsPlan_claimed D time) seq x
    · rfl
  | _ => rfl

/-! ## Well-formedness along a history -/

theorem ids_call (c : EffectCall V) (L : Ledger) :
    (c.perform D L).runs.map Run.id = L.runs.map Run.id := by
  have hmark (M : Ledger) (run : Run) (seq : ℕ) (u : Option Time) :
      (M.markSource run seq u).runs.map Run.id = M.runs.map Run.id := by
    unfold Ledger.markSource
    split
    · exact Ledger.ids_editRun
    · rfl
  cases c with
  | recordApplied run seq result now actual via shopAddedMarkup hostRewrote =>
    simp only [EffectCall.perform, Ledger.recordApplied]
    split
    · exact (hmark ..).trans Ledger.ids_editRun
    · exact Ledger.ids_editRun
  | recordRolledBack run seq now => exact (hmark ..).trans Ledger.ids_editRun
  | finish run =>
    simp only [EffectCall.perform, Ledger.finish]
    split
    · exact Ledger.ids_editRun.trans Ledger.ids_editRun
    · exact Ledger.ids_editRun
  | _ => exact Ledger.ids_editRun

theorem ids_perform (w : World V) (o : EffectOp V) (c : Choice V) :
    (perform D w o c).2.ledger.runs.map Run.id = w.ledger.runs.map Run.id := by
  cases o with
  | call call => exact ids_call call w.ledger
  | claimTarget runId seq time => exact Ledger.ids_editRun
  | read tag place =>
    simp only [perform]
    split <;> rfl
  | _ => rfl

/-- A guarded operation touches no target of an unstarted run but to claim it. -/
theorem untouched_onRow {p id : String} {w : World V} {o : EffectOp V} {x : Run}
    (hwf : w.ledger.WellFormed) (hG : Guard D p (seen p w) o) (hx : w.ledger.runRow id = some x)
    (hs : x.started = false) (h : x.Untouched) :
    (o.onRow D (w.ledger.runRow p) p id x).Untouched := by
  cases o with
  | call c =>
    simp only [EffectOp.onRow]
    obtain ⟨y, hy, hys, -⟩ := hG.2.started
    split
    · next hid =>
      subst hid
      obtain rfl : x = y := Option.some.inj (hx.symm.trans hy)
      simp [hs] at hys
    · split
      · next hsource =>
        obtain ⟨z, hz, -, hzsource⟩ := hG.2.source_eq hsource
        obtain ⟨-, q, hq, hqs⟩ := hwf.source z (Ledger.mem_of_runRow hz) id hzsource
        obtain rfl : x = q := Option.some.inj (hx.symm.trans hq)
        simp [hs] at hqs
      · exact h
  | claimTarget runId seq time =>
    simp only [EffectOp.onRow]
    split
    · intro t ht
      rcases Run.mem_editTarget.mp ht with ⟨u, hu, rfl⟩ | ⟨ht, -⟩
      · have hu' := h u (Run.mem_of_target? hu)
        simp only [TargetEdit.claimed, TargetEdit.under]
        split
        · exact ⟨hu'.applied, hu'.undone, hu'.sent, hu'.unknown, hu'.found⟩
        · exact hu'
      · exact h t ht
    · exact h
  | _ =>
    exact h

theorem wellFormed_perform {p : String} {w : World V} {o : EffectOp V} {c : Choice V}
    (hwf : w.ledger.WellFormed) (hG : Guard D p (seen p w) o) :
    (perform D w o c).2.ledger.WellFormed := by
  have hruns := Ledger.runs_eq_of_runRow (ids_perform (D := D) w o c)
    fun id => runRow_perform (c := c) hG
  have hplan (x : Run) := plan_onRow D (w.ledger.runRow p) p x.id o x
  refine hwf.map hruns (fun x _ => congrArg RunPlan.id (hplan x))
    (fun x _ => congrArg RunPlan.sourceRunId (hplan x))
    (fun x hx => started_onRow hG (Ledger.runRow_of_mem hx))
    fun x hx hs _ => untouched_onRow hwf hG (Ledger.runRow_of_mem hx) hs

/-! ## The steps of others -/

section Others

variable {w : World V} {e : Outside V} {id : String} {x : Run}

@[simp] theorem trace_outside : (e.perform D w).trace = w.trace := by
  cases e <;> rfl

theorem orElse_cases {ε : Type} {L : Ledger} {o : Except ε Ledger} :
    L.orElse o = L ∨ o = .ok (L.orElse o) := by
  cases o with
  | ok L' => exact .inr rfl
  | error e => exact .inl rfl

theorem wellFormed_outside (h : w.ledger.WellFormed) : (e.perform D w).ledger.WellFormed := by
  have hor {ε : Type} {out : Except ε Ledger} (hout : ∀ L', out = .ok L' → L'.WellFormed) :
      (w.ledger.orElse out).WellFormed := by
    rcases orElse_cases (L := w.ledger) (o := out) with hL | hL
    · rwa [hL]
    · exact hout _ hL
  cases e with
  | select runId seq selected checksum now => exact hor fun _ => h.setSelected
  | approve runId p => exact hor fun _ => h.approve
  | resume runId p => exact hor fun _ => h.resume
  | planUndo sourceRunId id createdAt createdBy => exact hor fun _ => h.planUndo
  | confirmProbe runId confirmedBy now =>
    simp only [Outside.perform, Ledger.confirmProbe]
    split
    · exact h
    · split
      · exact h
      · exact ⟨h.source, h.order, h.untouched⟩
  | foreign place image => exact h

/-- Others touch a run that has started with a resume alone. -/
theorem runRow_outside (h : w.ledger.WellFormed) (hx : w.ledger.runRow id = some x)
    (hs : x.started = true) : (e.perform D w).ledger.runRow id = some x ∨
      ∃ p, (x.phase = .approved ∨ x.phase = .writing) ∧ w.ledger.writeBlocked x = none ∧
        (e.perform D w).ledger.runRow id =
          some ((RunEdit.resumed p x.countWriting (p.maxTargets.or x.maxTargets)).apply x) := by
  have hor {ε : Type} {out : Except ε Ledger} (hout : ∀ L', out = .ok L' → L'.runRow id = some x) :
      (w.ledger.orElse out).runRow id = some x := by
    rcases orElse_cases (L := w.ledger) (o := out) with hL | hL
    · rwa [hL]
    · exact hout _ hL
  cases e with
  | select runId seq selected checksum now =>
    exact .inl (hor fun _ hok => Ledger.runRow_setSelected hok hx hs)
  | approve runId p => exact .inl (hor fun _ hok => Ledger.runRow_approve hok hx hs)
  | resume runId p =>
    rcases orElse_cases (L := w.ledger) (o := w.ledger.resume D runId p) with hL | hL
    · exact .inl (by rw [Outside.perform, hL]; exact hx)
    · obtain ⟨run, hrun, hphase, -, hblocked, hL'⟩ := Ledger.resume_ok hL
      have hrow : (Outside.perform D w (.resume runId p)).ledger.runRow id =
          (w.ledger.editRun runId
            (.resumed p run.countWriting (p.maxTargets.or run.maxTargets))).runRow id :=
        congrArg (Ledger.runRow · id) hL'
      by_cases hid : id = runId
      · subst hid
        obtain rfl : run = x := Option.some.inj (hrun.symm.trans hx)
        exact .inr ⟨p, hphase, hblocked, by rw [hrow, Ledger.runRow_editRun_self, hx]; rfl⟩
      · exact .inl (by rw [hrow, Ledger.runRow_editRun_ne hid, hx])
  | planUndo sourceRunId newId createdAt createdBy =>
    exact .inl (hor fun _ hok => h.runRow_planUndo hok hx hs)
  | confirmProbe runId confirmedBy now =>
    refine .inl (Eq.trans ?_ hx)
    simp only [Outside.perform, Ledger.confirmProbe]
    split
    · rfl
    · split <;> rfl
  | foreign place image => exact .inl hx

/-- A row in which nothing was recorded, of a new run or of one planned before. -/
def FreshRow (L : Ledger) (id : String) (x : Run) : Prop :=
  x.Untouched ∧ (x.unsentTracked = true ∨
    ∃ y, L.runRow id = some y ∧ x.unsentTracked = y.unsentTracked)

/-- A run that has not started is left untouched, or is a new undo. -/
theorem runRow_outside_unstarted (h : w.ledger.WellFormed)
    (hs : ∀ y, w.ledger.runRow id = some y → y.started = false)
    (hx : (e.perform D w).ledger.runRow id = some x) : FreshRow w.ledger id x := by
  have hold {y : Run} (hy : w.ledger.runRow id = some y) : y.Untouched :=
    h.untouched y (Ledger.mem_of_runRow hy) (hs y hy)
  have hkept (hrow : w.ledger.runRow id = some x) : FreshRow w.ledger id x :=
    ⟨hold hrow, .inr ⟨x, hrow, rfl⟩⟩
  have hor {ε : Type} {out : Except ε Ledger} (hrow : (w.ledger.orElse out).runRow id = some x)
      (hout : ∀ L', out = .ok L' → L'.runRow id = some x → FreshRow w.ledger id x) :
      FreshRow w.ledger id x := by
    rcases orElse_cases (L := w.ledger) (o := out) with hL | hL
    · exact hkept (hL ▸ hrow)
    · exact hout _ hL hrow
  have hedit {runId : String} {e : RunEdit} (hrow : (w.ledger.editRun runId e).runRow id = some x)
      (he : ∀ y, w.ledger.runRow id = some y → y.Untouched → (e.apply y).Untouched)
      (htracked : ∀ y, (e.apply y).unsentTracked = y.unsentTracked) :
      FreshRow w.ledger id x := by
    rw [Ledger.runRow_editRun] at hrow
    split at hrow
    · obtain ⟨y, hy, rfl⟩ := Option.map_eq_some_iff.mp hrow
      exact ⟨he y hy (hold hy), .inr ⟨y, hy, htracked y⟩⟩
    · exact hkept hrow
  cases e with
  | select runId seq selected checksum now =>
    refine hor hx fun L' hok hrow => ?_
    obtain ⟨run, -, -, -, rfl⟩ := Ledger.setSelected_ok hok
    exact hedit hrow (fun y _ hy => hy.editTarget fun t ht => ht.selected selected now)
      fun _ => rfl
  | approve runId p =>
    refine hor hx fun L' hok hrow => ?_
    obtain ⟨run, -, -, -, -, -, rfl⟩ := Ledger.approve_ok hok
    exact hedit hrow (fun y _ hy => hy) fun _ => rfl
  | resume runId p =>
    refine hor hx fun L' hok hrow => ?_
    obtain ⟨run, hrun, hphase, -, -, rfl⟩ := Ledger.resume_ok hok
    refine hedit hrow (fun y hy hu t ht => ?_) fun _ => rfl
    obtain ⟨u, hu', rfl⟩ := Run.mem_mapTargets.mp ht
    have hu'' := hu u hu'
    simp only [TargetEdit.retry, TargetEdit.under]
    split
    · exact ⟨hu''.applied, hu''.undone, hu''.sent, hu''.unknown, hu''.found⟩
    · exact hu''
  | planUndo sourceRunId newId createdAt createdBy =>
    refine hor hx fun L' hok hrow => ?_
    obtain ⟨src, hsrc, -, -, -, hu, rfl⟩ := Ledger.planUndo_ok hok
    have hdrop := (h.insertUndo newId createdAt createdBy hsrc hu).runRow_deleteRuns
        (fun _ hx hd => Ledger.not_started_of_doomed D .owner 0 none hx hd) id
    rw [Ledger.pruneUnapproved, hdrop] at hrow
    have hins := (Option.filter_eq_some_iff.mp hrow).1
    by_cases hid : (w.ledger.undoRun D src newId createdAt createdBy).id ∈
        w.ledger.runs.map Run.id
    · rw [Ledger.insertRun, dif_pos hid] at hins
      exact hkept hins
    · rw [Ledger.runRow_insertRun (Table.find_eq_none.mpr hid)] at hins
      split at hins
      · obtain rfl := Option.some.inj hins
        exact ⟨Ledger.undoRun_untouched src newId createdAt createdBy, .inl rfl⟩
      · exact hkept hins
  | confirmProbe runId confirmedBy now =>
    have hsame : (Outside.perform D w (.confirmProbe runId confirmedBy now)).ledger.runRow id =
        w.ledger.runRow id := by
      simp only [Outside.perform, Ledger.confirmProbe]
      split
      · rfl
      · split <;> rfl
    exact hkept (hsame ▸ hx)
  | foreign place image => exact hkept hx

end Others

/-! ## Histories -/

/-- A world, and the pass live on it. -/
abbrev BulkConfig (V : Type) := Config (EffectOp V) EffectOp.Ans (World V) Pass Outcome

abbrev BulkAction (V : Type) := Action (Choice V) (Outside V) Pass

/-- While a pass is live, others leave the row of its run as it is : a run is resumed, approved
and taken back between its passes. -/
def Alone (D : Deps V) (x : BulkConfig V) : BulkAction V → Prop
  | .outside e => ∀ p rest, x.live = some (p, rest) →
      (e.perform D x.state).ledger.runRow p.run = x.state.ledger.runRow p.run
  | .enter _ | .advance _ | .die => True

/-- What keeps `I` along every history of passes that are alone with their runs. -/
theorem sound_of_steps [DecidableEq V] {I : Option Pass → World V → Prop}
    {Allowed : BulkConfig V → BulkAction V → Prop}
    (alone : ∀ x a, Allowed x a → Alone D x a)
    (entered : ∀ p w, Allowed ⟨w, none⟩ (.enter p) → w.ledger.WellFormed → I none w →
      I (some p) (w.push (.entered p.run)))
    (perform : ∀ p w o k c, Allowed ⟨w, some (p, .step o k)⟩ (.advance c) →
      w.ledger.WellFormed → I (some p) w → Guard D p.run (seen p.run w) o →
      I (some p) (perform D w o c).2)
    (returned : ∀ p w, I (some p) w → Ended (seen p.run w) → I none (w.push (.returned p.run)))
    (died : ∀ p w rest, Allowed ⟨w, some (p, rest)⟩ .die → I (some p) w →
      I none (w.push (.died p.run)))
    (outside : ∀ e w live, Allowed ⟨w, live⟩ (.outside e) → w.ledger.WellFormed →
      I (live.map Prod.fst) w → I (live.map Prod.fst) (e.perform D w)) :
    (bulkSystem D).Sound (fun p => seen p.run) (fun p w => w.ledger.WellFormed ∧ I p w)
      (fun p => Guard D p.run) (fun _ _ => Ended) Allowed where
  program p w _ h := by
    refine safe_runBulkEffect not_rolling_entered fun x hx => ?_
    have hrow : w.ledger.runRow p.run = some x := hx
    refine ⟨Ledger.id_of_runRow hrow, fun hs => ?_⟩
    exact (h.1.source x (Ledger.mem_of_runRow hrow) p.run hs).1 (Ledger.id_of_runRow hrow).symm
  entered p w ha h := ⟨h.1, entered p w ha h.1 h.2⟩
  perform p w o k c ha h hG :=
    ⟨wellFormed_perform h.1 hG, perform p w o k c ha h.1 h.2 hG⟩
  returned p w _ h hQ := ⟨h.1, returned p w h.2 hQ⟩
  died p w rest ha h := ⟨h.1, died p w rest ha h.2⟩
  outside e w live ha h := ⟨wellFormed_outside h.1, outside e w live ha h.1 h.2⟩
  unseen e w p rest ha h := by
    refine Seen.ext ?_ ?_
    · exact alone _ _ ha p rest rfl
    · exact trace_outside

/-- Passes and deaths alone. -/
theorem obeys_of_passes [DecidableEq V] {x : BulkConfig V} {history : List (BulkAction V)}
    (h : ∀ e, .outside e ∉ history) : (bulkSystem D).Obeys (Alone D) x history := by
  refine System.obeys_of_forall _ fun a ha y => ?_
  cases a with
  | outside e => exact absurd ha (h e)
  | enter | advance | die => trivial

theorem plainWorld_wellFormed (targetSystem : String) (atomic : Bool) (targets : List Target)
    (h : (targets.map Target.seq).Nodup) :
    (plainWorld (plainRun targetSystem atomic targets h)).ledger.WellFormed where
  source x hx s hs := by
    obtain rfl := List.mem_singleton.mp hx
    cases hs
  order := List.pairwise_singleton ..
  untouched x hx hs := by
    obtain rfl := List.mem_singleton.mp hx
    cases hs

end Lynox.Bulk
