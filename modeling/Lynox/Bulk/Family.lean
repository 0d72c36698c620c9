import Lynox.Bulk.Lifecycle
import Lynox.Data.Forest

/-!
# One writer in a family

A run, its undos and theirs are a family : linked by `sourceRunId`, to any depth. The ledger
keeps their links a forest, since a source is there before the runs that take it back, so the
walk of `openInFamily` up to the first run and down again finds every run of the family. An
approval and a resume ask it, no other statement lets a run write, and a planned undo joins
its family without writing. So at most one run of a family may write.
-/

namespace Lynox.Bulk

open Forest

variable {V : Type} {D : Deps V}

/-! ## The walk -/

namespace Ledger

variable {L : Ledger}

/-- Of one family : linked by sources, to any depth. -/
def SameFamily (L : Ledger) : String → String → Prop :=
  SameTree L.sourceOf

/-- The place of a run in the order of insertion. -/
def age (L : Ledger) (id : String) : ℕ :=
  (L.runs.map Run.id).idxOf id

theorem age_le (id : String) : L.age id ≤ L.runs.length := by
  simpa [age] using List.idxOf_le_length (a := id) (l := L.runs.map Run.id)

theorem sourceOf_eq_some {a b : String} (h : L.sourceOf a = some b) :
    ∃ x, L.runRow a = some x ∧ x.sourceRunId = some b := by
  simpa [sourceOf, Option.bind_eq_some_iff] using h

/-- A source is older than the run that takes it back. -/
theorem Staged.age_lt (hL : L.Staged) {a b : String} (h : L.sourceOf a = some b) :
    L.age b < L.age a := by
  obtain ⟨x, hx, hs⟩ := sourceOf_eq_some h
  have hid := id_of_runRow hx
  obtain ⟨hne, y, hy, -⟩ := hL.source x (mem_of_runRow hx) b hs
  have ha : L.age a < (L.runs.map Run.id).length :=
    List.idxOf_lt_length_of_mem (hid ▸ List.mem_map_of_mem (mem_of_runRow hx))
  have hb : L.age b < (L.runs.map Run.id).length :=
    List.idxOf_lt_length_of_mem (id_of_runRow hy ▸ List.mem_map_of_mem (mem_of_runRow hy))
  have hrow : ∀ {id : String} {z : Run}, L.runRow id = some z →
      ∀ hlt : L.age id < L.runs.length, L.runs[L.age id] = z := by
    intro id z hz hlt
    have hkey : L.runs[L.age id].id = id := by
      have hlt' : (L.runs.map Run.id).idxOf id < (L.runs.map Run.id).length := by
        simpa [age] using hlt
      exact (List.getElem_map Run.id).symm.trans (List.getElem_idxOf hlt')
    have hrow := runRow_of_mem (List.getElem_mem hlt)
    rw [hkey] at hrow
    exact Option.some.inj (hrow.symm.trans hz)
  rw [List.length_map] at ha hb
  by_contra hnot
  have hle : L.age a ≤ L.age b := Nat.not_lt.mp hnot
  rcases Nat.lt_or_eq_of_le hle with hlt | heq
  · have := List.pairwise_iff_getElem.mp hL.order _ _ ha hb hlt
    rw [hrow hx ha, hrow hy hb, id_of_runRow hy] at this
    exact this hs
  · have hsame := hrow hx ha
    simp only [heq] at hsame
    rw [hrow hy hb] at hsame
    rw [← id_of_runRow hy, hsame] at hne
    exact hne rfl

/-- The walk up ends at the root : it sees no run twice, and every step is older. -/
theorem isRootOf_rootOf (hL : L.Staged) (fuel : ℕ) (seen : List String) (a : String)
    (hfuel : L.age a < fuel) (hseen : ∀ s ∈ seen, L.age a < L.age s) :
    IsRootOf L.sourceOf (L.rootOf fuel seen a) a := by
  induction fuel generalizing seen a with
  | zero => omega
  | succ fuel ih =>
    unfold rootOf
    split
    · next hnone => exact ⟨.refl, hnone⟩
    · next b hb =>
      have hage := hL.age_lt hb
      have hnew : ∀ s ∈ a :: seen, L.age b < L.age s := by
        intro s hs
        rcases List.mem_cons.mp hs with rfl | hs
        · exact hage
        · exact hage.trans (hseen s hs)
      have hnot : b ∉ a :: seen := fun hmem => absurd (hnew b hmem) (Nat.lt_irrefl _)
      rw [if_neg hnot]
      exact (isRootOf_parent hb).mpr (ih (a :: seen) b (by omega) hnew)

theorem mem_familyStep {ids : List String} {a b : String} (ha : a ∈ ids)
    (h : L.sourceOf b = some a) : b ∈ L.familyStep ids := by
  obtain ⟨x, hx, hs⟩ := sourceOf_eq_some h
  rw [familyStep, List.mem_append]
  by_cases hb : b ∈ ids
  · exact .inl hb
  · refine .inr (List.mem_map.mpr ⟨x, List.mem_filter.mpr ⟨mem_of_runRow hx, ?_⟩, id_of_runRow hx⟩)
    simp [hs, ha, id_of_runRow hx, hb]

/-- The walk finds every run of the family. -/
theorem mem_family (hL : L.Staged) {a b : String} (h : L.SameFamily a b) :
    b ∈ L.familyUnder (L.rootOf (L.runs.length + 1) [] a) := by
  have hroot := isRootOf_rootOf hL (L.runs.length + 1) [] a
    (Nat.lt_succ_of_le (age_le a)) (by simp)
  have hpath := (h.isRootOf_iff.mp hroot).1
  have hmem := mem_iterate (fun _ _ => hL.age_lt) (fun ids => List.subset_append_left ids _)
    (fun _ _ _ => mem_familyStep) hpath
  exact subset_iterate (fun ids => List.subset_append_left ids _) (age_le b) _ hmem

theorem eq_of_openInFamily (hL : L.Staged) {id : String}
    (halone : L.openInFamily id (some id) = none) {y : Run} (hy : y ∈ L.runs)
    (hopen : y.mayWrite = true) (h : L.SameFamily id y.id) : y.id = id := by
  by_contra hne
  have hnone := List.find?_eq_none.mp (Option.map_eq_none_iff.mp halone) y hy
  simp [mem_family hL h, hopen, hne] at hnone

/-! ## Writers -/

/-- At most one run of a family may write. -/
def OneWriter (L : Ledger) : Prop :=
  ∀ x ∈ L.runs, ∀ y ∈ L.runs, x.mayWrite = true → y.mayWrite = true →
    L.SameFamily x.id y.id → x.id = y.id

end Ledger

/-- No move opens a run. -/
theorem Run.Move.mayWrite {x x' : Run} (h : x.Move x') (ho : x'.mayWrite = true) :
    x.mayWrite = true := by
  have hphase : (x'.phase = .approved ∨ x'.phase = .writing) ∧ x'.haltReason = none := by
    simpa [Run.mayWrite] using ho
  have hsame (stage : x'.stage = x.stage) : x.mayWrite = true := by
    rw [Run.mayWrite, show x'.phase = x.phase from congrArg RunStage.phase stage,
      show x'.haltReason = x.haltReason from congrArg RunStage.haltReason stage] at ho
    exact ho
  cases h with
  | notes frame terms stage decided marks => exact hsame stage
  | records approved frame terms stage decided marked => exact hsame stage
  | prepares planned frame terms stage prepared => exact hsame stage
  | selects previewed frame terms stage targets => exact hsame stage
  | turns approved frame terms targets list left opened ended => exact opened ho
  | lists planned frame source approved targets phase => simp [phase] at hphase
  | previews planned frame source approved targets phase => simp [phase] at hphase
  | ends unapproved frame terms targets phase => simp [phase] at hphase
  | halts frame terms targets phase list cap reason =>
    obtain ⟨reason, hhalt, -⟩ := reason
    simp [hhalt] at hphase

theorem Run.not_mayWrite_of_unapproved {x : Run} (h : x.unapproved = true) :
    x.mayWrite = false := by
  simp only [Run.unapproved, Bool.or_eq_true, decide_eq_true_eq] at h
  rcases h with h | h <;> simp [Run.mayWrite, h]

namespace Ledger

variable {L L' : Ledger}

theorem sourceOf_mapRuns {e : RunEdit}
    (h : ∀ x ∈ L.runs, (e.apply x).sourceRunId = x.sourceRunId) :
    (L.mapRuns e).sourceOf = L.sourceOf := by
  funext id
  rw [sourceOf, sourceOf, runRow_mapRuns]
  rcases hrow : L.runRow id with _ | x
  · rfl
  · exact h x (mem_of_runRow hrow)

/-- Rows changed in place with their links, none of them opened. -/
theorem OneWriter.mapRuns {e : RunEdit} (h : L.OneWriter)
    (hsource : ∀ x ∈ L.runs, (e.apply x).sourceRunId = x.sourceRunId)
    (hopen : ∀ x ∈ L.runs, (e.apply x).mayWrite = true → x.mayWrite = true) :
    (L.mapRuns e).OneWriter := by
  intro x hx y hy hox hoy hfamily
  obtain ⟨a, ha, rfl⟩ := mem_mapRuns.mp hx
  obtain ⟨b, hb, rfl⟩ := mem_mapRuns.mp hy
  rw [SameFamily, sourceOf_mapRuns hsource, e.keeps, e.keeps] at hfamily
  rw [e.keeps, e.keeps]
  exact h a ha b hb (hopen a ha hox) (hopen b hb hoy) hfamily

/-- One run opened while no other of its family may write. -/
theorem OneWriter.opens {e : RunEdit} {id : String} {x : Run} (h : L.OneWriter)
    (row : L.runRow id = some x) (hsource : (e.apply x).sourceRunId = x.sourceRunId)
    (halone : ∀ y ∈ L.runs, y.mayWrite = true → L.SameFamily id y.id → y.id = id) :
    (L.editRun id e).OneWriter := by
  have hlinks := sourceOf_mapRuns
    (forall_under (P := fun y y' => y'.sourceRunId = y.sourceRunId) row hsource fun _ _ => rfl)
  have hother {z : Run} (hz : z ∈ (L.editRun id e).runs) (hid : z.id ≠ id) : z ∈ L.runs := by
    have hrow := runRow_of_mem hz
    rw [runRow_editRun_ne hid] at hrow
    exact mem_of_runRow hrow
  intro a ha b hb hoa hob hfamily
  rw [SameFamily, editRun, hlinks] at hfamily
  by_cases hida : a.id = id <;> by_cases hidb : b.id = id
  · exact hida.trans hidb.symm
  · exact absurd (halone b (hother hb hidb) hob (hida ▸ hfamily)) hidb
  · exact absurd (halone a (hother ha hida) hoa (hidb ▸ hfamily.symm)) hida
  · exact h a (hother ha hida) b (hother hb hidb) hoa hob hfamily

/-- A new run hangs below its source, so it links no two families. -/
theorem sameFamily_of_insertRun {r : Run} (hL : L.Staged) (new : r.New L) {a b : String}
    (ha : a ≠ r.id) (hb : b ≠ r.id) (h : (L.insertRun r).SameFamily a b) : L.SameFamily a b := by
  let f : String → String := fun c => if c = r.id then r.sourceRunId.getD c else c
  have hf {c : String} (hc : c ≠ r.id) : f c = c := if_neg hc
  have hmap : ∀ c d, (L.insertRun r).sourceOf c = some d → SameTree L.sourceOf (f c) (f d) := by
    intro c d hcd
    obtain ⟨x, hx, hs⟩ := sourceOf_eq_some hcd
    rw [runRow_insertRun new.fresh] at hx
    split at hx
    · next hid =>
      obtain rfl := Option.some.inj hx
      obtain ⟨y, hy, -⟩ := new.source d hs
      have hd : d ≠ r.id := by
        rintro rfl
        simp [new.fresh] at hy
      rw [hf hd]
      simp only [f, hid, if_true, hs, Option.getD_some]
      exact .refl _
    · next hid =>
      obtain ⟨-, y, hy, -⟩ := hL.source x (mem_of_runRow hx) d hs
      have hd : d ≠ r.id := by
        rintro rfl
        simp [new.fresh] at hy
      rw [hf (Ne.symm hid), hf hd]
      refine .rel _ _ ?_
      rw [sourceOf, hx]
      exact hs
  have := SameTree.map hmap h
  rwa [hf ha, hf hb] at this

theorem OneWriter.statement (hL : L.Staged) (h : L.OneWriter) (hs : Statement D L L') :
    L'.OneWriter := by
  cases hs with
  | rows e moves =>
    exact h.mapRuns (fun x hx => (moves x hx).source) fun x hx => (moves x hx).mayWrite
  | starts e row start reader judge =>
    refine h.mapRuns (forall_under (P := fun y y' => y'.sourceRunId = y.sourceRunId) row
        start.source fun _ _ => rfl)
      (forall_under (P := fun y y' => y'.mayWrite = true → y.mayWrite = true) row (fun ho => ?_)
        fun _ _ ho => ho)
    rw [Run.not_mayWrite_of_unapproved (Run.unapproved_of_planned start.phase)] at ho
    cases ho
  | opens e row opening alone =>
    exact h.opens row opening.source fun y hy ho hfamily => eq_of_openInFamily hL alone hy ho hfamily
  | @inserts r new =>
    have hold {z : Run} (hz : z ∈ (L.insertRun r).runs) (ho : z.mayWrite = true) :
        z ∈ L.runs ∧ z.id ≠ r.id := by
      rw [runs_insertRun new.fresh, List.mem_append, List.mem_singleton] at hz
      rcases hz with hz | rfl
      · refine ⟨hz, fun hid => ?_⟩
        have hrow := runRow_of_mem hz
        rw [hid, new.fresh] at hrow
        cases hrow
      · rw [Run.not_mayWrite_of_unapproved new.unapproved] at ho
        cases ho
    intro x hx y hy hox hoy hfamily
    obtain ⟨hx', hxne⟩ := hold hx hox
    obtain ⟨hy', hyne⟩ := hold hy hoy
    exact h x hx' y hy' hox hoy (sameFamily_of_insertRun hL new hxne hyne hfamily)
  | deletes p unapproved =>
    have hruns := hL.runs_deleteRuns unapproved
    have hsub {z : Run} (hz : z ∈ (L.deleteRuns p).runs) : z ∈ L.runs :=
      List.mem_of_mem_filter (hruns ▸ hz)
    have hlinks : ∀ a b, (L.deleteRuns p).sourceOf a = some b → L.sourceOf a = some b := by
      intro a b hab
      obtain ⟨z, hz, hs⟩ := sourceOf_eq_some hab
      have hrow := runRow_of_mem (hsub (mem_of_runRow hz))
      rw [sourceOf, ← id_of_runRow hz, hrow]
      exact hs
    intro x hx y hy hox hoy hfamily
    exact h x (hsub hx) y (hsub hy) hox hoy (Relation.EqvGen.mono hlinks _ _ hfamily)
  | files probes => exact h

variable [DecidableEq V] {ops : List (LedgerOp V)}

/-- At most one run of a family is approved or writing and not halted. -/
theorem one_writer_in_a_family (hops : Run.Obeys (step D) LedgerOp.Allowed empty ops) :
    ∀ x ∈ (afterOps D ops).runs, ∀ y ∈ (afterOps D ops).runs,
      x.mayWrite = true → y.mayWrite = true → (afterOps D ops).SameFamily x.id y.id → x = y := by
  intro x hx y hy hox hoy hfamily
  have hone := (invariant_afterOps (I := OneWriter) (fun hL hI hs => OneWriter.statement hL hI hs)
    (by simp [OneWriter, empty]) hops).2
  have hid := hone x hx y hy hox hoy hfamily
  exact Option.some.inj ((runRow_of_mem hx).symm.trans (hid ▸ runRow_of_mem hy))

/-- The run of `externalPreview` sends to its target and is halted; its undo is approved. -/
def haltedWithUndo : List (LedgerOp Bool) :=
  externalPreview ++
    [.effect (.setWriting "r"), .effect (.markSent "r" 0 none), .halt "r" .timeBudget,
      .planUndo "r" "u" 1 none, .approve "u" { checksum := "hash" }]

theorem undo_is_the_writer :
    ∃ x ∈ (afterOps plainDeps haltedWithUndo).runs, x.id = "u" ∧ x.mayWrite = true ∧
      ∀ y ∈ (afterOps plainDeps haltedWithUndo).runs, y.mayWrite = true →
        (afterOps plainDeps haltedWithUndo).SameFamily y.id "u" → y = x := by
  have hobeys : Run.Obeys (step plainDeps) LedgerOp.Allowed empty haltedWithUndo := by
    refine Run.obeys_append.mpr ⟨obeys_externalPreview 5, EffectCall.Fits.of_approved ?_ rfl rfl,
      EffectCall.Fits.of_approved ?_ rfl rfl, rfl, ?_, trivial, trivial⟩
    · decide +kernel
    · decide +kernel
    · exact Option.isNone_iff_eq_none.mp (by decide +kernel)
  have hrun : (afterOps plainDeps haltedWithUndo).runs.map (fun x => (x.id, x.mayWrite)) =
      [("r", false), ("u", true)] := by
    decide +kernel
  obtain ⟨x, hmem, hx⟩ := List.mem_map.mp
    (hrun ▸ by simp : ("u", true) ∈ (afterOps plainDeps haltedWithUndo).runs.map
      fun x => (x.id, x.mayWrite))
  obtain ⟨hid, hopen⟩ := Prod.mk.inj hx
  refine ⟨x, hmem, hid, hopen, fun y hy ho hfamily => ?_⟩
  exact one_writer_in_a_family hobeys y hy x hmem ho hopen (hid ▸ hfamily)

end Ledger

end Lynox.Bulk
