import Lynox.Bulk.CompareAndWrite

/-!
# A run of the store and its rows in step

Histories of the passes over one run of the store, with nobody else writing it (`Solo`). Each
row then tells what its place holds, against the store `σ₀` the history began with : a target
never sent to holds what it held before, one sent to held the before-image and holds one of its
two images, the after-image once it was recorded as applied and the before-image once it was
recorded as taken back (`RowInStep`). Nothing else of the store changes.

A roll-back writes before it records, so between the two an applied target may already hold its
before-image; the trace tells.
-/

namespace Lynox.Bulk

variable {V : Type} {D : Deps V} {r : String} {σ₀ : Place → Image V}

/-! ## One row -/

/-- A roll-back wrote the target. -/
def RolledTo (r : String) (s : ℕ) (trace : List (Event V)) : Prop :=
  ∃ place held image landed ok, .wrote ⟨.rollBack, r, s⟩ place held image landed ok ∈ trace

/-- What the place of a target that was never sent to holds. -/
structure UnsentRow (J : Json V) (σ₀ σ : Place → Image V) (place : Place) (t : Target) : Prop where
  held : σ place = σ₀ place
  standing : t.undoneAt = none
  found : t.foundUnsent = true → t.appliedAt.isSome = true
  applied : t.appliedAt.isSome = true → t.foundUnsent = true ∧ σ₀ place = t.after J

/-- What the place of a target that was sent to holds. -/
structure SentRow (J : Json V) (r : String) (σ₀ σ : Place → Image V) (trace : List (Event V))
    (place : Place) (t : Target) : Prop where
  writing : t.writing = true
  found : t.foundUnsent = false
  before : σ₀ place = t.expected J
  held : σ place = t.expected J ∨ σ place = t.after J
  applied : t.appliedAt.isSome = true → t.undoneAt = none →
    σ place = t.after J ∨ RolledTo r t.seq trace
  undone : t.undoneAt.isSome = true → σ place = t.expected J

/-- What the place of a target holds, by its row. -/
structure RowInStep (J : Json V) (r : String) (σ₀ σ : Place → Image V) (trace : List (Event V))
    (place : Place) (t : Target) : Prop where
  unsent : t.writeSent = false → UnsentRow J σ₀ σ place t
  sent : t.writeSent = true → SentRow J r σ₀ σ trace place t

/-- The columns a row tells the store with. -/
def Target.marks (t : Target) : Bool × Option Time × Option Time × Bool :=
  (t.writeSent, t.appliedAt, t.undoneAt, t.foundUnsent)

section Row

variable {J : Json V} {σ σ' : Place → Image V} {trace trace' : List (Event V)} {place : Place}
  {t t' : Target}

theorem RowInStep.congr (h : RowInStep J r σ₀ σ trace place t) (hplan : t'.plan = t.plan)
    (hmarks : t'.marks = t.marks) : RowInStep J r σ₀ σ trace place t' := by
  have hwriting := Target.writing_eq_of_plan hplan
  simp only [Target.plan, TargetPlan.mk.injEq] at hplan
  simp only [Target.marks, Prod.mk.injEq] at hmarks
  obtain ⟨hseq, -, hchange, hbefore, hafter, -, -⟩ := hplan
  obtain ⟨hsent, happlied, hundone, hfound⟩ := hmarks
  have hexp : t'.expected J = t.expected J := by rw [Target.expected, Target.expected, hbefore]
  have haft : t'.after J = t.after J := by rw [Target.after, Target.after, hchange, hafter]
  refine ⟨fun hs => ?_, fun hs => ?_⟩
  · obtain ⟨h₁, h₂, h₃, h₄⟩ := h.unsent (hsent ▸ hs)
    exact ⟨h₁, by rw [hundone, h₂], by rwa [hfound, happlied], by rwa [happlied, hfound, haft]⟩
  · obtain ⟨h₁, h₂, h₃, h₄, h₅, h₆⟩ := h.sent (hsent ▸ hs)
    exact ⟨hwriting.trans h₁, hfound.trans h₂, by rw [h₃, hexp], by rwa [hexp, haft],
      by rwa [happlied, hundone, haft, hseq], by rwa [hundone, hexp]⟩

/-- The place holds what it held, and the trace only grew. -/
theorem RowInStep.mono (h : RowInStep J r σ₀ σ trace place t) (hstore : σ' place = σ place)
    (htrace : trace ⊆ trace') : RowInStep J r σ₀ σ' trace' place t := by
  refine ⟨fun hs => ?_, fun hs => ?_⟩
  · obtain ⟨h₁, h₂, h₃, h₄⟩ := h.unsent hs
    exact ⟨hstore.trans h₁, h₂, h₃, h₄⟩
  · obtain ⟨h₁, h₂, h₃, h₄, h₅, h₆⟩ := h.sent hs
    refine ⟨h₁, h₂, h₃, by rwa [hstore], fun ha hu => ?_, fun hu => hstore.trans (h₆ hu)⟩
    refine (h₅ ha hu).imp hstore.trans ?_
    rintro ⟨p, held, image, landed, ok, hmem⟩
    exact ⟨p, held, image, landed, ok, htrace hmem⟩

/-- A target the run applied and did not just find was sent to. -/
theorem RowInStep.sent_of_standing (h : RowInStep J r σ₀ σ trace place t)
    (ht : t.appliedStanding = true ∨ t.sentUnrecorded = true) :
    t.writeSent = true ∧ t.undoneAt = none := by
  rcases ht with ht | ht
  · simp only [Target.appliedStanding, Bool.and_eq_true] at ht
    refine ⟨?_, by simpa using ht.1.2⟩
    by_contra hs
    have := ((h.unsent (by simpa using hs)).applied ht.1.1.1).1
    simp [this] at ht
  · simp only [Target.sentUnrecorded, Bool.and_eq_true] at ht
    exact ⟨ht.1.1.1, by simpa using ht.1.2⟩

/-- The mark of a pending target found holding the before-image. -/
theorem RowInStep.marked (h : RowInStep J r σ₀ σ trace place t) (hpending : t.pending = true)
    (hread : σ place = t.expected J) (via : Option AttachedConnection) :
    RowInStep J r σ₀ σ trace place ((TargetEdit.sent via).apply t) := by
  simp only [Target.pending, Bool.and_eq_true, Option.isNone_iff_eq_none] at hpending
  obtain ⟨⟨⟨hwriting, happlied⟩, -⟩, hundone⟩ := hpending
  refine ⟨fun hs => (by cases hs), fun _ => ?_⟩
  rcases hsent : t.writeSent with _ | _
  · have hu := h.unsent hsent
    have hfound : t.foundUnsent = false := by
      by_contra hf
      simpa [happlied] using hu.found (by simpa using hf)
    exact ⟨hwriting, hfound, hu.held.symm.trans hread, .inl hread,
      fun ha => by simp [TargetEdit.sent, Target.noteWrite, happlied] at ha,
      fun ha => by simp [TargetEdit.sent, Target.noteWrite, hundone] at ha⟩
  · have hs := h.sent hsent
    exact ⟨hs.writing, hs.found, hs.before, hs.held, hs.applied, hs.undone⟩

/-- A pending target recorded as applied, holding the after-image. -/
theorem RowInStep.applied {result : String} {now : Time} {actual : Option (ActualImage V)}
    {via : Option AttachedConnection} {shopAddedMarkup hostRewrote : Bool}
    (h : RowInStep D.json r σ₀ σ trace place t) (hpending : t.pending = true)
    (hresult : result = "already" ∨ t.writeSent = true) (hheld : σ place = t.after D.json) :
    RowInStep D.json r σ₀ σ trace place
      ((TargetEdit.applied D true result now actual via shopAddedMarkup hostRewrote).apply t) := by
  simp only [Target.pending, Bool.and_eq_true, Option.isNone_iff_eq_none] at hpending
  obtain ⟨-, hundone⟩ := hpending
  refine ⟨fun hs => ?_, fun hs => ?_⟩
  · have hs' : t.writeSent = false := hs
    have hu := h.unsent hs'
    have halready : result = "already" := by simpa [hs'] using hresult
    exact ⟨hu.held, hundone, fun _ => rfl,
      fun _ => ⟨by simp [TargetEdit.applied, halready, hs'], hu.held.symm.trans hheld⟩⟩
  · have hs' : t.writeSent = true := hs
    have hsr := h.sent hs'
    exact ⟨hsr.writing, by simp [TargetEdit.applied, hs', hsr.found], hsr.before, hsr.held,
      fun _ _ => .inl hheld, hsr.undone⟩

/-- A target recorded as taken back, holding the before-image. -/
theorem RowInStep.undone {now : Time} (h : RowInStep J r σ₀ σ trace place t)
    (hsent : t.writeSent = true) (hheld : σ place = t.expected J) :
    RowInStep J r σ₀ σ trace place { t with undoneAt := some now } := by
  refine ⟨fun hs => absurd (hsent.symm.trans hs) (by simp), fun _ => ?_⟩
  have hsr := h.sent hsent
  exact ⟨hsr.writing, hsr.found, hsr.before, hsr.held, fun _ hu => (by cases hu), fun _ => hheld⟩

end Row

/-! ## The rows of a run -/

/-- The passes are all over one run, and nobody else writes the store. -/
def Solo (D : Deps V) (r : String) (x : BulkConfig V) (a : BulkAction V) : Prop :=
  Alone D x a ∧ match a with
    | .enter p => p.run = r
    | .outside (.foreign ..) => False
    | _ => True

/-- Entries, steps and deaths of passes over `r`. -/
def ofPasses (r : String) : BulkAction V → Bool
  | .enter p => p.run = r
  | .advance _ | .die => true
  | .outside _ => false

theorem solo_of_passes {a : BulkAction V} (h : ofPasses r a = true) (x : BulkConfig V) :
    Solo D r x a := by
  cases a with
  | enter p => exact ⟨trivial, of_decide_eq_true h⟩
  | advance | die => exact ⟨trivial, trivial⟩
  | outside e => cases h

/-- The store tells no more and no less than the rows of the run, and the last event. -/
structure InStep (D : Deps V) (r : String) (σ₀ : Place → Image V) (w : World V) (x : Run) : Prop where
  run : w.ledger.runRow r = some x
  started : x.started = true
  isLocal : x.isLocal
  tracked : x.unsentTracked = true
  keys : (x.targets.map Target.targetKey).Nodup
  rows : ∀ t ∈ x.targets, RowInStep D.json r σ₀ w.store w.trace (x.place t.targetKey) t
  others : ∀ place, (∀ t ∈ x.targets, x.place t.targetKey ≠ place) → w.store place = σ₀ place
  read : ∀ tag place i, JustRead tag place i w.trace → w.store place = i
  wrote : ∀ tag place held image ok, [.wrote tag place held image true ok] <+: w.trace →
    w.store place = image

/-- A run before its first pass. -/
structure Run.Fresh (x : Run) : Prop where
  approved : x.phase = .approved
  isLocal : x.isLocal
  tracked : x.unsentTracked = true
  keys : (x.targets.map Target.targetKey).Nodup
  untouched : x.Untouched
  unfailed : ∀ t ∈ x.targets, t.writing = true → t.error = none

theorem Run.Fresh.inStep {w : World V} {x : Run} (h : x.Fresh) (hx : w.ledger.runRow r = some x)
    (htrace : w.trace = []) : InStep D r w.store w x where
  run := hx
  started := started_of_open (.inl h.approved)
  isLocal := h.isLocal
  tracked := h.tracked
  keys := h.keys
  rows t ht := by
    have hu := h.untouched t ht
    refine ⟨fun _ => ⟨rfl, hu.undone, fun hf => ?_, fun ha => ?_⟩, fun hs => ?_⟩
    · simp [hu.found] at hf
    · simp [hu.applied] at ha
    · simp [hu.sent] at hs
  others _ _ := rfl
  read tag place i hread := by simp [htrace, JustRead] at hread
  wrote tag place held image ok hwrote := by simp [htrace] at hwrote

theorem Run.keys_of_fixed {x x' : Run} (h : x'.fixed = x.fixed) :
    x'.targets.map Target.targetKey = x.targets.map Target.targetKey := by
  have hplans : x'.targets.map Target.plan = x.targets.map Target.plan :=
    congrArg RunPlan.targets h
  have hkeys := congrArg (List.map TargetPlan.targetKey) hplans
  rwa [List.map_map, List.map_map] at hkeys

theorem Run.place_of_fixed {x x' : Run} (h : x'.fixed = x.fixed) (key : String) :
    x'.place key = x.place key := by
  have hsystem : x'.targetSystem = x.targetSystem := congrArg RunPlan.targetSystem h
  have hcollection : x'.targetCollection = x.targetCollection := congrArg RunPlan.targetCollection h
  rw [place, place, hsystem, hcollection]

theorem Run.isLocal_of_fixed {x x' : Run} (h : x'.fixed = x.fixed) : x'.isLocal ↔ x.isLocal := by
  have hsystem : x'.targetSystem = x.targetSystem := congrArg RunPlan.targetSystem h
  rw [isLocal, isLocal, hsystem]

/-- The places of two targets of a run differ. -/
theorem InStep.place_ne {w : World V} {x : Run} {t t' : Target} (h : InStep D r σ₀ w x)
    (ht : t ∈ x.targets) (ht' : t' ∈ x.targets) (hne : t' ≠ t) :
    x.place t'.targetKey ≠ x.place t.targetKey := by
  intro hplace
  have hkey : t'.targetKey = t.targetKey := congrArg Place.key hplace
  exact hne (List.inj_on_of_nodup_map h.keys ht' ht hkey)

section Steps

variable {w w' : World V} {x x' : Run}

/-- A step that leaves the store as it is. -/
theorem InStep.next {l : List (Event V)} (h : InStep D r σ₀ w x)
    (hrow : w'.ledger.runRow r = some x') (hstarted : x'.started = true)
    (hfixed : x'.fixed = x.fixed) (hstore : w'.store = w.store) (htrace : w'.trace = l ++ w.trace)
    (hrows : ∀ t ∈ x'.targets,
      RowInStep D.json r σ₀ w.store w.trace (x.place t.targetKey) t)
    (hread : ∀ tag place i, JustRead tag place i (l ++ w.trace) → w.store place = i)
    (hwrote : ∀ tag place held image ok, [.wrote tag place held image true ok] <+: l ++ w.trace →
      [.wrote tag place held image true ok] <+: w.trace) : InStep D r σ₀ w' x' where
  run := hrow
  started := hstarted
  isLocal := (Run.isLocal_of_fixed hfixed).mpr h.isLocal
  tracked := (congrArg RunPlan.unsentTracked hfixed).trans h.tracked
  keys := by rw [Run.keys_of_fixed hfixed]; exact h.keys
  rows t ht := by
    rw [Run.place_of_fixed hfixed, hstore, htrace]
    exact (hrows t ht).mono rfl (List.subset_append_right ..)
  others place hplace := by
    rw [hstore]
    refine h.others place fun t ht => ?_
    have hkey : t.targetKey ∈ x'.targets.map Target.targetKey := by
      rw [Run.keys_of_fixed hfixed]
      exact List.mem_map_of_mem ht
    obtain ⟨t', ht', hk⟩ := List.mem_map.mp hkey
    rw [← hk, ← Run.place_of_fixed hfixed]
    exact hplace t' ht'
  read tag place i hr := by
    rw [hstore]
    exact hread tag place i (htrace ▸ hr)
  wrote tag place held image ok hw := by
    rw [hstore]
    exact h.wrote tag place held image ok (hwrote tag place held image ok (htrace ▸ hw))

/-- A row edited, the others as they were. -/
theorem InStep.rows_edit {seq : ℕ} {e : TargetEdit} {t : Target} (h : InStep D r σ₀ w x)
    (he : e.KeepsPlan) (hx' : x'.targets = (x.editTarget seq e).targets)
    (ht : x.target? seq = some t)
    (hnew : RowInStep D.json r σ₀ w.store w.trace (x.place t.targetKey) (e.apply t)) :
    ∀ u ∈ x'.targets, RowInStep D.json r σ₀ w.store w.trace (x.place u.targetKey) u := by
  intro u hu
  rw [hx'] at hu
  rcases Run.mem_editTarget.mp hu with ⟨t', ht', rfl⟩ | ⟨hu, -⟩
  · obtain rfl : t = t' := Option.some.inj (ht.symm.trans ht')
    rwa [show (e.apply t).targetKey = t.targetKey from congrArg TargetPlan.targetKey (he t)]
  · exact h.rows u hu

/-- An edit that touches no mark. -/
theorem InStep.rows_keep {e : TargetEdit} (h : InStep D r σ₀ w x) (he : e.KeepsPlan)
    (hm : ∀ t, (e.apply t).marks = t.marks) (hx' : x'.targets = (x.mapTargets e).targets) :
    ∀ u ∈ x'.targets, RowInStep D.json r σ₀ w.store w.trace (x.place u.targetKey) u := by
  intro u hu
  rw [hx'] at hu
  obtain ⟨t, ht, rfl⟩ := Run.mem_mapTargets.mp hu
  rw [show (e.apply t).targetKey = t.targetKey from congrArg TargetPlan.targetKey (he t)]
  exact (h.rows t ht).congr (he t) (hm t)

theorem wrote_of_event {tag : Tag} {place : Place} {held image : Image V} {ok : Bool}
    {call : EffectCall V} {trace : List (Event V)}
    (h : [.wrote tag place held image true ok] <+: call.event.toList ++ trace) :
    [.wrote tag place held image true ok] <+: trace := by
  cases call with
  | releaseClaim | setWriting | halt => exact h
  | _ => cases (List.cons_prefix_cons.mp h).1

/-- A guarded write to the ledger keeps the rows in step. -/
theorem InStep.rows_call {call : EffectCall V} (h : InStep D r σ₀ w x)
    (hG : CallGuard D r (seen r w) call) :
    ∀ t ∈ (call.onOwn D x).targets,
      RowInStep D.json r σ₀ w.store w.trace (x.place t.targetKey) t := by
  have hsame {y : Run} (hy : (seen r w).run = some y) : y = x :=
    Option.some.inj (hy.symm.trans h.run)
  have hrow {seq : ℕ} {t : Target} (ht : x.target? seq = some t) := h.rows t (Run.mem_of_target? ht)
  cases call with
  | releaseClaim runId seq =>
    exact h.rows_keep (TargetEdit.keepsPlan_released.under _)
      (fun _ => TargetEdit.under_keeps (TargetEdit.under_keeps rfl)) rfl
  | markRefused runId seq =>
    exact h.rows_keep (TargetEdit.keepsPlan_refused.under _) (fun _ => TargetEdit.under_keeps rfl) rfl
  | recordFailed runId seq error via =>
    simp only [EffectCall.onOwn, Run.recordFailed]
    split
    · exact h.rows_keep ((TargetEdit.keepsPlan_failed error via).under _)
        (fun _ => TargetEdit.under_keeps rfl) rfl
    · exact h.rows
  | setWriting runId =>
    simp only [EffectCall.onOwn, Run.setPhase]
    split <;> exact h.rows
  | setAborted runId reason =>
    simp only [EffectCall.onOwn, Run.setPhase]
    split <;> exact h.rows
  | halt runId reason => exact h.rows
  | finish run =>
    simp only [EffectCall.onOwn, Run.setPhase]
    split <;> exact h.rows
  | markSent runId seq via =>
    obtain ⟨y, t, hgoing, ht, hpending, -, -, hread⟩ := hG
    obtain rfl := hsame hgoing.run
    refine h.rows_edit (TargetEdit.keepsPlan_sent via) rfl ht ?_
    exact (hrow ht).marked hpending (h.read _ _ _ (.inl (hread h.isLocal).1)) via
  | recordApplied run seq result now actual via shopAddedMarkup hostRewrote =>
    obtain ⟨y, t, hgoing, -, ht, hpending, hresult, hevidence⟩ := hG
    obtain rfl := hsame hgoing.run
    have hheld : w.store (y.place t.targetKey) = t.after D.json := by
      rcases (hevidence h.isLocal).2 with ⟨-, hread⟩ | ⟨-, held, hwrote⟩
      · exact h.read _ _ _ (.inl hread)
      · exact h.wrote _ _ _ _ _ hwrote
    simp only [EffectCall.onOwn, Run.recordApplied]
    split
    · refine h.rows_edit (TargetEdit.keepsPlan_applied D _ _ _ _ _ _ _) rfl ht ?_
      rw [h.tracked]
      exact (hrow ht).applied hpending hresult hheld
    · exact h.rows
  | recordUnrecordedSettled runId seq now =>
    obtain ⟨y, t, hlive, -, -, ht, hstands, hevidence⟩ := hG
    obtain rfl := hsame hlive.run
    have hheld : w.store (y.place t.targetKey) = t.expected D.json := by
      rcases hevidence with hread | ⟨held, hwrote⟩
      · exact h.read _ _ _ (.inl hread)
      · exact h.wrote _ _ _ _ _ hwrote
    refine h.rows_edit (TargetEdit.keepsPlan_settled now) rfl ht ?_
    have hsent := ((hrow ht).sent_of_standing (.inr hstands)).1
    simp only [TargetEdit.settled, TargetEdit.under]
    split
    · exact (hrow ht).undone hsent hheld
    · exact hrow ht
  | recordRolledBack run seq now =>
    obtain ⟨y, t, hlive, -, -, -, ht, hstands, held, hwrote⟩ := hG
    obtain rfl := hsame hlive.run
    have hheld : w.store (y.place t.targetKey) = t.expected D.json := h.wrote _ _ _ _ _ hwrote
    refine h.rows_edit (TargetEdit.keepsPlan_rolledBack now) rfl ht ?_
    have hsent := ((hrow ht).sent_of_standing (.inl hstands)).1
    simp only [TargetEdit.rolledBack, TargetEdit.under]
    split
    · exact (hrow ht).undone hsent hheld
    · exact hrow ht

variable {o : EffectOp V} {c : Choice V}

/-- The row of a target under a write to its place. -/
theorem RowInStep.write {σ σ' : Place → Image V} {trace : List (Event V)} {place : Place}
    {t : Target} {tag : Tag} {held image : Image V} {landed ok : Bool}
    (h : RowInStep D.json r σ₀ σ trace place t) (hsent : t.writeSent = true)
    (htag : tag.run = r ∧ tag.seq = t.seq) (himage : image = t.written D.json tag.side)
    (happlied : tag.side = .apply → t.appliedAt = none) (hundone : t.undoneAt = none)
    (hstore : σ' place = if landed then image else σ place) :
    RowInStep D.json r σ₀ σ' (.wrote tag place held image landed ok :: trace) place t := by
  obtain ⟨side, run, seq⟩ := tag
  obtain ⟨rfl, rfl⟩ := htag
  refine ⟨fun hs => absurd (hsent.symm.trans hs) (by simp), fun _ => ?_⟩
  have hs := h.sent hsent
  refine ⟨hs.writing, hs.found, hs.before, ?_, fun ha _ => ?_, fun hu => ?_⟩
  · rw [hstore, himage]
    cases landed with
    | false => exact hs.held
    | true =>
      cases side with
      | apply => exact .inr rfl
      | rollBack => exact .inl rfl
  · cases side with
    | apply => simp [happlied rfl] at ha
    | rollBack => exact .inr ⟨place, held, image, landed, ok, List.mem_cons_self⟩
  · simp [hundone] at hu

/-- A guarded write replaces what one target holds. -/
theorem InStep.write {tag : Tag} {place : Place} {image : Image V} (h : InStep D r σ₀ w x)
    (hG : Guard D r (seen r w) (.write tag place image)) :
    InStep D r σ₀ (perform D w (.write tag place image) c).2 x := by
  have hsame {y : Run} (hy : (seen r w).run = some y) : y = x :=
    Option.some.inj (hy.symm.trans h.run)
  obtain ⟨t, ht, htag, hplace, himage, hsent, happlied, hundone⟩ :
      ∃ t ∈ x.targets, (tag.run = r ∧ tag.seq = t.seq) ∧ place = x.place t.targetKey ∧
        image = t.written D.json tag.side ∧ t.writeSent = true ∧
        (tag.side = .apply → t.appliedAt = none) ∧ t.undoneAt = none := by
    obtain ⟨side, run, seq⟩ := tag
    cases side with
    | apply =>
      obtain ⟨y, t, hgoing, -, hrun, ht, hpending, hsent, hplace, himage, -, -⟩ := hG
      obtain rfl := hsame hgoing.run
      simp only [Target.pending, Bool.and_eq_true, Option.isNone_iff_eq_none] at hpending
      exact ⟨t, Run.mem_of_target? ht, ⟨hrun.trans hgoing.id, (Run.seq_of_target? ht).symm⟩,
        hplace, himage, hsent, fun _ => hpending.1.1.2, hpending.2⟩
    | rollBack =>
      obtain ⟨y, t, hlive, -, -, hrun, ht, hstands, hplace, himage, -⟩ := hG
      obtain rfl := hsame hlive.run
      obtain ⟨hsent, hundone⟩ :=
        (h.rows t (Run.mem_of_target? ht)).sent_of_standing (hstands.imp_right And.left)
      exact ⟨t, Run.mem_of_target? ht, ⟨hrun.trans hlive.id, (Run.seq_of_target? ht).symm⟩,
        hplace, himage, hsent, (by rintro ⟨⟩), hundone⟩
  subst hplace
  refine ⟨h.run, h.started, h.isLocal, h.tracked, h.keys, fun u hu => ?_, fun place hp => ?_,
    fun tag' place' i hread => ?_, fun tag' place' held image' ok hwrote => ?_⟩
  · by_cases hut : u = t
    · subst hut
      exact (h.rows u hu).write hsent htag himage happlied hundone (by simp [perform])
    · refine (h.rows u hu).mono ?_ (List.subset_cons_self _ _)
      simp [perform, h.place_ne ht hu hut]
  · have hne : place ≠ x.place t.targetKey := fun he => hp t ht he.symm
    simpa [perform, hne] using h.others place hp
  · exact absurd hread (not_justRead_cons (by simp) (by simp))
  · have he := (List.cons_prefix_cons.mp hwrote).1
    simp only [Event.wrote.injEq] at he
    obtain ⟨-, rfl, -, rfl, hlanded, -⟩ := he
    simp [perform, ← hlanded]

/-- An operation of a pass over the run keeps the rows in step. -/
theorem InStep.step (h : InStep D r σ₀ w x) (hG : Guard D r (seen r w) o) :
    InStep D r σ₀ (perform D w o c).2 (o.onRow D (w.ledger.runRow r) r r x) := by
  have hrow : (perform D w o c).2.ledger.runRow r =
      some (o.onRow D (w.ledger.runRow r) r r x) := by
    rw [runRow_perform hG, h.run]
    rfl
  have hstarted := started_onRow hG h.run h.started
  have hfixed := Run.fixed_of_plan (plan_onRow D (w.ledger.runRow r) r r o x)
  cases o with
  | call call =>
    refine h.next hrow hstarted hfixed rfl rfl ?_ (fun tag place i hread => ?_)
      fun _ _ _ _ _ hwrote => wrote_of_event hwrote
    · simp only [EffectOp.onRow, if_pos]
      exact h.rows_call hG.2
    · exact h.read tag place i (justRead_of_event hread)
  | claimTarget runId seq time =>
    refine h.next (l := []) hrow hstarted hfixed rfl rfl ?_ h.read fun _ _ _ _ _ hwrote => hwrote
    simp only [EffectOp.onRow, if_pos]
    exact h.rows_keep ((TargetEdit.keepsPlan_claimed D time).under _)
      (fun _ => TargetEdit.under_keeps (TargetEdit.under_keeps rfl)) rfl
  | read tag place =>
    rcases hc : c.throws with _ | _
    · refine h.next (l := [_]) hrow hstarted hfixed (by simp [perform, hc]; rfl)
        (by simp [perform, hc]; rfl) h.rows (fun tag' place' i hread => ?_)
        fun _ _ _ _ _ hwrote => (by cases (List.cons_prefix_cons.mp hwrote).1)
      obtain ⟨-, rfl, hfound⟩ := justRead_read hread
      exact image_of_found (Option.some.inj hfound)
    · refine h.next (l := [_]) hrow hstarted hfixed (by simp [perform, hc]; rfl)
        (by simp [perform, hc]; rfl) h.rows (fun tag' place' i hread => ?_)
        fun _ _ _ _ _ hwrote => (by cases (List.cons_prefix_cons.mp hwrote).1)
      cases (justRead_read hread).2.2
  | write tag place image => exact h.write hG
  | send tag key value =>
    refine h.next (l := [_]) hrow hstarted hfixed rfl rfl h.rows (fun _ _ _ hread => ?_)
      fun _ _ _ _ _ hwrote => (by cases (List.cons_prefix_cons.mp hwrote).1)
    exact absurd hread (not_justRead_cons (by simp) (by simp))
  | probeHoldsFor runId =>
    refine h.next (l := [_]) hrow hstarted hfixed rfl rfl h.rows (fun _ _ _ hread => ?_)
      fun _ _ _ _ _ hwrote => (by cases (List.cons_prefix_cons.mp hwrote).1)
    exact absurd hread (not_justRead_cons (by simp) (by simp))
  | _ =>
    exact h.next (l := []) hrow hstarted hfixed rfl rfl h.rows h.read
      fun _ _ _ _ _ hwrote => hwrote

/-- An event that is neither a read nor a write. -/
def Event.idle : Event V → Bool
  | .read .. | .wrote .. | .marked .. => false
  | _ => true

/-- An entry, a return or a death keeps the rows in step. -/
theorem InStep.push {e : Event V} (h : InStep D r σ₀ w x) (he : e.idle = true) :
    InStep D r σ₀ (w.push e) x := by
  refine h.next (l := [e]) h.run h.started rfl rfl rfl h.rows (fun tag place i hr => ?_)
    fun tag place held image ok hw => ?_
  · refine absurd hr (not_justRead_cons ?_ ?_)
    · rintro found rfl
      cases he
    · rintro rfl
      cases he
  · rw [← (List.cons_prefix_cons.mp hw).1] at he
    cases he

/-- The row of the run after a step of others : as it was, or resumed. -/
def Resumed (w : World V) (x x' : Run) : Prop :=
  x' = x ∨ ∃ p : ResumeParams, (x.phase = .approved ∨ x.phase = .writing) ∧
    w.ledger.writeBlocked x = none ∧
    x' = (RunEdit.resumed p x.countWriting (p.maxTargets.or x.maxTargets)).apply x

/-- The owner's operations keep the rows in step. -/
theorem InStep.owner {e : Outside V} (h : InStep D r σ₀ w x) (hwf : w.ledger.WellFormed)
    (hforeign : ∀ place image, e ≠ .foreign place image) :
    ∃ x', InStep D r σ₀ (e.perform D w) x' ∧ Resumed w x x' := by
  have hstore : (e.perform D w).store = w.store := by
    cases e with
    | foreign place image => exact absurd rfl (hforeign place image)
    | select | approve | resume | planUndo | confirmProbe => rfl
  have hnext {x' : Run} (hrow : (e.perform D w).ledger.runRow r = some x')
      (hstarted : x'.started = true) (hfixed : x'.fixed = x.fixed)
      (hrows : ∀ t ∈ x'.targets,
        RowInStep D.json r σ₀ w.store w.trace (x.place t.targetKey) t) :
      InStep D r σ₀ (e.perform D w) x' :=
    h.next (l := []) hrow hstarted hfixed hstore trace_outside hrows h.read
      fun _ _ _ _ _ hwrote => hwrote
  rcases runRow_outside (e := e) (D := D) hwf h.run h.started with hrow | ⟨p, hphase, hb, hrow⟩
  · exact ⟨x, hnext hrow h.started rfl h.rows, .inl rfl⟩
  · have hkeeps : TargetEdit.retry.KeepsPlan := TargetEdit.KeepsPlan.under (fun _ => rfl) _
    have hplan := Run.plan_mapTargets hkeeps x
    refine ⟨_, hnext hrow (Run.started_of_open hphase) ?_ ?_, .inr ⟨p, hphase, hb, rfl⟩⟩
    · exact congrArg (fun q : RunPlan => { q with approvalChecksum := none, maxTargets := none }) hplan
    · exact h.rows_keep hkeeps (fun _ => TargetEdit.under_keeps rfl) rfl

end Steps

end Lynox.Bulk
