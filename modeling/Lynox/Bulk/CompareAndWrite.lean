import Lynox.Bulk.Histories

/-!
# No foreign change is overwritten

A pass writes a place of the store only right after it read, there, the image it replaces : the
before-image when it applies a target, the after-image when it takes it back. `Between` is the
one stretch a foreign write is kept out of, from that read to the write it leads to; outside of
it others write what they like, whenever they like. `Holds` carries the image over that stretch.
-/

namespace Lynox.Bulk

variable {V : Type} {D : Deps V}

/-! ## The stretch between a read and its write -/

/-- The image a pass replaces. -/
def Target.replaced (J : Json V) (t : Target) : Side → Image V
  | .apply => t.expected J
  | .rollBack => t.after J

/-- The image a pass writes. -/
def Target.written (J : Json V) (t : Target) : Side → Image V
  | .apply => t.after J
  | .rollBack => t.expected J

/-- The last thing done is a read of the target that found `i`, or the mark that follows it. -/
def JustRead (tag : Tag) (place : Place) (i : Image V) (trace : List (Event V)) : Prop :=
  [.read tag place (some (.image i))] <+: trace ∨
    [.marked tag.run tag.seq, .read tag place (some (.image i))] <+: trace

/-- Between the read of a target and the write it leads to : the read found the image to
replace. An image found as planned leads to no write. -/
def Between (D : Deps V) (w : World V) (place : Place) (tag : Tag) (i : Image V) : Prop :=
  JustRead tag place i w.trace ∧ ∃ x t, w.ledger.runRow tag.run = some x ∧
    x.target? tag.seq = some t ∧ i = t.replaced D.json tag.side ∧
    (tag.side = .apply → t.expected D.json ≠ t.after D.json)

/-- Passes are alone with their runs, and nobody else writes a place between the read and the
write of a pass. -/
def Undisturbed (D : Deps V) (x : BulkConfig V) (a : BulkAction V) : Prop :=
  Alone D x a ∧ match a with
    | .outside (.foreign place _) => ∀ tag i, ¬ Between D x.state place tag i
    | _ => True

/-! ## What is read is held -/

/-- What a pass read to replace is still there when it writes. -/
structure Holds (D : Deps V) (w : World V) : Prop where
  begun : ∀ tag place i, JustRead tag place i w.trace →
    ∃ x, w.ledger.runRow tag.run = some x ∧ x.started = true
  held : ∀ tag place i, Between D w place tag i → w.store place = i

theorem images_of_plan {t t' : Target} (h : t'.plan = t.plan) :
    t'.expected D.json = t.expected D.json ∧ t'.after D.json = t.after D.json := by
  simp only [Target.plan, TargetPlan.mk.injEq] at h
  obtain ⟨-, -, hchange, hbefore, hafter, -, -⟩ := h
  constructor
  · rw [Target.expected, Target.expected, hbefore]
  · rw [Target.after, Target.after, hchange, hafter]

/-- The rows of a run keep what was planned for its targets. -/
def TargetsKept (x x' : Run) : Prop :=
  x'.targets.map Target.plan = x.targets.map Target.plan

theorem TargetsKept.target? {x x' : Run} {seq : ℕ} {t' : Target} (h : TargetsKept x x')
    (ht : x'.target? seq = some t') : ∃ t, x.target? seq = some t ∧ t'.plan = t.plan := by
  have hsame : (x.target? seq).map Target.plan = (x'.target? seq).map Target.plan := by
    rw [Run.plan_target?, Run.plan_target?]
    exact congrArg (Table.find TargetPlan.seq · seq) h.symm
  rw [ht] at hsame
  obtain ⟨t, ht, hplan⟩ := Option.map_eq_some_iff.mp hsame
  exact ⟨t, ht, hplan.symm⟩

/-- A step after which the pass is where it was, over the same store. -/
theorem Holds.next {w w' : World V} (h : Holds D w) (hstore : w'.store = w.store)
    (htrace : ∀ tag place i, JustRead tag place i w'.trace → JustRead tag place i w.trace)
    (hrow : ∀ r x, w.ledger.runRow r = some x → x.started = true →
      ∃ x', w'.ledger.runRow r = some x' ∧ x'.started = true ∧ TargetsKept x x') :
    Holds D w' := by
  refine ⟨fun tag place i hread => ?_, ?_⟩
  · obtain ⟨x, hx, hs⟩ := h.begun tag place i (htrace tag place i hread)
    obtain ⟨x', hx', hs', -⟩ := hrow tag.run x hx hs
    exact ⟨x', hx', hs'⟩
  · rintro tag place i ⟨hread, y, t', hy, ht', hi, hne⟩
    obtain ⟨x, hx, hs⟩ := h.begun tag place i (htrace tag place i hread)
    obtain ⟨x', hx', -, hkept⟩ := hrow tag.run x hx hs
    obtain rfl : x' = y := Option.some.inj (hx'.symm.trans hy)
    obtain ⟨t, ht, hplan⟩ := hkept.target? ht'
    obtain ⟨hexp, hafter⟩ := images_of_plan (D := D) hplan
    have hreplaced : t'.replaced D.json tag.side = t.replaced D.json tag.side := by
      unfold Target.replaced
      split
      · exact hexp
      · exact hafter
    rw [hstore]
    exact h.held tag place i ⟨htrace tag place i hread, x, t, hx, ht, hi.trans hreplaced,
      by rwa [← hexp, ← hafter]⟩

/-- A step that ends the stretch. -/
theorem Holds.clear {w : World V} (h : ∀ tag place i, ¬ JustRead tag place i w.trace) :
    Holds D w :=
  ⟨fun tag place i hread => absurd hread (h tag place i),
    fun tag place i hb => absurd hb.1 (h tag place i)⟩

theorem not_justRead_cons {tag : Tag} {place : Place} {i : Image V} {e : Event V}
    {trace : List (Event V)} (hread : ∀ found, e ≠ .read tag place found)
    (hmark : e ≠ .marked tag.run tag.seq) : ¬ JustRead tag place i (e :: trace) := by
  rintro (h | h)
  · exact hread _ (List.cons_prefix_cons.mp h).1.symm
  · exact hmark (List.cons_prefix_cons.mp h).1.symm

theorem justRead_read {tag tag' : Tag} {place place' : Place} {i : Image V}
    {found : Option (Found V)} {trace : List (Event V)}
    (h : JustRead tag' place' i (.read tag place found :: trace)) :
    tag' = tag ∧ place' = place ∧ found = some (.image i) := by
  rcases h with h | h
  · have := (List.cons_prefix_cons.mp h).1
    simp only [Event.read.injEq] at this
    exact ⟨this.1, this.2.1, this.2.2.symm⟩
  · cases (List.cons_prefix_cons.mp h).1

/-- An image that was read is the one the store holds. -/
theorem image_of_found {strange : Option Strange} {held i : Image V}
    (h : (strange.map Strange.found).getD (.image held) = .image i) : held = i := by
  rcases strange with _ | strange
  · exact Found.image.inj h
  · cases strange <;> cases h

/-- A write to the ledger after a read that leads to a write is its mark, or leaves nothing in
the trace. -/
theorem justRead_of_event {tag : Tag} {place : Place} {i : Image V} {call : EffectCall V}
    {trace : List (Event V)} (h : JustRead tag place i (call.event.toList ++ trace)) :
    JustRead tag place i trace := by
  cases call with
  | markSent runId seq via =>
    rcases h with h | h
    · cases (List.cons_prefix_cons.mp h).1
    · exact .inl (List.cons_prefix_cons.mp h).2
  | releaseClaim | setWriting | halt => exact h
  | _ => exact absurd h (not_justRead_cons (by simp) (by simp))

/-! ## Steps -/

variable {w : World V} {c : Choice V}

theorem rowsKept_perform {p : String} {o : EffectOp V} (hG : Guard D p (seen p w) o) (r : String)
    (x : Run) (hx : w.ledger.runRow r = some x) (hs : x.started = true) :
    ∃ x', (perform D w o c).2.ledger.runRow r = some x' ∧ x'.started = true ∧
      TargetsKept x x' := by
  refine ⟨_, (runRow_perform hG).trans (by rw [hx]; rfl), started_onRow hG hx hs, ?_⟩
  exact congrArg RunPlan.targets (plan_onRow D _ p r o x)

theorem Holds.step {p : String} {o : EffectOp V} (h : Holds D w) (hG : Guard D p (seen p w) o) :
    Holds D (perform D w o c).2 := by
  have hrows := rowsKept_perform (c := c) hG
  cases o with
  | read tag place =>
    obtain ⟨x, t, hlive, -, htag, -, -⟩ := hG
    have hx : w.ledger.runRow tag.run = some x := by
      rw [htag, hlive.id]
      exact hlive.run
    simp only [perform]
    split
    · refine Holds.clear fun tag' place' i hread => ?_
      cases (justRead_read hread).2.2
    · refine ⟨fun tag' place' i hread => ?_, fun tag' place' i hb => ?_⟩
      · obtain ⟨rfl, -, -⟩ := justRead_read hread
        exact ⟨x, hx, hlive.started⟩
      · obtain ⟨-, rfl, hfound⟩ := justRead_read hb.1
        exact image_of_found (Option.some.inj hfound)
  | call call => exact h.next rfl (fun _ _ _ hread => justRead_of_event hread) hrows
  | write tag place image =>
    exact Holds.clear fun _ _ _ => not_justRead_cons (by simp) (by simp)
  | send tag key value => exact Holds.clear fun _ _ _ => not_justRead_cons (by simp) (by simp)
  | probeHoldsFor runId => exact Holds.clear fun _ _ _ => not_justRead_cons (by simp) (by simp)
  | _ => exact h.next rfl (fun _ _ _ hread => hread) hrows

theorem Holds.others {e : Outside V} (h : Holds D w) (hwf : w.ledger.WellFormed)
    (hforeign : ∀ place image, e = .foreign place image → ∀ tag i, ¬ Between D w place tag i) :
    Holds D (e.perform D w) := by
  have hrows (r : String) (x : Run) (hx : w.ledger.runRow r = some x) (hs : x.started = true) :
      ∃ x', (e.perform D w).ledger.runRow r = some x' ∧ x'.started = true ∧ TargetsKept x x' := by
    rcases runRow_outside (e := e) (D := D) hwf hx hs with hrow | ⟨p, hphase, -, hrow⟩
    · exact ⟨x, hrow, hs, rfl⟩
    · refine ⟨_, hrow, Run.started_of_open hphase, ?_⟩
      have hkeeps : TargetEdit.retry.KeepsPlan := TargetEdit.KeepsPlan.under (fun _ => rfl) _
      exact congrArg RunPlan.targets (Run.plan_mapTargets hkeeps x)
  cases e with
  | foreign place image =>
    refine ⟨h.begun, fun tag place' i hb => ?_⟩
    have hne : place' ≠ place := by
      rintro rfl
      exact hforeign _ _ rfl tag i hb
    simp only [Outside.perform, hne, if_false]
    exact h.held tag place' i hb
  | select | approve | resume | planUndo | confirmProbe =>
    exact h.next rfl (fun _ _ _ hread => hread) hrows

/-! ## Histories -/

variable [DecidableEq V]

theorem sound_holds (D : Deps V) :
    (bulkSystem D).Sound (fun p => seen p.run) (fun _ w => w.ledger.WellFormed ∧ Holds D w)
      (fun p => Guard D p.run) (fun _ _ => Ended) (Undisturbed D) := by
  refine sound_of_steps (fun _ _ h => h.1) (fun p w _ _ _ => ?_)
    (fun _ _ _ _ _ _ _ h hG => h.step hG) (fun p w _ _ => ?_) (fun p w _ _ _ => ?_)
    fun e w live ha hwf h => h.others hwf ?_
  · exact Holds.clear fun _ _ _ => not_justRead_cons (by simp) (by simp)
  · exact Holds.clear fun _ _ _ => not_justRead_cons (by simp) (by simp)
  · exact Holds.clear fun _ _ _ => not_justRead_cons (by simp) (by simp)
  · rintro place image rfl
    exact ha.2

omit [DecidableEq V] in
/-- The operation behind a write in the trace. -/
theorem wrote_inv {o : EffectOp V} {tag : Tag} {place : Place} {held image : Image V}
    {landed ok : Bool}
    (h : (perform D w o c).2.trace = .wrote tag place held image landed ok :: w.trace) :
    o = .write tag place image ∧ held = w.store place := by
  cases o with
  | write tag' place' image' =>
    have he := (List.cons.inj h).1
    simp only [Event.wrote.injEq] at he
    obtain ⟨rfl, rfl, rfl, rfl, -, -⟩ := he
    exact ⟨rfl, rfl⟩
  | call call => cases call <;> simp [perform, EffectCall.event] at h
  | read tag' place' =>
    simp only [perform] at h
    split at h <;> cases (List.cons.inj h).1
  | send | probeHoldsFor => cases (List.cons.inj h).1
  | _ => simp [perform] at h

omit [DecidableEq V] in
/-- The operation behind a recorded write in the trace. -/
theorem applied_inv {o : EffectOp V} {r : String} {s : ℕ}
    (h : (perform D w o c).2.trace = .applied r s :: w.trace) :
    ∃ run result now actual via markup rewrote, run.id = r ∧
      o = .call (.recordApplied run s result now actual via markup rewrote) := by
  cases o with
  | call call =>
    cases call with
    | recordApplied run seq result now actual via markup rewrote =>
      have he := (List.cons.inj h).1
      simp only [Event.applied.injEq] at he
      exact ⟨run, result, now, actual, via, markup, rewrote, he.1, he.2 ▸ rfl⟩
    | _ =>
      simp [perform, EffectCall.event] at h
  | read tag' place' =>
    simp only [perform] at h
    split at h <;> cases (List.cons.inj h).1
  | send | probeHoldsFor | write => cases (List.cons.inj h).1
  | _ => simp [perform] at h

omit [DecidableEq V] in
/-- The store changes under a write alone, and at its place. -/
theorem store_perform {o : EffectOp V} {place : Place}
    (h : (perform D w o c).2.store place ≠ w.store place) :
    ∃ tag held image landed ok,
      (perform D w o c).2.trace = .wrote tag place held image landed ok :: w.trace := by
  cases o with
  | write tag place' image =>
    by_cases hp : place = place'
    · subst hp
      exact ⟨tag, _, image, _, _, rfl⟩
    · simp [perform, hp] at h
  | read tag' place' =>
    simp only [perform] at h
    split at h <;> exact absurd rfl h
  | _ => exact absurd rfl h

omit [DecidableEq V] in
/-- A guarded write replaces what it just read, and that is what the store holds. -/
theorem Holds.write {p : String} {tag : Tag} {place : Place} {image : Image V} (h : Holds D w)
    (hG : Guard D p (seen p w) (.write tag place image)) :
    ∃ x t, w.ledger.runRow tag.run = some x ∧ x.target? tag.seq = some t ∧
      place = x.place t.targetKey ∧ JustRead tag place (t.replaced D.json tag.side) w.trace ∧
      w.store place = t.replaced D.json tag.side ∧ image = t.written D.json tag.side := by
  obtain ⟨side, run, seq⟩ := tag
  cases side with
  | apply =>
    obtain ⟨x, t, hgoing, -, hrun, ht, -, -, hplace, himage, hne, hlast⟩ := hG
    have hx : w.ledger.runRow run = some x := by
      rw [show run = x.id from hrun, hgoing.id]
      exact hgoing.run
    have hread : JustRead ⟨.apply, run, seq⟩ place (t.expected D.json) w.trace := by
      refine .inr ?_
      rw [← hgoing.id, ← show run = x.id from hrun] at hlast
      exact hlast
    exact ⟨x, t, hx, ht, hplace, hread, h.held _ _ _ ⟨hread, x, t, hx, ht, rfl, fun _ => hne⟩,
      himage⟩
  | rollBack =>
    obtain ⟨x, t, hlive, -, -, hrun, ht, -, hplace, himage, hlast⟩ := hG
    have hx : w.ledger.runRow run = some x := by
      rw [show run = x.id from hrun, hlive.id]
      exact hlive.run
    exact ⟨x, t, hx, ht, hplace, .inl hlast,
      h.held _ _ _ ⟨.inl hlast, x, t, hx, ht, rfl, by rintro ⟨⟩⟩, himage⟩

/-- The evidence on which a target of the store is recorded as applied : it was just found
holding the after-image, or the after-image was just written to it. -/
def AppliedOn (D : Deps V) (x : Run) (t : Target) (trace : List (Event V)) : Prop :=
  ReadLast .apply x t (t.after D.json) trace ∨ WroteLast .apply x t (t.after D.json) trace

/-- Over every history of passes, deaths, re-entries and resumes, with foreign writes anywhere
but between a pass's read and write of a target : what an advance does to the store, it does by
writing one place that held, and was just read to hold, the image the target replaces; and it
records a target of the store as applied only if that was just found or written. -/
theorem writes_only_over_what_it_read (D : Deps V) (w : World V) (hw : w.ledger.WellFormed)
    (htrace : w.trace = []) (history : List (BulkAction V))
    (ho : (bulkSystem D).Obeys (Undisturbed D) ⟨w, none⟩ history) (c : Choice V) :
    let now := (bulkSystem D).run ⟨w, none⟩ history
    let next := (bulkSystem D).step now (.advance c)
    (∀ place, next.state.store place ≠ now.state.store place →
      ∃ tag held image landed ok,
        next.state.trace = .wrote tag place held image landed ok :: now.state.trace) ∧
    (∀ tag place held image landed ok,
      next.state.trace = .wrote tag place held image landed ok :: now.state.trace →
      ∃ x t, now.state.ledger.runRow tag.run = some x ∧ x.target? tag.seq = some t ∧
        place = x.place t.targetKey ∧
        JustRead tag place (t.replaced D.json tag.side) now.state.trace ∧
        now.state.store place = t.replaced D.json tag.side ∧
        image = t.written D.json tag.side) ∧
    (∀ r s, next.state.trace = .applied r s :: now.state.trace →
      ∃ x t, now.state.ledger.runRow r = some x ∧ x.target? s = some t ∧
        (x.isLocal → AppliedOn D x t now.state.trace)) := by
  intro now next
  have hinit : Holds D w := Holds.clear fun _ _ _ => by simp [htrace, JustRead]
  have hholds : Holds D now.state := ((sound_holds D).run ⟨hw, hinit⟩ ho).2
  rcases hlive : now.live with _ | ⟨p, rest⟩
  · have hsame : next = now := by
      simp only [next, System.step, hlive]
    simp [hsame]
  · cases rest with
    | done out =>
      have hnext : next.state = now.state.push (.returned p.run) := by
        simp only [next, System.step, hlive]
        rfl
      simp [hnext, World.push]
    | step o k =>
      have hG : Guard D p.run (seen p.run now.state) o :=
        (sound_holds D).guard ⟨hw, hinit⟩ ho hlive
      have hnext : next.state = (perform D now.state o c).2 := by
        simp only [next, System.step, hlive]
        rfl
      simp only [hnext]
      refine ⟨fun place hne => store_perform hne, ?_, ?_⟩
      · intro tag place held image landed ok hwrote
        obtain ⟨rfl, -⟩ := wrote_inv hwrote
        exact hholds.write hG
      · intro r s happlied
        obtain ⟨run, result, time, actual, via, markup, rewrote, rfl, rfl⟩ := applied_inv happlied
        obtain ⟨hrun, x, t, hgoing, -, ht, -, -, hevidence⟩ := hG
        refine ⟨x, t, ?_, ht, fun hl => ?_⟩
        · rw [show run.id = p.run from hrun]
          exact hgoing.run
        · exact (hevidence hl).2.imp And.right And.right

/-- A pass up to the mark of its one target, with a foreign write next to it. -/
def foreignBeside : List (BulkAction Bool) :=
  .enter ⟨"r", .apply⟩ :: .outside (.foreign ⟨"workspace", none, "b"⟩ (.value true)) ::
    List.replicate 22 (.advance {})

def oneOfStore : World Bool :=
  plainWorld (plainRun "workspace" false [plainTarget 0 "a"] (by decide))

theorem writes_over_its_read :
    ∃ x t, ((bulkSystem plainDeps).run ⟨oneOfStore, none⟩ foreignBeside).state.ledger.runRow "r" =
        some x ∧ x.target? 0 = some t ∧
      ((bulkSystem plainDeps).run ⟨oneOfStore, none⟩ foreignBeside).state.store
        ⟨"workspace", none, "a"⟩ = t.replaced plainDeps.json .apply := by
  obtain ⟨x, t, hx, ht, -, -, hstore, -⟩ :=
    (writes_only_over_what_it_read plainDeps oneOfStore (plainWorld_wellFormed ..) rfl
      foreignBeside
      ⟨⟨trivial, trivial⟩, ⟨fun _ _ _ => rfl, fun _ _ h =>
        not_justRead_cons (by simp) (by simp) h.1⟩, System.obeys_of_forall _ fun a ha _ => by
          obtain rfl := List.eq_of_mem_replicate ha
          exact ⟨trivial, trivial⟩⟩ {}).2.1
      ⟨.apply, "r", 0⟩ ⟨"workspace", none, "a"⟩ (.value false) (.value true) true true (by decide)
  exact ⟨x, t, hx, ht, hstore⟩

end Lynox.Bulk
