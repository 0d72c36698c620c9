import Lynox.Bulk.Seen
import Lynox.Bulk.WellFormed

/-!
# When the effect may take a step

`Guard` says of every operation of a pass what holds when it is issued, in terms of what the
pass sees : the row of its run and the trace. A send is marked only on a pending target
under the cap, on a host only while no earlier send is unclear, on the store only right after
a read that found the expected state. A write to the store follows its read. A target is
recorded as applied only on evidence in the trace, and a run is ended as rolled back only
when nothing it wrote is left standing.

`Safe` is guardedness of a program of the effect. One rule an operation follows; the programs
of `bulk-apply.ts` are put together from them in `EffectSafe`.
-/

namespace Lynox.Bulk

variable {V : Type} (D : Deps V)

/-! ## The current pass -/

def Event.isEntered : Event V → Bool
  | .entered _ => true
  | _ => false

/-- The events of the current pass. -/
def passTrace (trace : List (Event V)) : List (Event V) :=
  trace.takeWhile fun e => !e.isEntered

/-- A failed target, or a step of a roll-back. -/
def Event.rolls : Event V → Bool
  | .failed .. | .settled .. | .rolledBack .. => true
  | .wrote tag .. => tag.side = .rollBack
  | _ => false

/-- The current pass has recorded a failed target or taken a step of a roll-back. -/
def Rolling (trace : List (Event V)) : Prop :=
  ∃ e ∈ passTrace trace, e.rolls = true

def Run.isLocal (x : Run) : Prop :=
  externalHostOf x.targetSystem = none

/-- The run is seen writing and not halted, and is not its own source. -/
structure Live (r : String) (v : Seen V) (x : Run) : Prop where
  run : v.run = some x
  id : x.id = r
  writing : x.phase = .writing
  unhalted : x.haltReason = none
  source : x.sourceRunId ≠ some r

/-- A live run that is not rolling back. -/
structure Going (r : String) (v : Seen V) (x : Run) : Prop extends Live r v x where
  calm : x.atomic = true → x.isLocal → ¬ Rolling v.trace

/-- A pass over an atomic run of the store does not end in the middle of a roll-back. -/
def Ended (v : Seen V) : Prop :=
  ∀ x, v.run = some x → x.atomic = true → x.isLocal → Rolling v.trace → x.phase = .aborted

/-- The last events are a read of the target that found `i`. -/
def ReadLast (side : Side) (x : Run) (t : Target) (i : Image V) (trace : List (Event V)) : Prop :=
  [.read ⟨side, x.id, t.seq⟩ (x.place t.targetKey) (some (.image i))] <+: trace

/-- The last event is a write of `i` to the target that succeeded. -/
def WroteLast (side : Side) (x : Run) (t : Target) (i : Image V) (trace : List (Event V)) : Prop :=
  ∃ held, [.wrote ⟨side, x.id, t.seq⟩ (x.place t.targetKey) held i true true] <+: trace

/-- The last event is a read that found neither image of the target, or a write that failed. -/
def FailedLast (x : Run) (t : Target) (trace : List (Event V)) : Prop :=
  (∃ found, [.read ⟨.apply, x.id, t.seq⟩ (x.place t.targetKey) found] <+: trace ∧
    ∀ i, found = some (.image i) → i ≠ t.expected D.json ∧ i ≠ t.after D.json) ∨
  ∃ held image landed,
    [.wrote ⟨.apply, x.id, t.seq⟩ (x.place t.targetKey) held image landed false] <+: trace

/-- The cap of a pass lets the target be sent to, or it was sent to before. -/
def UnderCap (x : Run) (t : Target) (trace : List (Event V)) : Prop :=
  ∃ cap, .capped x.id cap ∈ trace ∧ ∀ n, cap = some n → x.sentCount < n ∨ t.writeSent = true

/-- The reasons that say a roll-back was complete. -/
def HaltReason.complete : HaltReason → Bool
  | .atomicRolledBack | .atomicStoppedRolledBack | .atomicTimeRolledBack => true
  | _ => false

/-! ## Guards -/

/-- What holds when a write to the ledger is issued. -/
def CallGuard (r : String) (v : Seen V) : EffectCall V → Prop
  | .releaseClaim .. => ∃ x, Going r v x
  | .markSent _ seq _ => ∃ x t, Going r v x ∧ x.target? seq = some t ∧ t.pending = true ∧
      UnderCap x t v.trace ∧ (¬ x.isLocal → t.unknownSends = 0) ∧
      (x.isLocal → ReadLast .apply x t (t.expected D.json) v.trace ∧
        t.expected D.json ≠ t.after D.json)
  | .markRefused _ seq => ∃ x t, Going r v x ∧ x.target? seq = some t ∧
      [.sent r seq] <+: v.trace
  | .recordApplied run seq result _ actual .. => ∃ x t, Going r v x ∧ run.plan = x.plan ∧
      x.target? seq = some t ∧ t.pending = true ∧ (result = "already" ∨ t.writeSent = true) ∧
      (x.isLocal → actual = none ∧
        ((result = "already" ∧ ReadLast .apply x t (t.after D.json) v.trace) ∨
          (t.writeSent = true ∧ WroteLast .apply x t (t.after D.json) v.trace)))
  | .recordFailed _ seq .. => ∃ x t, Going r v x ∧ x.target? seq = some t ∧ t.pending = true ∧
      (x.isLocal → FailedLast D x t v.trace)
  | .recordUnrecordedSettled _ seq _ => ∃ x t, Live r v x ∧ x.isLocal ∧ x.atomic = true ∧
      x.target? seq = some t ∧ t.sentUnrecorded = true ∧
        (ReadLast .rollBack x t (t.expected D.json) v.trace ∨
        WroteLast .rollBack x t (t.expected D.json) v.trace)
  | .recordRolledBack run seq _ => ∃ x t, Live r v x ∧ x.isLocal ∧ x.atomic = true ∧
      run.plan = x.plan ∧ x.target? seq = some t ∧ t.appliedStanding = true ∧
      WroteLast .rollBack x t (t.expected D.json) v.trace
  | .setWriting _ => ∃ x, v.run = some x ∧ x.mayWrite = true
  | .setAborted _ reason => ∃ x, Live r v x ∧ x.atomic = true ∧
      (reason.complete = true → ∀ t ∈ x.targets,
        t.appliedStanding = false ∧ t.sentUnrecorded = false) ∧
      reason.endsUnapproved = false
  | .halt _ reason => ∃ x, v.run = some x ∧ x.mayWrite = true ∧ reason.endsUnapproved = false ∧
      (x.atomic = true → x.isLocal → ¬ Rolling v.trace)
  | .finish run => ∃ x, Going r v x ∧ run.plan = x.plan ∧ x.listPending = []

/-- What holds when an operation is issued by a pass over `r`. -/
def Guard (r : String) (v : Seen V) : EffectOp V → Prop
  | .call c => c.runId = r ∧ CallGuard D r v c
  | .claimTarget runId .. => runId = r
  | .probeHoldsFor runId => runId = r
  | .read tag place => ∃ x t, Live r v x ∧ x.isLocal ∧ tag.run = x.id ∧
      x.target? tag.seq = some t ∧ place = x.place t.targetKey
  | .write tag place image =>
    match tag.side with
    | .apply => ∃ x t, Going r v x ∧ x.isLocal ∧ tag.run = x.id ∧ x.target? tag.seq = some t ∧
        t.pending = true ∧ t.writeSent = true ∧ place = x.place t.targetKey ∧
        image = t.after D.json ∧ t.expected D.json ≠ t.after D.json ∧
        [.marked r tag.seq, .read tag place (some (.image (t.expected D.json)))] <+: v.trace
    | .rollBack => ∃ x t, Live r v x ∧ x.isLocal ∧ x.atomic = true ∧ tag.run = x.id ∧
        x.target? tag.seq = some t ∧
        (t.appliedStanding = true ∨
          (t.sentUnrecorded = true ∧ t.expected D.json ≠ t.after D.json)) ∧
        place = x.place t.targetKey ∧ image = t.expected D.json ∧
        [.read tag place (some (.image (t.after D.json)))] <+: v.trace
  | .send tag _ _ => ∃ x t, Going r v x ∧ ¬ x.isLocal ∧ tag.run = r ∧
      x.target? tag.seq = some t ∧ t.writeSent = true ∧ [.marked r tag.seq] <+: v.trace
  | _ => True

/-! ## Rules of the operations -/

/-- Guardedness of a program of a pass over `r`. -/
abbrev Safe (r : String) {α : Type} (Q : α → Seen V → Prop) (p : Effect V α) (v : Seen V) : Prop :=
  Program.Guarded (perform D) (seen r) (Guard D r) Q p v

section Rules

variable {D} {r : String} {α : Type} {Q : α → Seen V → Prop} {v : Seen V}

theorem safe_ledger {f : Ledger → Effect V α}
    (h : ∀ L : Ledger, L.runRow r = v.run → Safe D r Q (f L) v) :
    Safe D r Q (ask .ledger >>= f) v :=
  ⟨trivial, fun w _ hw => hw ▸ h w.ledger (hw ▸ rfl)⟩

/-- An operation whose answer the surroundings decide and that leaves no trace. -/
theorem safe_ask {o : EffectOp V} {f : o.Ans → Effect V α} (hG : Guard D r v o)
    (ho : ∀ w c, (perform D w o c).2 = w) (h : ∀ a, Safe D r Q (f a) v) :
    Safe D r Q (ask o >>= f) v :=
  ⟨hG, fun w c hw => by rw [ho, hw]; exact h _⟩

theorem safe_record {c : EffectCall V} {f : Unit → Effect V α} (hr : c.runId = r)
    (hc : CallGuard D r v c) (hs : c.source ≠ some r)
    (h : Safe D r Q (f ()) ⟨v.run.map (c.onOwn D), c.event.toList ++ v.trace⟩) :
    Safe D r Q (record c >>= f) v := by
  refine ⟨⟨hr, hc⟩, fun w ch hw => ?_⟩
  subst hw
  rw [seen_call D w ch hr hs]
  exact h

theorem safe_claim {seq : ℕ} {now : Time} {f : Bool → Effect V α} {x : Run} (hv : v.run = some x)
    (h : Safe D r Q (f ((x.target? seq).any (TargetEdit.claimable D now)))
      ⟨some (x.editTarget seq (.claimed D now)), v.trace⟩) :
    Safe D r Q (ask (.claimTarget r seq now) >>= f) v := by
  refine ⟨rfl, fun w ch hw => ?_⟩
  subst hw
  have hx : w.ledger.runRow r = some x := hv
  have hrow : w.ledger.row r seq = x.target? seq := by rw [Ledger.row, hx]; rfl
  have hseen : seen r (perform D w (.claimTarget r seq now) ch).2 =
      ⟨some (x.editTarget seq (.claimed D now)), w.trace⟩ := by
    refine Seen.ext ?_ rfl
    exact Ledger.runRow_editRun_self.trans (by rw [hx]; rfl)
  rw [hseen]
  simp only [perform, Ledger.claimTarget, hrow]
  exact h

theorem safe_probe {f : Bool → Effect V α} {x : Run} (hv : v.run = some x)
    (h : ∀ holds, Safe D r Q (f holds)
      ⟨v.run, .capped r (bulkWriteCap x.maxTargets holds) :: v.trace⟩) :
    Safe D r Q (ask (.probeHoldsFor r) >>= f) v := by
  refine ⟨rfl, fun w ch hw => ?_⟩
  subst hw
  have hx : w.ledger.runRow r = some x := hv
  have hseen : seen r (perform D w (.probeHoldsFor r) ch).2 =
      ⟨w.ledger.runRow r, .capped r (bulkWriteCap x.maxTargets (w.ledger.probeHoldsFor D r)) ::
        w.trace⟩ := by
    simp [perform, seen, World.push, hx]
  rw [hseen]
  exact h (w.ledger.probeHoldsFor D r)

theorem safe_read {tag : Tag} {place : Place} {f : Except Unit (Found V) → Effect V α}
    (hG : Guard D r v (.read tag place))
    (hfail : Safe D r Q (f (.error ())) ⟨v.run, .read tag place none :: v.trace⟩)
    (hok : ∀ found, Safe D r Q (f (.ok found)) ⟨v.run, .read tag place (some found) :: v.trace⟩) :
    Safe D r Q (ask (.read tag place) >>= f) v := by
  refine ⟨hG, fun w ch hw => ?_⟩
  subst hw
  simp only [perform]
  split
  · exact hfail
  · exact hok _

theorem safe_write {tag : Tag} {place : Place} {image : Image V}
    {f : Except Unit String → Effect V α} (hG : Guard D r v (.write tag place image))
    (hfail : ∀ held landed, Safe D r Q (f (.error ()))
      ⟨v.run, .wrote tag place held image landed false :: v.trace⟩)
    (hok : ∀ held result, Safe D r Q (f (.ok result))
      ⟨v.run, .wrote tag place held image true true :: v.trace⟩) :
    Safe D r Q (ask (.write tag place image) >>= f) v := by
  refine ⟨hG, fun w ch hw => ?_⟩
  subst hw
  rcases hc : ch.throws with _ | _
  · simp only [perform, hc]
    exact hok _ _
  · simp only [perform, hc]
    exact hfail _ _

theorem safe_send {tag : Tag} {key : String} {value : V} {f : HostAnswer V → Effect V α}
    (hG : Guard D r v (.send tag key value))
    (h : ∀ a, Safe D r Q (f a) ⟨v.run, .sent tag.run tag.seq :: v.trace⟩) :
    Safe D r Q (ask (.send tag key value) >>= f) v :=
  ⟨hG, fun w ch hw => by subst hw; exact h _⟩

/-- A program and what follows it, with what no operation touches. -/
theorem Safe.andThen {β : Type} {Q' : β → Seen V → Prop} {p : Effect V α}
    {f : α → Effect V β} (h : Safe D r Q p v)
    (hf : ∀ a v', Q a v' → v.trace <:+ v'.trace → v'.run.map Run.plan = v.run.map Run.plan →
      Safe D r Q' (f a) v') : Safe D r Q' (p >>= f) v := by
  have hkept := h.keeps (ρ := fun v v' : Seen V =>
      v.trace <:+ v'.trace ∧ v'.run.map Run.plan = v.run.map Run.plan)
    (fun _ => ⟨List.suffix_rfl, rfl⟩)
    (fun _ _ _ h₁ h₂ => ⟨h₁.1.trans h₂.1, h₂.2.trans h₁.2⟩)
    (fun w o c => seen_perform D r w o c)
  exact hkept.bind fun a v' hq => hf a v' hq.1 hq.2.1 hq.2.2

theorem safe_map {β : Type} {Q' : β → Seen V → Prop} {p : Effect V α} {f : α → β}
    (h : Safe D r (fun a => Q' (f a)) p v) : Safe D r Q' (f <$> p) v :=
  Program.Guarded.bind h fun _ _ hq => hq

end Rules

/-! ## What the passes of a run keep -/

section Keep

variable {r : String} {v : Seen V} {x x' : Run}

theorem rolling_append {l trace : List (Event V)}
    (h : ∀ e ∈ l, e.isEntered = false ∧ e.rolls = false) :
    Rolling (l ++ trace) ↔ Rolling trace := by
  have htake : passTrace (l ++ trace) = l ++ passTrace trace := by
    unfold passTrace
    rw [List.takeWhile_append_of_pos fun e he => by simp [(h e he).1]]
  constructor
  · rintro ⟨e, he, hr⟩
    rw [htake] at he
    rcases List.mem_append.mp he with he | he
    · simp [(h e he).2] at hr
    · exact ⟨e, he, hr⟩
  · rintro ⟨e, he, hr⟩
    exact ⟨e, by rw [htake]; exact List.mem_append_right _ he, hr⟩

theorem not_rolling_entered {trace : List (Event V)} : ¬ Rolling (.entered r :: trace) := by
  rintro ⟨e, he, -⟩
  simp [passTrace, Event.isEntered] at he

/-- A live run edited without moving its phase stays live. -/
theorem Live.next {l : List (Event V)} (h : Live r v x) (hplan : x'.plan = x.plan)
    (hphase : x'.phase = x.phase) (hhalt : x'.haltReason = x.haltReason) :
    Live r ⟨some x', l⟩ x' where
  run := rfl
  id := (congrArg RunPlan.id hplan).trans h.id
  writing := hphase.trans h.writing
  unhalted := hhalt.trans h.unhalted
  source := fun hs => h.source ((congrArg RunPlan.sourceRunId hplan).symm.trans hs)

/-- The source of a live run is another run. -/
theorem Live.source_ne (h : Live r v x) (hplan : x.plan = x'.plan) :
    (if x'.kind = .undo then x'.sourceRunId else none) ≠ some r := by
  have hsource : x.sourceRunId = x'.sourceRunId := congrArg RunPlan.sourceRunId hplan
  split
  · exact hsource ▸ h.source
  · simp

/-- A run that is not rolling back stays so while no failure or roll-back is recorded. -/
theorem Going.next {l : List (Event V)} (h : Going r v x) (hplan : x'.plan = x.plan)
    (hphase : x'.phase = x.phase) (hhalt : x'.haltReason = x.haltReason)
    (hes : ∀ e ∈ l, e.isEntered = false ∧ e.rolls = false) :
    Going r ⟨some x', l ++ v.trace⟩ x' where
  toLive := h.toLive.next hplan hphase hhalt
  calm := fun ha hl => by
    have hatomic : x'.atomic = x.atomic := congrArg RunPlan.atomic hplan
    have hsystem : x'.targetSystem = x.targetSystem := congrArg RunPlan.targetSystem hplan
    rw [rolling_append hes]
    exact h.calm (hatomic ▸ ha) (by rw [Run.isLocal, ← hsystem]; exact hl)

theorem ended_of_calm (h : ¬ Rolling v.trace) : Ended v :=
  fun _ _ _ _ hrolling => absurd hrolling h

/-- A run halted outside a roll-back. -/
theorem ended_halt {reason : HaltReason} (hv : v.run = some x)
    (hcalm : x.atomic = true → x.isLocal → ¬ Rolling v.trace) :
    Ended ⟨v.run.map (Run.halt reason), v.trace⟩ := by
  intro y hy hatomic hlocal hrolling
  rw [hv] at hy
  obtain rfl := Option.some.inj hy
  exact absurd hrolling (hcalm hatomic hlocal)

theorem Going.ended (h : Going r v x) : Ended v := by
  intro y hy hatomic hlocal hrolling
  obtain rfl : x = y := Option.some.inj (h.run.symm.trans hy)
  exact absurd hrolling (h.calm hatomic hlocal)

theorem Going.mayWrite (h : Going r v x) : x.mayWrite = true := by
  simp [Run.mayWrite, h.writing, h.unhalted]

theorem Run.isLocal_of_plan {x x' : Run} (h : x'.plan = x.plan) : x'.isLocal ↔ x.isLocal := by
  have hsystem : x'.targetSystem = x.targetSystem := congrArg RunPlan.targetSystem h
  rw [isLocal, isLocal, hsystem]

end Keep

end Lynox.Bulk
