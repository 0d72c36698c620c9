import Lynox.Bulk.Sends
import Mathlib.Data.ENat.Lattice
import Mathlib.Data.ENat.Basic

/-!
# The cap on sends

A pass compares `sentCount` with its cap before it takes a target. The count is re-derived
from the rows : a target counts once it was marked, and a target found as planned without a
send never does. `Capped` keeps the count under the largest cap of any pass so far, and every
target the verb left for marked.
-/

namespace Lynox.Bulk

variable {V : Type} {D : Deps V} {r : String}

/-! ## Sends and caps in a trace -/

def Event.sentTo (r : String) : Event V → Option ℕ
  | .sent r' s => if r' = r then some s else none
  | _ => none

/-- The targets of the run the verb was sent to. -/
def sentTargets (r : String) (trace : List (Event V)) : Finset ℕ :=
  (trace.filterMap (Event.sentTo r)).toFinset

/-- The cap a pass over the run began with; no bound is the top. -/
def Event.cap (r : String) : Event V → ℕ∞
  | .capped r' (some n) => if r' = r then n else 0
  | .capped r' none => if r' = r then ⊤ else 0
  | _ => 0

/-- The largest cap in force in any pass over the run so far. -/
noncomputable def largestCap (r : String) : List (Event V) → ℕ∞
  | [] => 0
  | e :: trace => max (e.cap r) (largestCap r trace)

/-- The targets a reading of the events collects, where it reads one kind of event only. -/
theorem mem_toFinset_filterMap {trace : List (Event V)} {f : Event V → Option ℕ}
    {event : ℕ → Event V} (hf : ∀ e s, f e = some s ↔ e = event s) {s : ℕ} :
    s ∈ (trace.filterMap f).toFinset ↔ event s ∈ trace := by
  simp [hf]

theorem sentTo_eq_some {e : Event V} {s : ℕ} : e.sentTo r = some s ↔ e = .sent r s := by
  cases e <;> simp [Event.sentTo]

theorem mem_sentTargets {trace : List (Event V)} {s : ℕ} :
    s ∈ sentTargets r trace ↔ .sent r s ∈ trace :=
  mem_toFinset_filterMap fun _ _ => sentTo_eq_some

theorem le_largestCap {trace : List (Event V)} {e : Event V} (h : e ∈ trace) :
    e.cap r ≤ largestCap r trace := by
  induction trace with
  | nil => cases h
  | cons e' trace ih =>
    rcases List.mem_cons.mp h with rfl | h
    · exact le_max_left _ _
    · exact (ih h).trans (le_max_right _ _)

theorem largestCap_append (l trace : List (Event V)) :
    largestCap r trace ≤ largestCap r (l ++ trace) := by
  induction l with
  | nil => exact le_rfl
  | cons e l ih => exact ih.trans (le_max_right _ _)

/-! ## The invariant -/

/-- A target applied without a send was found unsent. -/
def Run.Tracked (x : Run) : Prop :=
  x.unsentTracked = true ∧
    ∀ t ∈ x.targets, t.appliedAt.isSome = true → t.writeSent = false → t.foundUnsent = true

theorem Run.Tracked.of_sends {x x' : Run} (h : x.Tracked)
    (htracked : x'.unsentTracked = x.unsentTracked) (hsends : x'.sends = x.sends) :
    x'.Tracked := by
  refine ⟨htracked.trans h.1, fun t ht => ?_⟩
  obtain ⟨t', ht', hs⟩ := target?_of_sends hsends (target?_of_mem ht)
  have hcols := h.2 t' (mem_of_target? ht')
  simp only [Target.sends, SendRow.mk.injEq] at hs
  rw [← hs.2.2.1, ← hs.1, ← hs.2.2.2]
  exact hcols

/-- Sends are marked in the rows, and the marks are under the largest cap. -/
structure Capped (r : String) (w : World V) : Prop where
  sent : ∀ s, .sent r s ∈ w.trace → ∃ x t, w.ledger.runRow r = some x ∧ x.started = true ∧
    x.target? s = some t ∧ t.writeSent = true
  tracked : ∀ x, w.ledger.runRow r = some x → x.Tracked
  cap : ∀ x, w.ledger.runRow r = some x → (x.sentCount : ℕ∞) ≤ largestCap r w.trace

/-- A step that leaves the send columns of the run as they are. -/
theorem Capped.next {w w' : World V} {l : List (Event V)} {f : Run → Run} (h : Capped r w)
    (htrace : w'.trace = l ++ w.trace) (hes : ∀ s, .sent r s ∉ l)
    (hrow : w'.ledger.runRow r = (w.ledger.runRow r).map f)
    (hf : ∀ x, w.ledger.runRow r = some x → (f x).sends = x.sends ∧
      (f x).unsentTracked = x.unsentTracked ∧ (x.started = true → (f x).started = true)) :
    Capped r w' := by
  refine ⟨fun s hs => ?_, fun x' hx' => ?_, fun x' hx' => ?_⟩
  · have hs' : .sent r s ∈ w.trace := by
      rw [htrace, List.mem_append, or_iff_right (hes s)] at hs
      exact hs
    obtain ⟨x, t, hx, hstarted, ht, hsent⟩ := h.sent s hs'
    obtain ⟨hsends, -, hkeep⟩ := hf x hx
    obtain ⟨t', ht', hcols⟩ := Run.target?_of_sends hsends.symm ht
    refine ⟨f x, t', by rw [hrow, hx]; rfl, hkeep hstarted, ht', ?_⟩
    exact (congrArg SendRow.sent hcols).trans hsent
  · rw [hrow] at hx'
    obtain ⟨x, hx, rfl⟩ := Option.map_eq_some_iff.mp hx'
    exact (h.tracked x hx).of_sends (hf x hx).2.1 (hf x hx).1
  · rw [hrow] at hx'
    obtain ⟨x, hx, rfl⟩ := Option.map_eq_some_iff.mp hx'
    rw [Run.sentCount_eq, (hf x hx).1, ← Run.sentCount_eq, htrace]
    exact (h.cap x hx).trans (largestCap_append l w.trace)

/-- A step that edits one target of the run. -/
theorem Capped.edit {w w' : World V} {e : Event V} {x x' : Run} {seq : ℕ} {edit : TargetEdit}
    {t : Target} (h : Capped r w) (htrace : w'.trace = e :: w.trace) (he : ∀ s, e ≠ .sent r s)
    (hx : w.ledger.runRow r = some x) (hrow : w'.ledger.runRow r = some x')
    (htargets : x'.targets = (x.editTarget seq edit).targets)
    (htracked : x'.unsentTracked = x.unsentTracked) (hstarted : x'.started = true)
    (ht : x.target? seq = some t) (hsent : ∀ u, u.writeSent = true → (edit.apply u).writeSent = true)
    (hfound : (edit.apply t).appliedAt.isSome = true → (edit.apply t).writeSent = false →
      (edit.apply t).foundUnsent = true)
    (hcount : (x'.sentCount : ℕ∞) ≤ largestCap r w'.trace) : Capped r w' := by
  have htarget (s : ℕ) : x'.target? s = (x.editTarget seq edit).target? s := by
    rw [Run.target?, Run.target?, htargets]
  refine ⟨fun s hs => ?_, fun y hy => ?_, fun y hy => ?_⟩
  · have hs' : .sent r s ∈ w.trace := by
      rw [htrace, List.mem_cons, or_iff_right (he s).symm] at hs
      exact hs
    obtain ⟨y, u, hy, -, hu, hus⟩ := h.sent s hs'
    obtain rfl : x = y := Option.some.inj (hx.symm.trans hy)
    by_cases hseq : s = seq
    · subst hseq
      refine ⟨x', edit.apply u, hrow, hstarted, ?_, hsent u hus⟩
      rw [htarget, Run.target?_editTarget_self, hu]
      rfl
    · exact ⟨x', u, hrow, hstarted, (htarget s).trans ((Run.target?_editTarget_ne hseq).trans hu), hus⟩
  · obtain rfl : x' = y := Option.some.inj (hrow.symm.trans hy)
    refine ⟨htracked.trans (h.tracked x hx).1, fun u hu => ?_⟩
    rw [htargets] at hu
    rcases Run.mem_editTarget.mp hu with ⟨t', ht', rfl⟩ | ⟨hu, -⟩
    · obtain rfl : t = t' := Option.some.inj (ht.symm.trans ht')
      exact hfound
    · exact (h.tracked x hx).2 u hu
  · obtain rfl : x' = y := Option.some.inj (hrow.symm.trans hy)
    exact hcount

theorem Run.sentCount_of_targets {x x' : Run} {seq : ℕ} {edit : TargetEdit} {t : Target}
    (htargets : x'.targets = (x.editTarget seq edit).targets) (ht : x.target? seq = some t) :
    x'.sentCount + (if t.counted then 1 else 0) =
      x.sentCount + (if (edit.apply t).counted then 1 else 0) := by
  rw [sentCount, htargets]
  exact countP_editTarget_row ht

/-! ## Steps -/

variable {w : World V} {c : Choice V}

/-- The mark of a target under the cap. -/
theorem Capped.mark {x : Run} {t : Target} {seq : ℕ} {via : Option AttachedConnection}
    {w' : World V} (h : Capped r w) (htrace : w'.trace = .marked r seq :: w.trace)
    (hgoing : Going r (seen r w) x) (hrow : w'.ledger.runRow r = some (x.markSent seq via))
    (ht : x.target? seq = some t) (hcap : UnderCap x t w.trace) : Capped r w' := by
  have hx : w.ledger.runRow r = some x := hgoing.run
  have htargets : (x.markSent seq via).targets = (x.editTarget seq (.sent via)).targets := rfl
  refine h.edit htrace (by simp) hx hrow htargets rfl hgoing.started ht (fun _ _ => rfl)
    (fun _ hs => by cases hs) ?_
  have hcount := Run.sentCount_of_targets htargets ht
  have hmarked : ((TargetEdit.sent via).apply t).counted = true := by
    simp [TargetEdit.sent, Target.counted]
  rw [hmarked, if_pos rfl] at hcount
  obtain ⟨cap, hmem, hbound⟩ := hcap
  rw [hgoing.id] at hmem
  rw [htrace]
  refine le_trans ?_ (largestCap_append [_] w.trace)
  by_cases hsent : t.counted = true
  · rw [if_pos hsent] at hcount
    rw [show (x.markSent seq via).sentCount = x.sentCount by omega]
    exact h.cap x hx
  · have hne : t.writeSent = false := by
      by_contra hw
      exact hsent (by simp [Target.counted, hw])
    refine le_trans ?_ (le_largestCap hmem)
    cases cap with
    | none => simp [Event.cap]
    | some n =>
      have hlt : x.sentCount < n := by simpa [hne] using hbound n rfl
      rw [if_neg hsent] at hcount
      simp only [Event.cap, if_true, Nat.cast_le]
      omega

/-- A target recorded as written was marked; one found as planned without a send takes no
place. -/
theorem Capped.applied {x : Run} {t : Target} {seq : ℕ} {result : String} {now : Time}
    {actual : Option (ActualImage V)} {via : Option AttachedConnection}
    {shopAddedMarkup hostRewrote : Bool} {w' : World V} (h : Capped r w)
    (htrace : w'.trace = .applied r seq :: w.trace) (hgoing : Going r (seen r w) x)
    (hrow : w'.ledger.runRow r =
      some (x.recordApplied D seq result now actual via shopAddedMarkup hostRewrote))
    (ht : x.target? seq = some t) (hpending : t.pending = true)
    (hresult : result = "already" ∨ t.writeSent = true) : Capped r w' := by
  have hx : w.ledger.runRow r = some x := hgoing.run
  have hunapplied : t.appliedAt = none := by
    simp only [Target.pending, Bool.and_eq_true] at hpending
    simpa using hpending.1.1.2
  have hrec : x.recordApplied D seq result now actual via shopAddedMarkup hostRewrote =
      { (x.noteFirst via).editTarget seq
          (.applied D x.unsentTracked result now actual via shopAddedMarkup hostRewrote)
        with targetsApplied := x.targetsApplied + 1 } := by
    rw [Run.recordApplied, if_pos (by simp [ht, hunapplied])]
  have htargets : (x.recordApplied D seq result now actual via shopAddedMarkup hostRewrote).targets =
      (x.editTarget seq
        (.applied D x.unsentTracked result now actual via shopAddedMarkup hostRewrote)).targets := by
    rw [hrec]
    rfl
  have hopen := x.recordApplied_open D seq result now actual via shopAddedMarkup hostRewrote
  have htracked := (h.tracked x hx).1
  have hfound (hs : t.writeSent = false) : result = "already" := by simpa [hs] using hresult
  refine h.edit htrace (by simp) hx hrow htargets (by rw [hrec]; rfl)
    ((Run.started_congr hopen.1 hopen.2).trans hgoing.started) ht (fun _ hs => hs) ?_ ?_
  · intro _ hs
    have hs' : t.writeSent = false := hs
    simp [TargetEdit.applied, hfound hs', hs', htracked]
  · have hcount := Run.sentCount_of_targets htargets ht
    have hsame : ((TargetEdit.applied D x.unsentTracked result now actual via shopAddedMarkup
        hostRewrote).apply t).counted = t.counted := by
      rcases hs : t.writeSent with _ | _
      · simp [TargetEdit.applied, Target.counted, Target.noteWrite, hs, hunapplied, hfound hs,
          htracked]
      · simp [TargetEdit.applied, Target.counted, Target.noteWrite, hs]
    rw [hsame] at hcount
    rw [Nat.add_right_cancel hcount, htrace]
    exact (h.cap x hx).trans (largestCap_append [_] w.trace)

theorem Capped.refused {x : Run} {t : Target} {seq : ℕ} {w' : World V} (h : Capped r w)
    (htrace : w'.trace = .refused r seq :: w.trace) (hgoing : Going r (seen r w) x)
    (hrow : w'.ledger.runRow r = some (x.editTarget seq .refused))
    (ht : x.target? seq = some t) : Capped r w' := by
  have hx : w.ledger.runRow r = some x := hgoing.run
  refine h.edit htrace (by simp) hx hrow rfl rfl hgoing.started ht (fun _ hs => hs)
    (fun ha hs => (h.tracked x hx).2 t (Run.mem_of_target? ht) ha hs) ?_
  have hcount : (x.editTarget seq .refused).sentCount = x.sentCount :=
    Run.countP_editTarget fun _ => rfl
  rw [hcount, htrace]
  exact (h.cap x hx).trans (largestCap_append [_] w.trace)

theorem Capped.step {p : String} {o : EffectOp V} (h : Capped r w)
    (hG : Guard D p (seen p w) o) : Capped r (perform D w o c).2 := by
  have hrow := runRow_perform (c := c) (i := r) hG
  have hquiet (hsends : o.sends p r = false) (x : Run) (hx : w.ledger.runRow r = some x) :
      (o.onRow D (w.ledger.runRow p) p r x).sends = x.sends ∧
        (o.onRow D (w.ledger.runRow p) p r x).unsentTracked = x.unsentTracked ∧
        (x.started = true → (o.onRow D (w.ledger.runRow p) p r x).started = true) :=
    ⟨sends_onRow hsends x, congrArg RunPlan.unsentTracked (plan_onRow D _ p r o x),
      started_onRow hG hx⟩
  cases o with
  | call call =>
    have hnext (hsends : (EffectOp.call call).sends p r = false) :
        Capped r (perform D w (.call call) c).2 :=
      h.next rfl (fun s => by cases call <;> simp [EffectCall.event]) hrow (hquiet hsends)
    by_cases hp : p = r
    · subst hp
      obtain ⟨hrun, hcall⟩ := hG
      simp only [EffectOp.onRow, if_true] at hrow
      cases call with
      | markSent runId seq via =>
        obtain rfl : runId = p := hrun
        obtain ⟨x, t, hgoing, ht, -, hcap, -⟩ := hcall
        rw [show w.ledger.runRow runId = some x from hgoing.run] at hrow
        exact h.mark rfl hgoing hrow ht hcap
      | markRefused runId seq =>
        obtain rfl : runId = p := hrun
        obtain ⟨x, t, hgoing, ht, -⟩ := hcall
        rw [show w.ledger.runRow runId = some x from hgoing.run] at hrow
        exact h.refused rfl hgoing hrow ht
      | recordApplied run seq result now actual via shopAddedMarkup hostRewrote =>
        obtain rfl : run.id = p := hrun
        obtain ⟨x, t, hgoing, -, ht, hpending, hresult, -⟩ := hcall
        rw [show w.ledger.runRow run.id = some x from hgoing.run] at hrow
        exact h.applied rfl hgoing hrow ht hpending hresult
      | _ => exact hnext (by simp [EffectOp.sends, EffectCall.sends])
    · exact hnext (by simp [EffectOp.sends, hp])
  | send tag key value =>
    obtain ⟨x, t, hgoing, -, htag, ht, hsent, -⟩ := hG
    by_cases hp : tag.run = r
    · subst hp
      subst htag
      refine ⟨fun s hs => ?_, h.tracked, fun y hy => (h.cap y hy).trans (largestCap_append [_] _)⟩
      rcases List.mem_cons.mp hs with hs | hs
      · obtain ⟨-, rfl⟩ := Event.sent.inj hs
        exact ⟨x, t, hgoing.run, hgoing.started, ht, hsent⟩
      · exact h.sent s hs
    · refine h.next (l := [.sent tag.run tag.seq]) rfl (fun s => ?_) hrow (hquiet rfl)
      simpa using fun he => absurd he.symm hp
  | read tag place =>
    refine h.next (l := [.read tag place (perform D w (.read tag place) c).1.toOption]) ?_
      (by simp) hrow (hquiet rfl)
    simp only [perform]
    split <;> rfl
  | write tag place image => exact h.next (l := [_]) rfl (by simp) hrow (hquiet rfl)
  | probeHoldsFor runId => exact h.next (l := [_]) rfl (by simp) hrow (hquiet rfl)
  | _ => exact h.next (l := []) rfl (by simp) hrow (hquiet rfl)

theorem Run.Untouched.sentCount {x : Run} (h : x.Untouched) : x.sentCount = 0 := by
  refine List.countP_eq_zero.mpr fun t ht => ?_
  simp [Target.counted, (h t ht).applied, (h t ht).sent]

theorem Run.Untouched.tracked {x : Run} (h : x.Untouched) (hx : x.unsentTracked = true) :
    x.Tracked :=
  ⟨hx, fun t ht happlied => by simp [(h t ht).applied] at happlied⟩

theorem Capped.others {e : Outside V} (h : Capped r w) (hwf : w.ledger.WellFormed) :
    Capped r (e.perform D w) := by
  by_cases hs : ∃ x, w.ledger.runRow r = some x ∧ x.started = true
  · obtain ⟨x, hx, hs⟩ := hs
    rcases runRow_outside (e := e) (D := D) hwf hx hs with hrow | ⟨p, hphase, -, hrow⟩
    · refine h.next (l := []) (f := fun x => x) trace_outside (by simp) (by rw [hrow, hx]; rfl) ?_
      exact fun _ _ => ⟨rfl, rfl, fun hs => hs⟩
    · refine h.next (l := []) trace_outside (by simp) (hrow.trans (by rw [hx]; rfl)) fun y hy => ?_
      obtain rfl : x = y := Option.some.inj (hx.symm.trans hy)
      exact ⟨Run.sends_resumed, rfl, fun _ => Run.started_of_open hphase⟩
  · -- nothing was sent for a run that has not started
    have hnone (s : ℕ) : .sent r s ∉ w.trace := fun hsent => by
      obtain ⟨x, t, hx, hstarted, -⟩ := h.sent s hsent
      exact hs ⟨x, hx, hstarted⟩
    have hfresh {x : Run} (hx : (e.perform D w).ledger.runRow r = some x) :=
      runRow_outside_unstarted hwf (fun y hy => by
        by_contra hne
        exact hs ⟨y, hy, by simpa using hne⟩) hx
    refine ⟨fun s hsent => ?_, fun x hx => ?_, fun x hx => ?_⟩
    · rw [trace_outside] at hsent
      exact absurd hsent (hnone s)
    · obtain ⟨huntouched, htracked | ⟨y, hy, hsame⟩⟩ := hfresh hx
      · exact huntouched.tracked htracked
      · exact huntouched.tracked (hsame.trans (h.tracked y hy).1)
    · rw [(hfresh hx).1.sentCount]
      exact zero_le

/-! ## Histories -/

theorem Capped.card_le {x : Run} (h : Capped r w) (hx : w.ledger.runRow r = some x) :
    (sentTargets r w.trace).card ≤ x.sentCount := by
  refine Run.card_le_countP fun s hs => ?_
  obtain ⟨y, t, hy, -, ht, hsent⟩ := h.sent s (mem_sentTargets.mp hs)
  obtain rfl : x = y := Option.some.inj (hx.symm.trans hy)
  exact ⟨t, ht, by simp [Target.counted, hsent]⟩

variable [DecidableEq V]

theorem sound_capped (D : Deps V) (r : String) :
    (bulkSystem D).Sound (fun p => seen p.run) (fun _ w => w.ledger.WellFormed ∧ Capped r w)
      (fun p => Guard D p.run) (fun _ _ => Ended) (Alone D) :=
  have hpush {w : World V} {e : Event V} (h : Capped r w) (he : ∀ s, e ≠ .sent r s) :
      Capped r (w.push e) :=
    h.next (l := [e]) (f := fun x => x) rfl (fun s => by simpa using (he s).symm)
      Option.map_id'.symm fun _ _ => ⟨rfl, rfl, fun hs => hs⟩
  sound_of_steps (fun _ _ h => h) (fun _ _ _ _ h => hpush h (by simp))
    (fun _ _ _ _ _ _ _ h hG => h.step hG) (fun _ _ h _ => hpush h (by simp))
    (fun _ _ _ _ h => hpush h (by simp)) fun _ _ _ _ hwf h => h.others hwf

/-- Over every history of passes, deaths, re-entries and resumes of a run that tracks unsent
finds : the targets the verb was sent to are at most `sentCount`, the count is at most the
largest cap of any pass so far, and a target applied without a send takes no place in it. -/
theorem sends_under_largest_cap (D : Deps V) (w : World V) (hw : w.ledger.WellFormed)
    (htrace : w.trace = []) (r : String)
    (hfresh : ∀ x, w.ledger.runRow r = some x → x.unsentTracked = true ∧ x.Untouched)
    (history : List (BulkAction V)) (ho : (bulkSystem D).Obeys (Alone D) ⟨w, none⟩ history)
    (x : Run)
    (hx : ((bulkSystem D).run ⟨w, none⟩ history).state.ledger.runRow r = some x) :
    (sentTargets r ((bulkSystem D).run ⟨w, none⟩ history).state.trace).card ≤ x.sentCount ∧
      (x.sentCount : ℕ∞) ≤ largestCap r ((bulkSystem D).run ⟨w, none⟩ history).state.trace ∧
      ∀ t ∈ x.targets, t.appliedAt.isSome = true → t.writeSent = false → t.counted = false := by
  have hinit : Capped r w := by
    refine ⟨fun s hs => ?_, fun y hy => (hfresh y hy).2.tracked (hfresh y hy).1, fun y hy => ?_⟩
    · rw [htrace] at hs
      cases hs
    · rw [(hfresh y hy).2.sentCount]
      exact zero_le
  obtain ⟨-, hend⟩ := (sound_capped D r).run ⟨hw, hinit⟩ ho
  refine ⟨hend.card_le hx, hend.cap x hx, fun t ht happlied hsent => ?_⟩
  simp [Target.counted, hsent, (hend.tracked x hx).2 t ht happlied hsent]

/-- A pass over two targets, the first found as planned, the second sent to. -/
def foundThenSent : List (BulkAction Bool) :=
  let found : Choice Bool := { got := .host (.ok (some true)) }
  let read : Choice Bool := { got := .host (.ok (some false)), answer := .ok none }
  .enter ⟨"r", .apply⟩ :: List.replicate 26 (.advance found) ++ List.replicate 30 (.advance read)

def twoOfHost : World Bool :=
  plainWorld (plainRun "http:host" false [plainTarget 0 "/items/1", plainTarget 1 "/items/2"]
    (by decide))

theorem found_takes_no_place : ∃ x,
    ((bulkSystem plainDeps).run ⟨twoOfHost, none⟩ foundThenSent).state.ledger.runRow "r" = some x ∧
      (x.sentCount : ℕ∞) ≤
        largestCap "r" ((bulkSystem plainDeps).run ⟨twoOfHost, none⟩ foundThenSent).state.trace := by
  obtain ⟨x, hx⟩ : ∃ x, ((bulkSystem plainDeps).run ⟨twoOfHost, none⟩
      foundThenSent).state.ledger.runRow "r" = some x := Option.isSome_iff_exists.mp (by decide)
  refine ⟨x, hx, (sends_under_largest_cap plainDeps twoOfHost (plainWorld_wellFormed ..) rfl "r"
    (fun y hy => ?_) foundThenSent (obeys_of_passes fun e => by simp [foundThenSent]) x hx).2.1⟩
  obtain rfl := List.mem_singleton.mp (Ledger.mem_of_runRow hy)
  refine ⟨rfl, fun t ht => ?_⟩
  rcases List.mem_pair.mp ht with rfl | rfl <;> exact ⟨rfl, rfl, rfl, rfl, rfl⟩

end Lynox.Bulk
