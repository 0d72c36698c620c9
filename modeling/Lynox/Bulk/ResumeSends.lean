import Lynox.Bulk.SendCap
import Lynox.Bulk.Lifecycle

/-!
# What a resume sends to

`toStatus` tells the owner of a stopped run how many targets a resume would send to. It counts
the targets the resume opens again, takes those in sends that still have a place under the cap,
and leaves out, for a run of a host, the ones with a send still unclear.

The pass that follows counts nothing of the kind : it takes one pending target after another
and compares `sentCount` with its cap at each. `Within` ties the two together. A target the
pass marks was pending when it began, and on a host without an unclear send; a target it marks
for the first time was under the cap, so those marks and the sends from before are at most the
cap; and the verb leaves only for a target that is marked.
-/

namespace Lynox.Bulk

variable {V : Type} {D : Deps V} {r : String}

/-! ## The status -/

/-- The targets a resume tries again, among those that write. -/
def Target.resumable (t : Target) : Bool :=
  t.appliedAt.isNone && t.undoneAt.isNone && t.error ≠ some (.target .secret)

namespace Run

def resumeOpen (x : Run) : ℕ :=
  x.targets.countP fun t => t.writing && t.resumable

def openSent (x : Run) : ℕ :=
  x.targets.countP fun t => t.writing && (t.resumable && t.writeSent)

def openUnclear (x : Run) : ℕ :=
  x.targets.countP fun t => t.writing && (t.resumable && decide (0 < t.unknownSends))

end Run

/-- How many targets a resume would try. A target sent to before takes nothing from the cap. -/
def Ledger.resumeTries (D : Deps V) (L : Ledger) (x : Run) : ℕ :=
  match bulkWriteCap x.maxTargets (L.probeCoverage D x).1 with
  | none => x.resumeOpen
  | some cap => x.openSent + min (x.resumeOpen - x.openSent) (cap - x.sentCount)

/-- How many it would send to : a target of a host with a send still unclear is only read. -/
def Ledger.resumeSends (D : Deps V) (L : Ledger) (x : Run) : ℕ :=
  if externalHostOf x.targetSystem = none then L.resumeTries D x
  else L.resumeTries D x - x.openUnclear

/-! ## Ledgers that were run -/

namespace Run

variable {x x' : Run}

theorem Marked.of_traces (h : x.Marked)
    (hmarks : x'.targets.map Target.traces = x.targets.map Target.traces) : x'.Marked := by
  intro t' ht'
  obtain ⟨t, ht, hsame⟩ := exists_of_map_eq hmarks ht'
  simp only [Target.traces, Prod.mk.injEq] at hsame
  have hmarked := h t ht
  rw [Target.Marked, hsame.2.2.1, hsame.2.2.2.1] at hmarked
  exact hmarked

theorem Untouched.marked (h : x.Untouched) : x.Marked :=
  fun t ht hunknown => by simp [(h t ht).unknown] at hunknown

theorem Move.marked (hm : x.Move x') (hx : x.Staged) (h : x.Marked) : x'.Marked := by
  have hsame (htargets : x'.targets = x.targets) : x'.Marked := by
    rw [Marked, htargets]
    exact h
  cases hm with
  | notes _ _ _ _ marks => exact h.of_traces marks
  | records _ _ _ _ _ marked => exact marked h
  | turns _ _ _ targets => exact hsame targets
  | prepares planned _ _ _ prepared =>
    have huntouched : x'.Untouched := fun t ht => (prepared (hx.prepared planned) t ht).untouched
    exact huntouched.marked
  | lists _ _ _ _ targets => exact hsame targets
  | previews _ _ _ _ targets => exact hsame targets
  | ends _ _ _ targets => exact hsame targets
  | halts _ _ targets => exact hsame targets
  | selects _ _ _ _ targets =>
    obtain ⟨f, hf, hkeep⟩ := targets
    refine h.of_traces ?_
    rw [hf, List.map_map]
    exact List.map_congr_left fun t _ => (hkeep t).2.2.2

/-- An approved run has started. -/
theorem Staged.started (h : x.Staged) (happroved : x.approvedAt.isSome = true) :
    x.started = true := by
  have hleft := h.approved happroved
  cases hphase : x.phase with
  | planned => simp [unapproved, hphase] at hleft
  | previewed => simp [unapproved, hphase] at hleft
  | aborted =>
    have hended := h.ended hphase
    rcases hends : x.haltReason.any HaltReason.endsUnapproved with _ | _
    · simp [Run.started, hphase, hends]
    · simp [hended hends] at happroved
  | approved | writing | done | undone => simp [Run.started, hphase]

end Run

namespace Ledger

variable {L L' : Ledger}

def Marked (L : Ledger) : Prop :=
  ∀ x ∈ L.runs, x.Marked

theorem Marked.statement (hL : L.Staged) (h : L.Marked) (hs : Statement D L L') : L'.Marked := by
  cases hs with
  | rows e moves =>
    intro x hx
    obtain ⟨y, hy, rfl⟩ := List.mem_map.mp hx
    exact (moves y hy).marked (hL.runs y hy) (h y hy)
  | starts e row start reader judge =>
    intro x hx
    obtain ⟨y, hy, rfl⟩ := List.mem_map.mp hx
    refine forall_under row (P := fun y y' => y.Marked → y'.Marked) ?_ (fun _ _ h => h) y hy (h y hy)
    intro hy
    rw [Run.Marked, start.targets]
    exact hy
  | opens e row opening alone =>
    intro x hx
    obtain ⟨y, hy, rfl⟩ := List.mem_map.mp hx
    refine forall_under row (P := fun y y' => y.Marked → y'.Marked) ?_ (fun _ _ h => h) y hy (h y hy)
    exact fun hy => hy.of_traces opening.marks
  | inserts new =>
    intro x hx
    rw [runs_insertRun new.fresh, List.mem_append, List.mem_singleton] at hx
    rcases hx with hx | rfl
    · exact h x hx
    · exact new.untouched.marked
  | deletes p unapproved =>
    intro x hx
    rw [hL.runs_deleteRuns unapproved] at hx
    exact h x (List.mem_of_mem_filter hx)
  | files probes => exact h

theorem Staged.wellFormed (h : L.Staged) : L.WellFormed where
  source x hx s hs := by
    obtain ⟨hne, y, hy, happroved⟩ := h.source x hx s hs
    exact ⟨hne, y, hy, (h.runs y (mem_of_runRow hy)).started happroved⟩
  order := h.order
  untouched x hx hs := by
    refine (h.runs x hx).untouched ?_
    by_contra hne
    simp [(h.runs x hx).started (Option.isSome_iff_ne_none.mpr hne)] at hs

end Ledger

/-! ## Marks and verbs in a trace -/

def Event.verbTo (r : String) : Event V → Option ℕ
  | .sent r' s => if r' = r then some s else none
  | .wrote tag .. => if tag.run = r ∧ tag.side = .apply then some tag.seq else none
  | _ => none

/-- The targets of the run the verb was sent to : a request left for the host, or the store was
written. What a roll-back writes back is no send. -/
def verbTargets (r : String) (trace : List (Event V)) : Finset ℕ :=
  (trace.filterMap (Event.verbTo r)).toFinset

def Event.markOf (r : String) : Event V → Option ℕ
  | .marked r' s => if r' = r then some s else none
  | _ => none

def markedTargets (r : String) (trace : List (Event V)) : Finset ℕ :=
  (trace.filterMap (Event.markOf r)).toFinset

/-- The marked targets that `b` had never sent to. -/
def newlyMarked (r : String) (b : Run) (trace : List (Event V)) : Finset ℕ :=
  (markedTargets r trace).filter fun s => (b.target? s).any (!·.writeSent)

variable {b : Run} {trace : List (Event V)} {s : ℕ}

theorem markOf_eq_some {e : Event V} : e.markOf r = some s ↔ e = .marked r s := by
  cases e <;> simp [Event.markOf]

theorem mem_markedTargets : s ∈ markedTargets r trace ↔ .marked r s ∈ trace :=
  mem_toFinset_filterMap fun _ _ => markOf_eq_some

theorem mem_newlyMarked : s ∈ newlyMarked r b trace ↔
    .marked r s ∈ trace ∧ ∃ t, b.target? s = some t ∧ t.writeSent = false := by
  simp [newlyMarked, mem_markedTargets, Option.any_eq_true]

theorem newlyMarked_append {l : List (Event V)} (h : ∀ s, .marked r s ∉ l) :
    newlyMarked r b (l ++ trace) = newlyMarked r b trace := by
  ext s
  simp [mem_newlyMarked, h s]

open Classical in
theorem newlyMarked_marked {seq : ℕ} : newlyMarked r b (.marked r seq :: trace) =
    if ∃ t, b.target? seq = some t ∧ t.writeSent = false then insert seq (newlyMarked r b trace)
    else newlyMarked r b trace := by
  ext s
  split
  · next hnew =>
    rw [Finset.mem_insert, mem_newlyMarked, mem_newlyMarked, List.mem_cons, Event.marked.injEq]
    constructor
    · rintro ⟨⟨-, rfl⟩ | hs, hs'⟩
      · exact .inl rfl
      · exact .inr ⟨hs, hs'⟩
    · rintro (rfl | ⟨hs, hs'⟩)
      · exact ⟨.inl ⟨rfl, rfl⟩, hnew⟩
      · exact ⟨.inr hs, hs'⟩
  · next hold =>
    rw [mem_newlyMarked, mem_newlyMarked, List.mem_cons, Event.marked.injEq]
    refine and_congr_left fun hnew => or_iff_right ?_
    rintro ⟨-, rfl⟩
    exact hold hnew

/-! ## Pending targets -/

/-- An edit that makes no target pending. -/
def TargetEdit.Closing (e : TargetEdit) : Prop :=
  ∀ t, (e.apply t).pending = true → t.pending = true

theorem TargetEdit.Closing.under {e : TargetEdit} (h : e.Closing) (p : Target → Bool) :
    (e.under p).Closing := by
  intro t
  simp only [TargetEdit.under]
  split
  · exact h t
  · exact fun ht => ht

/-- A target that is pending was pending. -/
def Run.Closing (x x' : Run) : Prop :=
  ∀ s t', x'.target? s = some t' → t'.pending = true →
    ∃ t, x.target? s = some t ∧ t.pending = true

namespace Run

variable {x x' : Run} {seq : ℕ} {e : TargetEdit}

theorem closing_of_targets (h : x'.targets = x.targets) : x.Closing x' := by
  intro s t' ht' hp
  rw [target?, h] at ht'
  exact ⟨t', ht', hp⟩

theorem closing_editTarget (h : e.Closing) : x.Closing (x.editTarget seq e) := by
  intro s t' ht' hp
  rw [editTarget, target?_mapTargets] at ht'
  obtain ⟨t, ht, rfl⟩ := Option.map_eq_some_iff.mp ht'
  exact ⟨t, ht, h.under _ t hp⟩

theorem closing_setPhase {source : List Phase} {target : Phase} {reason : Option HaltReason} :
    x.Closing (x.setPhase source target reason) := by
  refine closing_of_targets ?_
  unfold setPhase
  split <;> rfl

end Run

/-- What a pass does to its run, a mark and a refusal apart, opens no target. -/
theorem closing_onOwn {c : EffectCall V} (h : c.sends = false) (x : Run) :
    x.Closing (c.onOwn D x) := by
  cases c with
  | markSent | markRefused | recordApplied => cases h
  | releaseClaim runId seq =>
    exact Run.closing_editTarget (TargetEdit.Closing.under (fun _ ht => ht) _)
  | recordFailed runId seq error via =>
    simp only [EffectCall.onOwn, Run.recordFailed]
    split
    · refine Run.closing_editTarget (x := x.noteFirst via) fun t ht => ?_
      simp [TargetEdit.failed, Target.pending] at ht
    · exact Run.closing_of_targets rfl
  | recordUnrecordedSettled runId seq now =>
    refine Run.closing_editTarget (TargetEdit.Closing.under (fun t ht => ?_) _)
    simp [Target.pending] at ht
  | recordRolledBack run seq now =>
    refine Run.closing_editTarget (TargetEdit.Closing.under (fun t ht => ?_) _)
    simp [Target.pending] at ht
  | halt runId reason => exact Run.closing_of_targets rfl
  | setWriting | setAborted | finish => exact Run.closing_setPhase

theorem closing_onRow {own : Option Run} {o : EffectOp V} (h : o.sends r r = false) (x : Run) :
    x.Closing (o.onRow D own r r x) := by
  cases o with
  | call c =>
    simp only [EffectOp.onRow, if_true]
    exact closing_onOwn (by simpa [EffectOp.sends] using h) x
  | claimTarget runId seq time =>
    simp only [EffectOp.onRow]
    split
    · exact Run.closing_editTarget (TargetEdit.Closing.under (fun _ ht => ht) _)
    · exact Run.closing_of_targets rfl
  | _ =>
    exact Run.closing_of_targets rfl

/-! ## The pass after the resume -/

/-- A pass over `r` that began with the row `b` and the cap `cap`, seen from its trace. -/
structure Within (r : String) (b : Run) (cap : Option ℕ) (w : World V) : Prop where
  row : ∃ x, w.ledger.runRow r = some x ∧ x.plan = b.plan
  capped : ∀ c, .capped r c ∈ w.trace → c = cap
  verbs : ∀ e ∈ w.trace, ∀ s, e.verbTo r = some s → .marked r s ∈ w.trace
  marked : ∀ s, .marked r s ∈ w.trace → ∃ t, b.target? s = some t ∧ t.pending = true ∧
    (¬ b.isLocal → t.unknownSends = 0)
  unmarked : ∀ x, w.ledger.runRow r = some x → ∀ s t, x.target? s = some t → t.pending = true →
    .marked r s ∉ w.trace → ∃ u, b.target? s = some u ∧ u.pending = true ∧
      u.writeSent = t.writeSent ∧ u.unknownSends = t.unknownSends
  count : ∀ x, w.ledger.runRow r = some x →
    b.sentCount + (newlyMarked r b w.trace).card ≤ x.sentCount
  bound : ∀ n, cap = some n → (newlyMarked r b w.trace).card ≤ n - b.sentCount

namespace Within

variable {cap : Option ℕ} {w w' : World V}

theorem plan {x : Run} (h : Within r b cap w) (hx : w.ledger.runRow r = some x) :
    x.plan = b.plan := by
  obtain ⟨y, hy, hplan⟩ := h.row
  obtain rfl : x = y := Option.some.inj (hx.symm.trans hy)
  exact hplan

theorem init (hrow : w.ledger.runRow r = some b) (htrace : w.trace = []) : Within r b cap w := by
  have hnew : newlyMarked r b w.trace = ∅ := by
    rw [htrace]
    rfl
  refine ⟨⟨b, hrow, rfl⟩, by simp [htrace], by simp [htrace], by simp [htrace],
    fun x hx s t ht hp _ => ?_, fun x hx => ?_, by simp [hnew]⟩
  · obtain rfl : x = b := Option.some.inj (hx.symm.trans hrow)
    exact ⟨t, ht, hp, rfl, rfl⟩
  · obtain rfl : x = b := Option.some.inj (hx.symm.trans hrow)
    simp [hnew]

/-- A step that marks nothing and leaves the send columns of the run as they are. -/
theorem next {l : List (Event V)} {f : Run → Run} (h : Within r b cap w)
    (htrace : w'.trace = l ++ w.trace) (hmarks : ∀ s, .marked r s ∉ l)
    (hcaps : ∀ c, .capped r c ∈ l → c = cap)
    (hverbs : ∀ e ∈ l, ∀ s, e.verbTo r = some s → .marked r s ∈ w.trace)
    (hrow : w'.ledger.runRow r = (w.ledger.runRow r).map f)
    (hf : ∀ x, w.ledger.runRow r = some x →
      (f x).plan = x.plan ∧ (f x).sends = x.sends ∧ x.Closing (f x)) : Within r b cap w' := by
  have hold {x' : Run} (hx' : w'.ledger.runRow r = some x') :
      ∃ x, w.ledger.runRow r = some x ∧ x' = f x := by
    rw [hrow] at hx'
    obtain ⟨x, hx, rfl⟩ := Option.map_eq_some_iff.mp hx'
    exact ⟨x, hx, rfl⟩
  have hmem (s : ℕ) : .marked r s ∈ w'.trace ↔ .marked r s ∈ w.trace := by
    rw [htrace, List.mem_append, or_iff_right (hmarks s)]
  have hnew : newlyMarked r b w'.trace = newlyMarked r b w.trace := by
    rw [htrace, newlyMarked_append hmarks]
  refine ⟨?_, fun c hc => ?_, fun e he s hs => ?_, fun s hs => ?_,
    fun x' hx' s t' ht' hp hs => ?_, fun x' hx' => ?_, fun n hn => ?_⟩
  · obtain ⟨x, hx, hplan⟩ := h.row
    exact ⟨f x, by rw [hrow, hx]; rfl, (hf x hx).1.trans hplan⟩
  · rw [htrace, List.mem_append] at hc
    exact hc.elim (hcaps c) (h.capped c)
  · rw [htrace, List.mem_append] at he
    exact (hmem s).mpr (he.elim (fun he => hverbs e he s hs) fun he => h.verbs e he s hs)
  · exact h.marked s ((hmem s).mp hs)
  · obtain ⟨x, hx, rfl⟩ := hold hx'
    obtain ⟨-, hsends, hclosing⟩ := hf x hx
    obtain ⟨t, ht, htp⟩ := hclosing s t' ht' hp
    obtain ⟨t₀, ht₀, hsame⟩ := Run.target?_of_sends hsends ht'
    obtain rfl : t = t₀ := Option.some.inj (ht.symm.trans ht₀)
    obtain ⟨u, hu, hup, husent, huunknown⟩ :=
      h.unmarked x hx s t ht htp fun hm => hs ((hmem s).mpr hm)
    exact ⟨u, hu, hup, husent.trans (congrArg SendRow.sent hsame),
      huunknown.trans (congrArg SendRow.unknown hsame)⟩
  · obtain ⟨x, hx, rfl⟩ := hold hx'
    have hcount : (f x).sentCount = x.sentCount := by
      rw [Run.sentCount_eq, Run.sentCount_eq, (hf x hx).2.1]
    rw [hnew, hcount]
    exact h.count x hx
  · rw [hnew]
    exact h.bound n hn

/-- A step that edits one target of the run and leaves it pending only if it is marked. -/
theorem edit {e : Event V} {x x' : Run} {seq : ℕ} {edit : TargetEdit} {t : Target}
    (h : Within r b cap w) (htrace : w'.trace = e :: w.trace) (hcap : ∀ c, e ≠ .capped r c)
    (hverb : e.verbTo r = none)
    (hmark : ∀ s, e = .marked r s → ∃ u, b.target? s = some u ∧ u.pending = true ∧
      (¬ b.isLocal → u.unknownSends = 0))
    (hx : w.ledger.runRow r = some x) (hrow : w'.ledger.runRow r = some x')
    (htargets : x'.targets = (x.editTarget seq edit).targets) (hplan : x'.plan = x.plan)
    (ht : x.target? seq = some t)
    (hpending : (edit.apply t).pending = true → .marked r seq ∈ w'.trace)
    (hcount : b.sentCount + (newlyMarked r b w'.trace).card ≤ x'.sentCount)
    (hbound : ∀ n, cap = some n → (newlyMarked r b w'.trace).card ≤ n - b.sentCount) :
    Within r b cap w' := by
  have hself {y : Run} (hy : w'.ledger.runRow r = some y) : y = x' :=
    Option.some.inj (hy.symm.trans hrow)
  refine ⟨⟨x', hrow, hplan.trans (h.plan hx)⟩, fun c hc => ?_, fun e' he' s hs => ?_,
    fun s hs => ?_, fun y hy s u hu hp hs => ?_, fun y hy => hself hy ▸ hcount, hbound⟩
  · rw [htrace, List.mem_cons, or_iff_right (hcap c).symm] at hc
    exact h.capped c hc
  · rw [htrace] at he' ⊢
    rcases List.mem_cons.mp he' with rfl | he'
    · simp [hverb] at hs
    · exact List.mem_cons_of_mem _ (h.verbs e' he' s hs)
  · rw [htrace] at hs
    rcases List.mem_cons.mp hs with hs | hs
    · exact hmark s hs.symm
    · exact h.marked s hs
  · obtain rfl := hself hy
    have hrows : y.target? s = (x.editTarget seq edit).target? s := by
      rw [Run.target?, Run.target?, htargets]
    rw [hrows, Run.target?_editTarget] at hu
    split at hu
    · next hseq =>
      subst hseq
      rw [ht] at hu
      obtain rfl := Option.some.inj hu
      exact absurd (hpending hp) hs
    · refine h.unmarked x hx s u hu hp fun hm => hs ?_
      rw [htrace]
      exact List.mem_cons_of_mem _ hm

/-- A target already marked, or sent to before, takes no place; another one is under the cap. -/
theorem mark {x : Run} {t : Target} {seq : ℕ} {via : Option AttachedConnection}
    (h : Within r b cap w) (htrace : w'.trace = .marked r seq :: w.trace)
    (hgoing : Going r (seen r w) x) (hrow : w'.ledger.runRow r = some (x.markSent seq via))
    (ht : x.target? seq = some t) (hpending : t.pending = true) (hcap : UnderCap x t w.trace)
    (hclear : ¬ x.isLocal → t.unknownSends = 0) : Within r b cap w' := by
  have hx : w.ledger.runRow r = some x := hgoing.run
  have htargets : (x.markSent seq via).targets = (x.editTarget seq (.sent via)).targets := rfl
  have hcount := Run.sentCount_of_targets htargets ht
  have hcounted : ((TargetEdit.sent via).apply t).counted = true := by
    simp [TargetEdit.sent, Target.counted]
  rw [hcounted, if_pos rfl] at hcount
  have hmark : ∃ u, b.target? seq = some u ∧ u.pending = true ∧
      (¬ b.isLocal → u.unknownSends = 0) := by
    by_cases hm : .marked r seq ∈ w.trace
    · exact h.marked seq hm
    · obtain ⟨u, hu, hup, -, hunknown⟩ := h.unmarked x hx seq t ht hpending hm
      refine ⟨u, hu, hup, fun hb => hunknown.trans (hclear ?_)⟩
      rwa [Run.isLocal_of_plan (h.plan hx)]
  have hplaces : newlyMarked r b w'.trace = newlyMarked r b w.trace ∨
      t.counted = false ∧ (newlyMarked r b w'.trace).card ≤ (newlyMarked r b w.trace).card + 1 := by
    rw [htrace, newlyMarked_marked]
    split
    · next hnew =>
      by_cases hm : .marked r seq ∈ w.trace
      · exact .inl (Finset.insert_eq_of_mem (mem_newlyMarked.mpr ⟨hm, hnew⟩))
      · obtain ⟨u, hu, hunsent⟩ := hnew
        obtain ⟨u', hu', -, husent, -⟩ := h.unmarked x hx seq t ht hpending hm
        obtain rfl : u = u' := Option.some.inj (hu.symm.trans hu')
        have happlied : t.appliedAt = none := by
          simp only [Target.pending, Bool.and_eq_true] at hpending
          simpa using hpending.1.1.2
        refine .inr ⟨?_, Finset.card_insert_le seq _⟩
        simp [Target.counted, happlied, ← husent, hunsent]
    · exact .inl rfl
  have hbefore := h.count x hx
  refine h.edit htrace (by simp) rfl (fun s hs => (Event.marked.inj hs).2 ▸ hmark) hx hrow htargets
    (Run.plan_markSent seq via x) ht (fun _ => by simp [htrace]) ?_ fun n hn => ?_
  · rcases hplaces with hsame | ⟨hfresh, hmore⟩
    · rw [hsame]
      split at hcount <;> omega
    · rw [hfresh] at hcount
      simp only [Bool.false_eq_true, if_false] at hcount
      omega
  · rcases hplaces with hsame | ⟨hfresh, hmore⟩
    · rw [hsame]
      exact h.bound n hn
    · obtain ⟨c, hc, hunder⟩ := hcap
      rw [hgoing.id] at hc
      have hunsent : t.writeSent = false := by
        simp only [Target.counted, Bool.or_eq_false_iff] at hfresh
        exact hfresh.2
      have hlt : x.sentCount < n := by simpa [hunsent] using hunder n ((h.capped c hc).trans hn)
      omega

theorem applied {x : Run} {t : Target} {seq : ℕ} {result : String} {now : Time}
    {actual : Option (ActualImage V)} {via : Option AttachedConnection}
    {shopAddedMarkup hostRewrote : Bool} (h : Within r b cap w)
    (htrace : w'.trace = .applied r seq :: w.trace) (hx : w.ledger.runRow r = some x)
    (hrow : w'.ledger.runRow r =
      some (x.recordApplied D seq result now actual via shopAddedMarkup hostRewrote))
    (ht : x.target? seq = some t) (hpending : t.pending = true) : Within r b cap w' := by
  have hunapplied : t.appliedAt = none := by
    simp only [Target.pending, Bool.and_eq_true] at hpending
    simpa using hpending.1.1.2
  have htargets : (x.recordApplied D seq result now actual via shopAddedMarkup hostRewrote).targets =
      (x.editTarget seq
        (.applied D x.unsentTracked result now actual via shopAddedMarkup hostRewrote)).targets := by
    rw [Run.recordApplied, if_pos (by simp [ht, hunapplied])]
    rfl
  have hsame : newlyMarked r b w'.trace = newlyMarked r b w.trace := by
    rw [htrace]
    exact newlyMarked_append (l := [_]) (by simp)
  refine h.edit htrace (by simp) rfl (by simp) hx hrow htargets
    (Run.plan_recordApplied D seq result now actual via shopAddedMarkup hostRewrote x) ht
    (fun hp => by simp [TargetEdit.applied, Target.pending] at hp) ?_
    (fun n hn => hsame ▸ h.bound n hn)
  have hcount := Run.sentCount_of_targets htargets ht
  -- a target that counted before was sent to, and still was
  have hkept (hc : t.counted = true) : ((TargetEdit.applied D x.unsentTracked result now actual via
      shopAddedMarkup hostRewrote).apply t).counted = true := by
    have hsent : t.writeSent = true := by simpa [Target.counted, hunapplied] using hc
    simp [TargetEdit.applied, Target.counted, Target.noteWrite, hsent]
  have hmore : x.sentCount ≤
      (x.recordApplied D seq result now actual via shopAddedMarkup hostRewrote).sentCount := by
    by_cases hc : t.counted = true
    · rw [hkept hc, hc] at hcount
      omega
    · rw [if_neg hc] at hcount
      omega
  rw [hsame]
  exact (h.count x hx).trans hmore

/-- A refusal answers a send, and that target is marked. -/
theorem refused {x : Run} {t : Target} {seq : ℕ} (h : Within r b cap w)
    (htrace : w'.trace = .refused r seq :: w.trace) (hx : w.ledger.runRow r = some x)
    (hrow : w'.ledger.runRow r = some (x.editTarget seq .refused)) (ht : x.target? seq = some t)
    (hsent : .sent r seq ∈ w.trace) : Within r b cap w' := by
  have hsame : newlyMarked r b w'.trace = newlyMarked r b w.trace := by
    rw [htrace]
    exact newlyMarked_append (l := [_]) (by simp)
  refine h.edit htrace (by simp) rfl (by simp) hx hrow rfl
    (Run.plan_editTarget TargetEdit.keepsPlan_refused seq x) ht (fun _ => ?_) ?_
    (fun n hn => hsame ▸ h.bound n hn)
  · rw [htrace]
    exact List.mem_cons_of_mem _ (h.verbs _ hsent seq (by simp [Event.verbTo]))
  · have hcount : (x.editTarget seq .refused).sentCount = x.sentCount :=
      Run.countP_editTarget fun _ => rfl
    rw [hsame, hcount]
    exact h.count x hx

theorem step {o : EffectOp V} {c : Choice V} {holds : Bool} (h : Within r b cap w)
    (hcap : cap = bulkWriteCap b.maxTargets holds) (hprobe : w.ledger.probeHoldsFor D r = holds)
    (hG : Guard D r (seen r w) o) : Within r b cap (perform D w o c).2 := by
  have hrow := runRow_perform (c := c) (i := r) hG
  have hquiet (hsends : o.sends r r = false) (x : Run) (_ : w.ledger.runRow r = some x) :
      (o.onRow D (w.ledger.runRow r) r r x).plan = x.plan ∧
        (o.onRow D (w.ledger.runRow r) r r x).sends = x.sends ∧
        x.Closing (o.onRow D (w.ledger.runRow r) r r x) :=
    ⟨plan_onRow D _ r r o x, sends_onRow hsends x, closing_onRow hsends x⟩
  cases o with
  | call call =>
    have hnext (hsends : call.sends = false) : Within r b cap (perform D w (.call call) c).2 := by
      refine h.next rfl (fun s => ?_) (fun c => ?_) (fun e he s hs => ?_) hrow
        (hquiet (by simp [EffectOp.sends, hsends]))
      · cases call <;> simp [EffectCall.event, EffectCall.sends] at hsends ⊢
      · cases call <;> simp [EffectCall.event]
      · cases call <;> simp [EffectCall.event] at he <;> subst he <;> cases hs
    obtain ⟨hrun, hcall⟩ := hG
    simp only [EffectOp.onRow, if_true] at hrow
    cases call with
    | markSent runId seq via =>
      obtain rfl : runId = r := hrun
      obtain ⟨x, t, hgoing, ht, hpending, hunder, hclear, -⟩ := hcall
      rw [show w.ledger.runRow runId = some x from hgoing.run] at hrow
      exact h.mark rfl hgoing hrow ht hpending hunder hclear
    | markRefused runId seq =>
      obtain rfl : runId = r := hrun
      obtain ⟨x, t, hgoing, ht, hsent⟩ := hcall
      rw [show w.ledger.runRow runId = some x from hgoing.run] at hrow
      exact h.refused rfl hgoing.run hrow ht (hsent.subset (List.mem_singleton_self _))
    | recordApplied run seq result now actual via shopAddedMarkup hostRewrote =>
      obtain rfl : run.id = r := hrun
      obtain ⟨x, t, hgoing, -, ht, hpending, -⟩ := hcall
      rw [show w.ledger.runRow run.id = some x from hgoing.run] at hrow
      exact h.applied rfl hgoing.run hrow ht hpending
    | _ => exact hnext rfl
  | send tag key value =>
    obtain ⟨x, t, hgoing, -, htag, ht, -, hmarked⟩ := hG
    refine h.next (l := [_]) rfl (by simp) (by simp) (fun e he s hs => ?_) hrow (hquiet rfl)
    obtain rfl := List.mem_singleton.mp he
    simp only [Event.verbTo, htag, if_true, Option.some.injEq] at hs
    exact hs ▸ hmarked.subset (List.mem_singleton_self _)
  | read tag place =>
    refine h.next (l := [.read tag place (perform D w (.read tag place) c).1.toOption]) ?_
      (by simp) (by simp) (fun e he s hs => ?_) hrow (hquiet rfl)
    · simp only [perform]
      split <;> rfl
    · obtain rfl := List.mem_singleton.mp he
      cases hs
  | write tag place image =>
    refine h.next (l := [_]) rfl (by simp) (by simp) (fun e he s hs => ?_) hrow (hquiet rfl)
    obtain rfl := List.mem_singleton.mp he
    simp only [Event.verbTo, Option.ite_none_right_eq_some, Option.some.injEq] at hs
    obtain ⟨⟨htag, hside⟩, rfl⟩ := hs
    simp only [Guard, hside] at hG
    obtain ⟨x, t, -, -, -, -, -, -, -, -, -, hmarked⟩ := hG
    exact hmarked.subset List.mem_cons_self
  | probeHoldsFor runId =>
    obtain rfl : runId = r := hG
    refine h.next (l := [_]) rfl (by simp) (fun c' hc => ?_) (fun e he s hs => ?_) hrow (hquiet rfl)
    · obtain ⟨-, rfl⟩ := Event.capped.inj (List.mem_singleton.mp hc)
      obtain ⟨x, hx, hplan⟩ := h.row
      rw [hprobe, hcap, hx]
      exact congrArg (bulkWriteCap · holds) (congrArg RunPlan.maxTargets hplan)
    · obtain rfl := List.mem_singleton.mp he
      cases hs
  | _ => exact h.next (l := []) rfl (by simp) (by simp) (by simp) hrow (hquiet rfl)

end Within

/-! ## Counting -/

theorem Target.change_of_writing {t : Target} (h : t.writing = true) : t.change ≠ .invalid := by
  intro hc
  simp [writing, hc, Change.writes] at h

/-- A resume leaves pending the writing targets it tries again. -/
theorem Target.pending_retry (t : Target) :
    (TargetEdit.retry.apply t).pending = (t.writing && t.resumable) := by
  simp only [TargetEdit.retry, TargetEdit.under]
  split
  · next hretried =>
    simp only [TargetEdit.retried, Bool.and_eq_true, decide_eq_true_eq] at hretried
    simp [pending, resumable, writing, hretried.1.2, hretried.1.1.1]
  · next hkept =>
    rcases hwriting : t.writing with _ | _
    · simp [pending, hwriting]
    · rcases happlied : t.appliedAt with _ | _
      · rcases herror : t.error with _ | error
        · simp [pending, resumable, hwriting, happlied, herror]
        · have hsecret : error = .target .secret := by
            simpa [TargetEdit.retried, happlied, herror, change_of_writing hwriting] using hkept
          simp [pending, resumable, herror, hsecret]
      · simp [pending, resumable, happlied]

namespace Run

variable {x : Run}

/-- The targets a resume leaves pending, counted by what it does not touch. -/
theorem countP_resumed {p : ResumeParams} {writing : ℕ} {maxTargets : Option ℕ} (q : Target → Bool)
    (hq : ∀ t, q (TargetEdit.retry.apply t) = q t) :
    ((RunEdit.resumed p writing maxTargets).apply x).targets.countP (fun t => t.pending && q t) =
      x.targets.countP fun t => t.writing && (t.resumable && q t) := by
  have htargets : ((RunEdit.resumed p writing maxTargets).apply x).targets =
      x.targets.map TargetEdit.retry.apply := rfl
  rw [htargets, List.countP_map]
  refine congrArg (List.countP · x.targets) (funext fun t => ?_)
  simp only [Function.comp_apply, Target.pending_retry, hq, Bool.and_assoc]

theorem countP_split (p q : Target → Bool) :
    x.targets.countP p = x.targets.countP (fun t => p t && q t) +
      x.targets.countP fun t => p t && !q t := by
  rw [List.countP_eq_countP_filter_add x.targets p q, List.countP_filter, List.countP_filter]

end Run

namespace Within

variable {cap : Option ℕ} {w : World V}

/-- The targets a pass sent to, by whether the run had sent to them before. -/
theorem card_verbTargets {q : Target → Bool} (h : Within r b cap w)
    (hq : ∀ t, (¬ b.isLocal → t.unknownSends = 0) → q t = true) : (verbTargets r w.trace).card ≤
      b.targets.countP (fun t => t.pending && t.writeSent && q t) +
        (newlyMarked r b w.trace).card := by
  have hmarked : verbTargets r w.trace ⊆ markedTargets r w.trace := by
    intro s hs
    obtain ⟨e, he, hverb⟩ := List.mem_filterMap.mp (List.mem_toFinset.mp hs)
    exact mem_markedTargets.mpr (h.verbs e he s hverb)
  have hbefore : ((markedTargets r w.trace).filter
      fun s => ¬ (b.target? s).any (!·.writeSent) = true).card ≤
        b.targets.countP fun t => t.pending && t.writeSent && q t := by
    refine Run.card_le_countP fun s hs => ?_
    obtain ⟨hs, hold⟩ := Finset.mem_filter.mp hs
    obtain ⟨t, ht, hpending, hclear⟩ := h.marked s (mem_markedTargets.mp hs)
    have hsent : t.writeSent = true := by simpa [ht] using hold
    exact ⟨t, ht, by simp [hpending, hsent, hq t hclear]⟩
  calc (verbTargets r w.trace).card
      ≤ (markedTargets r w.trace).card := Finset.card_le_card hmarked
    _ = _ := (Finset.card_filter_add_card_filter_not fun s => (b.target? s).any (!·.writeSent) = true).symm
    _ ≤ _ := by
      rw [add_comm]
      exact Nat.add_le_add_right hbefore _

theorem card_newlyMarked (h : Within r b cap w) : (newlyMarked r b w.trace).card ≤
    b.targets.countP fun t => t.pending && !t.writeSent := by
  refine Run.card_le_countP fun s hs => ?_
  obtain ⟨hm, t, ht, hunsent⟩ := mem_newlyMarked.mp hs
  obtain ⟨t', ht', hpending, -⟩ := h.marked s hm
  obtain rfl : t = t' := Option.some.inj (ht.symm.trans ht')
  exact ⟨t, ht, by simp [hpending, hunsent]⟩

end Within

namespace Run

variable {x : Run} {p : ResumeParams} {writing : ℕ} {maxTargets : Option ℕ}

theorem countP_pending_resumed :
    ((RunEdit.resumed p writing maxTargets).apply x).targets.countP Target.pending =
      x.resumeOpen := by
  have hcount : ((RunEdit.resumed p writing maxTargets).apply x).targets.countP
      (fun t => t.pending && true) = x.targets.countP fun t => t.writing && (t.resumable && true) :=
    countP_resumed (fun _ => true) fun _ => rfl
  simp only [Bool.and_true] at hcount
  exact hcount

theorem countP_sent_resumed : ((RunEdit.resumed p writing maxTargets).apply x).targets.countP
    (fun t => t.pending && t.writeSent) = x.openSent :=
  countP_resumed Target.writeSent fun _ => TargetEdit.under_keeps (f := Target.writeSent) rfl

/-- The pending targets that were sent to are those without an unclear send and those with
one. -/
theorem countP_clear_resumed (hx : x.Marked) :
    ((RunEdit.resumed p writing maxTargets).apply x).targets.countP
      (fun t => t.pending && t.writeSent && decide (t.unknownSends = 0)) + x.openUnclear =
      x.openSent := by
  have hunclear : ((RunEdit.resumed p writing maxTargets).apply x).targets.countP
      (fun t => t.pending && t.writeSent && !decide (t.unknownSends = 0)) = x.openUnclear := by
    simp only [Bool.and_assoc]
    refine (countP_resumed (fun t => t.writeSent && !decide (t.unknownSends = 0)) fun _ =>
      TargetEdit.under_keeps (f := fun t => t.writeSent && !decide (t.unknownSends = 0))
        rfl).trans (List.countP_congr fun t ht => ?_)
    have hmarked := hx t ht
    rcases Nat.eq_zero_or_pos t.unknownSends with hzero | hpos
    · simp [hzero]
    · simp [hpos, hmarked hpos, Nat.ne_of_gt hpos]
  rw [← hunclear, ← countP_split, countP_sent_resumed]

end Run

/-- The status of a stopped run against the pass that follows its resume. -/
theorem Within.le_resumeSends {L : Ledger} {x : Run} {cap : Option ℕ} {w : World V}
    {p : ResumeParams} {writing : ℕ}
    (h : Within r ((RunEdit.resumed p writing x.maxTargets).apply x) cap w)
    (hcap : cap = bulkWriteCap x.maxTargets (L.probeCoverage D x).1) (hx : x.Marked) :
    (verbTargets r w.trace).card ≤ L.resumeSends D x := by
  generalize hb : (RunEdit.resumed p writing x.maxTargets).apply x = b at h
  have hopen : b.targets.countP Target.pending = x.resumeOpen := hb ▸ Run.countP_pending_resumed
  have hsent : b.targets.countP (fun t => t.pending && t.writeSent) = x.openSent :=
    hb ▸ Run.countP_sent_resumed
  have hclear : b.targets.countP (fun t => t.pending && t.writeSent &&
      decide (t.unknownSends = 0)) + x.openUnclear = x.openSent :=
    hb ▸ Run.countP_clear_resumed hx
  have hsplit := Run.countP_split (x := b) Target.pending Target.writeSent
  have hcount : b.sentCount = x.sentCount := by
    rw [Run.sentCount_eq, Run.sentCount_eq, ← hb, Run.sends_resumed]
  have hsystem : b.targetSystem = x.targetSystem := by
    rw [← hb]
    rfl
  have hnew := h.card_newlyMarked
  -- the marks on targets never sent to, under the cap and among the open ones
  have htries : x.openSent + (newlyMarked r b w.trace).card ≤ L.resumeTries D x := by
    unfold Ledger.resumeTries
    split
    · omega
    · next n hn =>
      have hbound := h.bound n (hcap.trans hn)
      omega
  unfold Ledger.resumeSends
  split
  · next hlocal =>
    have hverbs := h.card_verbTargets (q := fun _ => true) fun _ _ => rfl
    simp only [Bool.and_true] at hverbs
    omega
  · next hhost =>
    have hverbs := h.card_verbTargets (q := fun t => decide (t.unknownSends = 0)) fun t ht =>
      decide_eq_true (ht fun hl => hhost (hsystem ▸ hl))
    omega

/-! ## Histories -/

/-- Passes over `r` until its owner resumes it again : no other run is entered, others leave its
row as it is, and its probe holds or not as it did before. -/
def Steady (D : Deps V) (r : String) (holds : Bool) (x : BulkConfig V) (a : BulkAction V) : Prop :=
  x.state.ledger.probeHoldsFor D r = holds ∧ Alone D x a ∧
    match a with
    | .enter p => p.run = r
    | .outside e => (e.perform D x.state).ledger.runRow r = x.state.ledger.runRow r
    | .advance _ | .die => True

variable [DecidableEq V]

theorem sound_within (D : Deps V) (r : String) (b : Run) (holds : Bool) :
    (bulkSystem D).Sound (fun p => seen p.run)
      (fun live w => w.ledger.WellFormed ∧ (∀ p, live = some p → p.run = r) ∧
        Within r b (bulkWriteCap b.maxTargets holds) w)
      (fun p => Guard D p.run) (fun _ _ => Ended) (Steady D r holds) :=
  have hpush {w : World V} {e : Event V} (h : Within r b (bulkWriteCap b.maxTargets holds) w)
      (hmark : ∀ s, e ≠ .marked r s) (hcap : ∀ c, e ≠ .capped r c) (hverb : e.verbTo r = none) :
      Within r b (bulkWriteCap b.maxTargets holds) (w.push e) :=
    h.next (l := [e]) (f := fun x => x) rfl (fun s => by simpa using (hmark s).symm)
      (fun c hc => absurd (List.mem_singleton.mp hc).symm (hcap c))
      (fun e' he' s hs => by rw [List.mem_singleton.mp he', hverb] at hs; cases hs)
      Option.map_id'.symm fun _ _ => ⟨rfl, rfl, Run.closing_of_targets rfl⟩
  sound_of_steps (fun _ _ h => h.2.1)
    (fun _ _ ha _ h => ⟨by rintro _ ⟨⟩; exact ha.2.2, hpush h.2 (by simp) (by simp) rfl⟩)
    (fun p w o k c ha _ h hG => by
      obtain rfl := h.1 p rfl
      exact ⟨h.1, h.2.step rfl ha.1 hG⟩)
    (fun _ _ h _ => ⟨by simp, hpush h.2 (by simp) (by simp) rfl⟩)
    (fun _ _ _ _ h => ⟨by simp, hpush h.2 (by simp) (by simp) rfl⟩)
    fun e w live ha _ h => ⟨h.1, h.2.next (l := []) (f := fun x => x) trace_outside (by simp)
      (by simp) (by simp) (ha.2.2.trans Option.map_id'.symm)
      fun _ _ => ⟨rfl, rfl, Run.closing_of_targets rfl⟩⟩

namespace Ledger

variable {ops : List (LedgerOp V)}

/-- A stopped run of any ledger that was run is resumed under the maximum it had. Whatever the
host answers, the passes until its next resume send to at most the targets the status showed. -/
theorem resume_keeps_to_the_status (hops : Lynox.Run.Obeys (step D) LedgerOp.Allowed empty ops)
    {x : Run} (hx : (afterOps D ops).runRow r = some x) {p : ResumeParams} {L' : Ledger}
    (hresume : (afterOps D ops).resume D r p = .ok L')
    (hmax : p.maxTargets.or x.maxTargets = x.maxTargets) (store : Place → Image V)
    {history : List (BulkAction V)}
    (ho : (bulkSystem D).Obeys (Steady D r ((afterOps D ops).probeHoldsFor D r))
      ⟨⟨L', store, []⟩, none⟩ history) :
    (verbTargets r ((bulkSystem D).run ⟨⟨L', store, []⟩, none⟩ history).state.trace).card ≤
      (afterOps D ops).resumeSends D x := by
  obtain ⟨hstaged, hmarked⟩ := invariant_afterOps (I := Marked)
    (fun hL hI hs => Marked.statement hL hI hs) (by simp [Marked, empty]) hops
  obtain ⟨run, hrun, -, -, -, rfl⟩ := resume_ok hresume
  obtain rfl : run = x := Option.some.inj (hrun.symm.trans hx)
  rw [hmax] at hresume ho ⊢
  have hrow : ((afterOps D ops).editRun r (.resumed p run.countWriting run.maxTargets)).runRow r =
      some ((RunEdit.resumed p run.countWriting run.maxTargets).apply run) := row_editRun hx
  have hend := (sound_within D r _ _).run
    ⟨hstaged.wellFormed.resume hresume, by simp, Within.init hrow rfl⟩ ho
  have hprobe : (afterOps D ops).probeHoldsFor D r = ((afterOps D ops).probeCoverage D run).1 := by
    rw [probeHoldsFor, hx]
    rfl
  exact hend.2.2.le_resumeSends (congrArg _ hprobe) (hmarked run (mem_of_runRow hx))

/-- The run of `externalPreview` is halted before its first send. -/
def haltedUnsent : List (LedgerOp Bool) :=
  externalPreview ++ [.effect (.setWriting "r"), .halt "r" .timeBudget]

/-- The pass after its resume reads the target and sends to it. -/
def resumedPass : List (BulkAction Bool) :=
  .enter ⟨"r", .apply⟩ ::
    List.replicate 40 (.advance { got := .host (.ok (some false)), answer := .ok none })

def resumedWorld : World Bool where
  ledger := (afterOps plainDeps haltedUnsent).orElse
    ((afterOps plainDeps haltedUnsent).resume plainDeps "r" { checksum := "hash" })
  store := fun _ => .value false

theorem resume_sends_to_its_one_target :
    ∃ x, (afterOps plainDeps haltedUnsent).runRow "r" = some x ∧
      (verbTargets "r" ((bulkSystem plainDeps).run ⟨resumedWorld, none⟩
        resumedPass).state.trace).card = 1 ∧
      1 ≤ (afterOps plainDeps haltedUnsent).resumeSends plainDeps x := by
  have hobeys : Lynox.Run.Obeys (step plainDeps) LedgerOp.Allowed empty haltedUnsent :=
    Run.obeys_append.mpr ⟨obeys_externalPreview 5,
      EffectCall.Fits.of_approved (by decide +kernel) rfl rfl, rfl, trivial⟩
  obtain ⟨x, hx⟩ : ∃ x, (afterOps plainDeps haltedUnsent).runRow "r" = some x :=
    Option.isSome_iff_exists.mp (by decide +kernel)
  have hresume : (afterOps plainDeps haltedUnsent).resume plainDeps "r" { checksum := "hash" } =
      .ok resumedWorld.ledger := by
    have hok : ((afterOps plainDeps haltedUnsent).resume plainDeps "r"
        { checksum := "hash" }).toOption.isSome = true := by
      decide +kernel
    unfold resumedWorld
    rcases hr : (afterOps plainDeps haltedUnsent).resume plainDeps "r" { checksum := "hash" } with
      refusal | L
    · rw [hr] at hok
      cases hok
    · rfl
  have hsteady : (bulkSystem plainDeps).Obeys
      (Steady plainDeps "r" ((afterOps plainDeps haltedUnsent).probeHoldsFor plainDeps "r"))
      ⟨resumedWorld, none⟩ resumedPass := by
    have hprobe : ∀ i ∈ List.range 41, ((bulkSystem plainDeps).run ⟨resumedWorld, none⟩
        (resumedPass.take i)).state.ledger.probeHoldsFor plainDeps "r" =
          (afterOps plainDeps haltedUnsent).probeHoldsFor plainDeps "r" := by
      decide +kernel
    refine System.obeys_of_take _ fun i a ha => ?_
    obtain ⟨hi, -⟩ := List.getElem?_eq_some_iff.mp ha
    refine ⟨hprobe i (List.mem_range.mpr hi), ?_⟩
    rcases List.mem_cons.mp (List.mem_of_getElem? ha) with rfl | ha
    · exact ⟨trivial, rfl⟩
    · obtain rfl := List.eq_of_mem_replicate ha
      exact ⟨trivial, trivial⟩
  have hone : (verbTargets "r" ((bulkSystem plainDeps).run ⟨resumedWorld, none⟩
      resumedPass).state.trace).card = 1 := by
    decide +kernel
  exact ⟨x, hx, hone, hone ▸ resume_keeps_to_the_status hobeys hx hresume rfl _ hsteady⟩

end Ledger

end Lynox.Bulk
