import Lynox.Bulk.Sends

/-!
# No send after an unclear one

A mark goes up before the verb leaves, and comes down when the host refuses it. `OneClear`
keeps the two in step with the trace : while no mark is up every send so far was reported
refused, and a mark goes up on a host only when none is. A death between any two of these
steps leaves the mark, and no resume takes it away.
-/

namespace Lynox.Bulk

variable {V : Type} {D : Deps V} {r : String} {s : ℕ}

/-! ## Sends in a trace -/

/-- Every send to the target was reported refused, right after it. -/
def Cleared (r : String) (s : ℕ) (trace : List (Event V)) : Prop :=
  ∀ mid older, trace = mid ++ .sent r s :: older → ∃ later, mid = later ++ [.refused r s]

/-- Whenever the verb was sent to the target, every earlier send had been reported refused. -/
def SentOnce (r : String) (s : ℕ) (trace : List (Event V)) : Prop :=
  ∀ post pre, trace = post ++ .sent r s :: pre → Cleared r s pre

theorem cleared_of_notMem {trace : List (Event V)} (h : .sent r s ∉ trace) :
    Cleared r s trace := by
  rintro mid older rfl
  simp at h

theorem split_append {l trace mid older : List (Event V)} {e : Event V} (he : e ∉ l)
    (h : l ++ trace = mid ++ e :: older) : ∃ mid', mid = l ++ mid' ∧ trace = mid' ++ e :: older := by
  rcases List.append_eq_append_iff.mp h with ⟨as, rfl, htrace⟩ | ⟨bs, rfl, hbs⟩
  · exact ⟨as, rfl, htrace⟩
  · cases bs with
    | nil => exact ⟨[], by simp, by simpa using hbs.symm⟩
    | cons b bs =>
      obtain ⟨rfl, -⟩ := List.cons.inj hbs
      simp at he

theorem Cleared.append {l trace : List (Event V)} (hes : .sent r s ∉ l) (h : Cleared r s trace) :
    Cleared r s (l ++ trace) := by
  intro mid older heq
  obtain ⟨mid', rfl, htrace⟩ := split_append hes heq
  obtain ⟨later, rfl⟩ := h mid' older htrace
  exact ⟨l ++ later, (List.append_assoc ..).symm⟩

theorem Cleared.refused {trace : List (Event V)} (h : Cleared r s trace) :
    Cleared r s (.refused r s :: .sent r s :: trace) := by
  intro mid older heq
  cases mid with
  | nil => cases heq
  | cons e mid =>
    obtain ⟨rfl, htail⟩ := List.cons.inj heq
    cases mid with
    | nil => exact ⟨[], rfl⟩
    | cons e' mid =>
      obtain ⟨rfl, hrest⟩ := List.cons.inj htail
      obtain ⟨later, rfl⟩ := h mid older hrest
      exact ⟨.refused r s :: .sent r s :: later, rfl⟩

theorem SentOnce.append {l trace : List (Event V)} (hes : .sent r s ∉ l)
    (h : SentOnce r s trace) : SentOnce r s (l ++ trace) := by
  intro post pre heq
  obtain ⟨post', -, htrace⟩ := split_append hes heq
  exact h post' pre htrace

theorem SentOnce.sent {trace : List (Event V)} (h : SentOnce r s trace) (hc : Cleared r s trace) :
    SentOnce r s (.sent r s :: trace) := by
  intro post pre heq
  cases post with
  | nil =>
    obtain ⟨-, rfl⟩ := List.cons.inj heq
    exact hc
  | cons e post => exact h post pre (List.cons.inj heq).2

/-- A send that was not reported refused is the last. -/
theorem SentOnce.last {post pre : List (Event V)} (h : SentOnce r s (post ++ .sent r s :: pre))
    (hopen : ¬ ∃ later, post = later ++ [.refused r s]) : .sent r s ∉ post := by
  intro hmem
  obtain ⟨a, b, rfl⟩ := List.append_of_mem hmem
  have hcleared := h a (b ++ .sent r s :: pre) (by simp)
  obtain ⟨later, rfl⟩ := hcleared b pre rfl
  exact hopen ⟨a ++ .sent r s :: later, by simp⟩

/-! ## The invariant -/

def World.started (w : World V) (r : String) : Prop :=
  ∃ x, w.ledger.runRow r = some x ∧ x.started = true

def World.external (w : World V) (r : String) : Prop :=
  ∃ x, w.ledger.runRow r = some x ∧ ¬ x.isLocal

/-- How many sends to the target are unclear. -/
def World.unknown (w : World V) (r : String) (s : ℕ) : ℕ :=
  ((w.ledger.row r s).map Target.unknownSends).getD 0

/-- The marks of a target and its sends are in step. -/
structure OneClear (r : String) (s : ℕ) (w : World V) : Prop where
  begun : .marked r s ∈ w.trace ∨ .sent r s ∈ w.trace → w.started r
  cleared : w.unknown r s = 0 → Cleared r s w.trace
  marked : [.marked r s] <+: w.trace → 0 < w.unknown r s ∧ (w.external r → Cleared r s w.trace)
  sent : ∀ rest, w.trace = .sent r s :: rest → 0 < w.unknown r s ∧ Cleared r s rest
  once : SentOnce r s w.trace

/-- A step that neither marks nor sends to the target. -/
theorem OneClear.next {w w' : World V} {l : List (Event V)} (h : OneClear r s w)
    (htrace : w'.trace = l ++ w.trace)
    (hes : .marked r s ∉ l ∧ .sent r s ∉ l)
    (hkeep : w.started r → w'.started r ∧ (w'.external r → w.external r) ∧
      w'.unknown r s = w.unknown r s) : OneClear r s w' := by
  have hmem {e : Event V} (he : e ∉ l) : e ∈ w'.trace ↔ e ∈ w.trace := by
    rw [htrace, List.mem_append, or_iff_right he]
  -- a trace that starts with a mark or a send of the target was not extended
  have hsame {e : Event V} {rest : List (Event V)} (he : e ∉ l) (hw : w'.trace = e :: rest) :
      w'.trace = w.trace := by
    cases l with
    | nil => simpa using htrace
    | cons e' l =>
      obtain ⟨rfl, -⟩ := List.cons.inj (hw.symm.trans htrace)
      simp at he
  refine ⟨?_, ?_, ?_, ?_, ?_⟩
  · rw [hmem hes.1, hmem hes.2]
    exact fun hb => (hkeep (h.begun hb)).1
  · intro hu
    rw [htrace]
    refine Cleared.append hes.2 ?_
    by_cases hsent : .sent r s ∈ w.trace
    · exact h.cleared ((hkeep (h.begun (.inr hsent))).2.2 ▸ hu)
    · exact cleared_of_notMem hsent
  · rintro ⟨rest, hrest⟩
    have htr := hsame hes.1 hrest.symm
    have hold := h.marked ⟨rest, htr ▸ hrest⟩
    obtain ⟨-, hext, hu⟩ := hkeep (h.begun (.inl (htr ▸ hrest ▸ List.mem_cons_self)))
    exact ⟨hu ▸ hold.1, fun he => htr ▸ hold.2 (hext he)⟩
  · intro rest hrest
    have htr := hsame hes.2 hrest
    have hold := h.sent rest (htr ▸ hrest)
    obtain ⟨-, -, hu⟩ := hkeep (h.begun (.inr (htr ▸ hrest ▸ List.mem_cons_self)))
    exact ⟨hu ▸ hold.1, hold.2⟩
  · rw [htrace]
    exact h.once.append hes.2

/-- The mark goes up; on a host only while none is. -/
theorem OneClear.mark {w w' : World V} (h : OneClear r s w)
    (htrace : w'.trace = .marked r s :: w.trace) (hstarted : w'.started r)
    (hunknown : w'.unknown r s = w.unknown r s + 1)
    (hclear : w'.external r → w.unknown r s = 0) : OneClear r s w' where
  begun _ := hstarted
  cleared hu := by omega
  marked _ := ⟨by omega, fun hext => by
    rw [htrace]
    exact Cleared.append (l := [_]) (by simp) (h.cleared (hclear hext))⟩
  sent rest hrest := by
    rw [htrace] at hrest
    cases hrest
  once := by
    rw [htrace]
    exact h.once.append (l := [_]) (by simp)

/-- The verb leaves under its mark. -/
theorem OneClear.leave {w w' : World V} (h : OneClear r s w) (hlast : [.marked r s] <+: w.trace)
    (hext : w.external r) (htrace : w'.trace = .sent r s :: w.trace) (hstarted : w'.started r)
    (hunknown : w'.unknown r s = w.unknown r s) : OneClear r s w' := by
  obtain ⟨hpos, hcleared⟩ := h.marked hlast
  refine ⟨fun _ => hstarted, fun hu => by omega, ?_, ?_, ?_⟩
  · rintro ⟨rest, hrest⟩
    rw [htrace] at hrest
    cases hrest
  · intro rest hrest
    rw [htrace] at hrest
    obtain ⟨-, rfl⟩ := List.cons.inj hrest
    exact ⟨by omega, hcleared hext⟩
  · rw [htrace]
    exact h.once.sent (hcleared hext)

/-- The refusal of the last send. -/
theorem OneClear.refuse {w w' : World V} (h : OneClear r s w) (hlast : [.sent r s] <+: w.trace)
    (htrace : w'.trace = .refused r s :: w.trace) (hstarted : w'.started r) : OneClear r s w' := by
  obtain ⟨rest, hrest⟩ := hlast
  obtain ⟨-, hcleared⟩ := h.sent rest hrest.symm
  refine ⟨fun _ => hstarted, fun _ => ?_, ?_, ?_, ?_⟩
  · rw [htrace, ← hrest]
    exact hcleared.refused
  · rintro ⟨rest', hrest'⟩
    rw [htrace] at hrest'
    cases hrest'
  · intro rest' hrest'
    rw [htrace] at hrest'
    cases hrest'
  · rw [htrace]
    exact h.once.append (l := [_]) (by simp)

/-! ## Steps -/

theorem unknown_of_runRow {w w' : World V}
    (h : ((w'.ledger.runRow r).bind (·.target? s)).map Target.unknownSends =
      ((w.ledger.runRow r).bind (·.target? s)).map Target.unknownSends) :
    w'.unknown r s = w.unknown r s :=
  congrArg (·.getD 0) h

theorem unknown_of_sends {x x' : Run} (h : x'.sends = x.sends) :
    (x'.target? s).map Target.unknownSends = (x.target? s).map Target.unknownSends := by
  have hsends : (x'.target? s).map Target.sends = (x.target? s).map Target.sends := by
    rw [Run.target?_sends, Run.target?_sends, h]
  have hunknown := congrArg (Option.map SendRow.unknown) hsends
  rw [Option.map_map, Option.map_map] at hunknown
  exact hunknown

/-- A guarded operation other than a mark of the target or its refusal leaves its marks. -/
theorem unknown_onOwn {c : EffectCall V} (hmark : ∀ p via, c ≠ .markSent p s via)
    (hrefuse : ∀ p, c ≠ .markRefused p s) (x : Run) :
    ((c.onOwn D x).target? s).map Target.unknownSends =
      (x.target? s).map Target.unknownSends := by
  cases c with
  | markSent runId seq via =>
    have hne : s ≠ seq := fun he => hmark runId via (he ▸ rfl)
    exact congrArg (Option.map Target.unknownSends)
      (Run.target?_editTarget_ne (r := x.noteFirst via) hne)
  | markRefused runId seq =>
    have hne : s ≠ seq := fun he => hrefuse runId (he ▸ rfl)
    exact congrArg (Option.map Target.unknownSends) (Run.target?_editTarget_ne hne)
  | recordApplied run seq result now actual via shopAddedMarkup hostRewrote =>
    simp only [EffectCall.onOwn, Run.recordApplied]
    split
    · refine Eq.trans ?_ (congrArg (Option.map _) (rfl : (x.noteFirst via).target? s = _))
      show (((x.noteFirst via).editTarget seq _).target? s).map _ = _
      rw [Run.target?_editTarget]
      split
      · rw [Option.map_map]
        rfl
      · rfl
    · rfl
  | _ => exact unknown_of_sends (sends_onOwn rfl x)

/-- What a guarded operation keeps of a started run. -/
theorem kept_perform {p : String} {w : World V} {o : EffectOp V} {c : Choice V}
    (hG : Guard D p (seen p w) o) (hmark : ∀ via, o ≠ .call (.markSent r s via))
    (hrefuse : o ≠ .call (.markRefused r s)) (h : w.started r) :
    (perform D w o c).2.started r ∧ ((perform D w o c).2.external r → w.external r) ∧
      (perform D w o c).2.unknown r s = w.unknown r s := by
  obtain ⟨x, hx, hs⟩ := h
  have hrow : (perform D w o c).2.ledger.runRow r =
      some (o.onRow D (w.ledger.runRow p) p r x) := by rw [runRow_perform hG, hx]; rfl
  refine ⟨⟨_, hrow, started_onRow hG hx hs⟩, ?_, ?_⟩
  · rintro ⟨x', hx', hext⟩
    obtain rfl := Option.some.inj (hrow.symm.trans hx')
    exact ⟨x, hx, fun hl => hext ((Run.isLocal_of_plan (plan_onRow ..)).mpr hl)⟩
  · refine unknown_of_runRow ?_
    rw [hrow, hx]
    cases o with
    | call call =>
      by_cases hid : r = p
      · subst hid
        have hrun : call.runId = r := hG.1
        simp only [EffectOp.onRow, if_true]
        refine unknown_onOwn (fun q via he => ?_) (fun q he => ?_) x
        · subst he
          exact hmark via (by rw [← show q = r from hrun])
        · subst he
          exact hrefuse (by rw [← show q = r from hrun])
      · refine unknown_of_sends (sends_onRow ?_ x)
        simp [EffectOp.sends, Ne.symm hid]
    | _ => exact unknown_of_sends (sends_onRow rfl x)

/-- No write but the mark itself leaves a mark or a send in the trace. -/
theorem event_ne {call : EffectCall V} (hmark : ¬ ∃ via, call = .markSent r s via) :
    .marked r s ∉ call.event.toList ∧ .sent r s ∉ call.event.toList := by
  cases call with
  | markSent runId seq via =>
    simp only [EffectCall.event, Option.toList_some, List.mem_singleton, Event.marked.injEq,
      reduceCtorEq, not_false_eq_true, and_true]
    rintro ⟨rfl, rfl⟩
    exact hmark ⟨via, rfl⟩
  | _ => simp [EffectCall.event]

theorem OneClear.step {p : String} {w : World V} {o : EffectOp V} {c : Choice V}
    (h : OneClear r s w) (hG : Guard D p (seen p w) o) : OneClear r s (perform D w o c).2 := by
  by_cases hmark : ∃ via, o = .call (.markSent r s via)
  · obtain ⟨via, rfl⟩ := hmark
    have hrow := runRow_perform (c := c) (i := r) hG
    obtain ⟨rfl, x, t, hgoing, ht, -, -, hclear, -⟩ := hG
    have hx : w.ledger.runRow r = some x := hgoing.run
    simp only [EffectCall.runId, hx, Option.map_some, EffectOp.onRow, if_true] at hrow
    have ht' : ((x.noteFirst via).editTarget s (.sent via)).target? s =
        some ((TargetEdit.sent via).apply t) := by
      rw [Run.target?_editTarget_self, show (x.noteFirst via).target? s = some t from ht]
      rfl
    refine h.mark rfl ⟨_, hrow, hgoing.started⟩ ?_ ?_
    · rw [World.unknown, World.unknown, Ledger.row, Ledger.row, hrow, hx]
      simp only [Option.bind_some, ht, EffectCall.onOwn, Run.markSent, ht']
      rfl
    · rintro ⟨x', hx', hext⟩
      obtain rfl := Option.some.inj (hrow.symm.trans hx')
      rw [World.unknown, Ledger.row, hx, Option.bind_some, ht]
      exact hclear hext
  by_cases hrefuse : o = .call (.markRefused r s)
  · subst hrefuse
    have hrow := runRow_perform (c := c) (i := r) hG
    obtain ⟨rfl, x, t, hgoing, -, hlast⟩ := hG
    have hx : w.ledger.runRow r = some x := hgoing.run
    simp only [EffectCall.runId, hx, Option.map_some, EffectOp.onRow, if_true] at hrow
    exact h.refuse hlast rfl ⟨_, hrow, hgoing.started⟩
  have hkeep := kept_perform (c := c) hG (not_exists.mp hmark) hrefuse
  cases o with
  | send tag key value =>
    by_cases htarget : tag.run = r ∧ tag.seq = s
    · obtain ⟨x, t, hgoing, hext, hrun, -, -, hlast⟩ := hG
      obtain ⟨rfl, rfl⟩ := htarget
      subst hrun
      obtain ⟨hstarted, -, hunknown⟩ := hkeep ⟨x, hgoing.run, hgoing.started⟩
      exact h.leave hlast ⟨x, hgoing.run, hext⟩ rfl hstarted hunknown
    · have hother : Event.sent (V := V) r s ≠ .sent tag.run tag.seq := by
        rintro ⟨⟩
        exact htarget ⟨rfl, rfl⟩
      exact h.next (l := [.sent tag.run tag.seq]) rfl (by simpa using hother) hkeep
  | call call =>
    exact h.next rfl (event_ne fun hvia => hmark (hvia.imp fun _ he => congrArg EffectOp.call he)) hkeep
  | read tag place =>
    refine h.next (l := [.read tag place (perform D w (.read tag place) c).1.toOption]) ?_
      (by simp) hkeep
    simp only [perform]
    split <;> rfl
  | write tag place image => exact h.next (l := [_]) rfl (by simp) hkeep
  | probeHoldsFor runId => exact h.next (l := [_]) rfl (by simp) hkeep
  | _ => exact h.next (l := []) rfl (by simp) hkeep

theorem OneClear.others {w : World V} {e : Outside V} (h : OneClear r s w)
    (hwf : w.ledger.WellFormed) : OneClear r s (e.perform D w) := by
  refine h.next (l := []) trace_outside (by simp) ?_
  rintro ⟨x, hx, hs⟩
  rcases runRow_outside (e := e) (D := D) hwf hx hs with hrow | ⟨p, hphase, -, hrow⟩
  · refine ⟨⟨x, hrow, hs⟩, fun ⟨x', hx', hext⟩ => ⟨x', ?_, hext⟩, unknown_of_runRow (by rw [hrow, hx])⟩
    rw [hx, ← hrow, hx']
  · refine ⟨⟨_, hrow, Run.started_of_open hphase⟩, ?_, unknown_of_runRow ?_⟩
    · rintro ⟨x', hx', hext⟩
      obtain rfl := Option.some.inj (hrow.symm.trans hx')
      exact ⟨x, hx, hext⟩
    · rw [hrow, hx]
      exact unknown_of_sends Run.sends_resumed

/-! ## Histories -/

variable [DecidableEq V]

theorem sound_oneClear (D : Deps V) (r : String) (s : ℕ) :
    (bulkSystem D).Sound (fun p => seen p.run) (fun _ w => w.ledger.WellFormed ∧ OneClear r s w)
      (fun p => Guard D p.run) (fun _ _ => Ended) (Alone D) :=
  have hpush {w : World V} {e : Event V} (h : OneClear r s w) (he : e ≠ .marked r s ∧ e ≠ .sent r s) :
      OneClear r s (w.push e) :=
    h.next (l := [e]) rfl (by simpa using ⟨he.1.symm, he.2.symm⟩)
      fun hs => ⟨hs, fun hext => hext, rfl⟩
  sound_of_steps (fun _ _ h => h) (fun _ _ _ _ h => hpush h (by simp))
    (fun _ _ _ _ _ _ _ h hG => h.step hG) (fun _ _ h _ => hpush h (by simp))
    (fun _ _ _ _ h => hpush h (by simp)) fun _ _ _ _ hwf h => h.others hwf

/-- Over every history of passes, deaths, re-entries and resumes : whenever the write verb is
sent to a target, every earlier send of the run to it had been reported refused, and a send
that was not reported refused is the last. -/
theorem sent_at_most_once_unclear (D : Deps V) (w : World V) (hw : w.ledger.WellFormed)
    (htrace : w.trace = []) (history : List (BulkAction V))
    (ho : (bulkSystem D).Obeys (Alone D) ⟨w, none⟩ history) (r : String) (s : ℕ)
    (post pre : List (Event V))
    (hsent : ((bulkSystem D).run ⟨w, none⟩ history).state.trace = post ++ .sent r s :: pre) :
    (∀ mid older, pre = mid ++ .sent r s :: older → ∃ later, mid = later ++ [.refused r s]) ∧
      ((¬ ∃ later, post = later ++ [.refused r s]) → .sent r s ∉ post) := by
  have hinit : OneClear r s w := by
    constructor <;> simp [htrace, Cleared, SentOnce]
  have hend := ((sound_oneClear D r s).run ⟨hw, hinit⟩ ho).2.once
  exact ⟨hend post pre hsent, (hsent ▸ hend).last⟩

/-- A pass whose send is answered with a 429 and that dies, then one whose send succeeds. -/
def refusedThenSent : List (BulkAction Bool) :=
  let read : Choice Bool := { got := .host (.ok (some false)) }
  .enter ⟨"r", .apply⟩ ::
    List.replicate 27 (.advance { read with answer := .retryAfter 7 }) ++ .die ::
    .enter ⟨"r", .apply⟩ ::
    List.replicate 26 (.advance { read with now := 5000000, answer := .ok none })

theorem second_send_after_refusal :
    ∃ later : List (Event Bool),
      [.marked "r" 0, .capped "r" (some 1), .entered "r", .died "r", .refused "r" 0] =
        later ++ [.refused "r" 0] :=
  (sent_at_most_once_unclear plainDeps
    (plainWorld (plainRun "http:host" false [plainTarget 0 "/items/1"] (by decide)))
    (plainWorld_wellFormed ..) rfl refusedThenSent
    (obeys_of_passes fun e => by simp [refusedThenSent]) "r" 0 [] _ (by decide)).1 _
    [.marked "r" 0, .capped "r" (some 1), .entered "r"] rfl

end Lynox.Bulk
