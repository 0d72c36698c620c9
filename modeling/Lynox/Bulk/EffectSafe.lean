import Lynox.Bulk.Guards

/-!
# The effect keeps its guards

`safe_runBulkEffect` : every operation of a pass satisfies its guard, whatever the surroundings
answer and wherever the pass stops. The proof follows the program. `Taken` is what holds of a
claimed target until its outcome is recorded, `LoopInv` what holds between two targets, and
`RollingBack` what holds between two steps of a roll-back. Everything the later modules say
about histories of passes rests on this one theorem and on what a guarded operation does.
-/

namespace Lynox.Bulk

variable {V : Type} {D : Deps V} {r : String} {run : Run}

/-! ## Programs that leave no trace -/

section Quiet

variable {α β : Type} {Q : β → Seen V → Prop} {v : Seen V}

/-- A program that changes nothing the pass sees. -/
abbrev Quiet (D : Deps V) (r : String) (p : Effect V α) (v : Seen V) : Prop :=
  Safe D r (fun _ v' => v' = v) p v

theorem Quiet.andThen {p : Effect V α} {f : α → Effect V β} (hp : Quiet D r p v)
    (hf : ∀ a, Safe D r Q (f a) v) : Safe D r Q (p >>= f) v :=
  Program.Guarded.bind hp fun a _ hv => hv ▸ hf a

theorem quiet_ask {o : EffectOp V} (hG : Guard D r v o) (ho : ∀ w c, (perform D w o c).2 = w) :
    Quiet D r (ask o) v :=
  ⟨hG, fun w c hw => by rw [ho, hw]; rfl⟩

theorem quiet_carriedBy {w : TargetWriter V} : Quiet D r (carriedBy w) v := by
  unfold carriedBy
  split
  · exact quiet_ask trivial fun _ _ => rfl
  · rfl

/-- What `call` answers or throws is what its last try got. -/
def CallOk (P : ExternalRead V → Seen V → Prop) (out : Except Thrown (ExternalRead V))
    (v : Seen V) : Prop :=
  match out with
  | .error e => ∃ got, got.thrown = some e ∧ P got v
  | .ok got => P got v

theorem safe_callHost {P : ExternalRead V → Seen V → Prop} {once : Effect V (ExternalRead V)}
    (h : Safe D r P once v)
    (hretry : ∀ got v', P got v' → got.retryMs.isSome = true → Safe D r P once v') :
    Safe D r (CallOk P) (callHost once) v := by
  have hend : ∀ got v', P got v' → ∀ last : Effect V (Except Thrown (ExternalRead V)),
      (∀ e, got.thrown = some e → last = pure (.error e)) →
      (got.thrown = none → last = pure (.ok got)) → Safe D r (CallOk P) last v' := by
    intro got v' hP last herror hok
    cases hthrown : got.thrown with
    | some e =>
      rw [herror e hthrown]
      exact ⟨got, hthrown, hP⟩
    | none =>
      rw [hok hthrown]
      exact hP
  refine Program.Guarded.bind h fun first v' hP => ?_
  dsimp only
  split
  · next ms hms =>
    refine safe_ask trivial (fun _ _ => rfl) fun _ => ?_
    exact Program.Guarded.bind (hretry first v' hP (by rw [hms]; rfl)) fun got v'' hP' =>
      hend got v'' hP' _ (fun e he => by rw [he]) fun hnone => by rw [hnone]
  · exact Program.Guarded.bind (Program.guarded_pure.mpr hP) fun got v'' hP' =>
      hend got v'' hP' _ (fun e he => by rw [he]) fun hnone => by rw [hnone]

/-- What a writer throws never ends a run as an unapproved one. -/
def Thrown.plain : Thrown → Prop
  | .halt reason => reason.endsUnapproved = false
  | .redirect | .secret | .other => True

theorem plain_of_thrown {got : ExternalRead V} {e : Thrown} (h : got.thrown = some e) :
    e.plain := by
  unfold ExternalRead.thrown at h
  split at h <;> first | exact (Option.some.inj h) ▸ rfl | exact (Option.some.inj h) ▸ trivial | cases h

theorem safe_readAnswer (key : String) (fields : List String) :
    Safe D r (fun out v' => v' = v ∧ ∀ e, out = .error e → e.plain) (readAnswer D key fields) v := by
  have hget : Quiet D r (ask (.get key)) v := quiet_ask trivial fun _ _ => rfl
  refine Program.Guarded.bind (safe_callHost hget fun _ _ hv _ => hv ▸ hget) fun out v' hv => ?_
  cases out with
  | error e =>
    obtain ⟨got, he, rfl⟩ := hv
    refine ⟨rfl, ?_⟩
    rintro e' ⟨⟩
    exact plain_of_thrown he
  | ok got =>
    obtain rfl : v' = v := hv
    split <;> refine ⟨rfl, ?_⟩ <;> rintro e ⟨⟩ <;> trivial

end Quiet

/-! ## A claimed target -/

theorem Run.place_of_plan {x : Run} (h : x.plan = run.plan) (key : String) :
    run.place key = x.place key := by
  have hsystem : x.targetSystem = run.targetSystem := congrArg RunPlan.targetSystem h
  have hcollection : x.targetCollection = run.targetCollection :=
    congrArg RunPlan.targetCollection h
  rw [place, place, hsystem, hcollection]

/-- What holds of a claimed target until its outcome is recorded. -/
structure Taken (D : Deps V) (r : String) (run : Run) (a : ApplyTarget V) (v : Seen V) (x : Run)
    (t : Target) : Prop where
  going : Going r v x
  plan : x.plan = run.plan
  row : x.target? a.seq = some t
  pending : t.pending = true
  image : toApplyTarget D.json t = a
  cap : UnderCap x t v.trace

namespace Taken

variable {a : ApplyTarget V} {v : Seen V} {x : Run} {t : Target}

theorem id (h : Taken D r run a v x t) : run.id = r :=
  (congrArg RunPlan.id h.plan).symm.trans h.going.id

theorem place (h : Taken D r run a v x t) : run.place a.key = x.place t.targetKey := by
  have hkey : t.targetKey = a.key := congrArg ApplyTarget.key h.image
  rw [Run.place_of_plan h.plan, hkey]

theorem expected (h : Taken D r run a v x t) : a.expected = t.expected D.json :=
  (congrArg ApplyTarget.expected h.image).symm

theorem after (h : Taken D r run a v x t) : a.after = t.after D.json :=
  (congrArg ApplyTarget.after h.image).symm

theorem seq (h : Taken D r run a v x t) : t.seq = a.seq :=
  congrArg ApplyTarget.seq h.image

theorem tag (h : Taken D r run a v x t) (side : Side) :
    (⟨side, run.id, a.seq⟩ : Tag) = ⟨side, x.id, t.seq⟩ := by
  rw [h.id, h.going.id, h.seq]

/-- The run keeps its row while something else is seen. -/
theorem seeing {l : List (Event V)} (h : Taken D r run a v x t)
    (hes : ∀ e ∈ l, e.isEntered = false ∧ e.rolls = false) :
    Taken D r run a ⟨v.run, l ++ v.trace⟩ x t where
  going := by
    have hnext := h.going.next (l := l) rfl rfl rfl hes
    rwa [← h.going.run] at hnext
  plan := h.plan
  row := h.row
  pending := h.pending
  image := h.image
  cap := by
    obtain ⟨cap, hcap, hn⟩ := h.cap
    exact ⟨cap, List.mem_append_right _ hcap, hn⟩

/-- The target marked as sent. -/
theorem marked (h : Taken D r run a v x t) (via : Option AttachedConnection) :
    Taken D r run a ⟨some (x.markSent a.seq via), .marked r a.seq :: v.trace⟩
      (x.markSent a.seq via) ((TargetEdit.sent via).apply t) where
  going := h.going.next (l := [.marked r a.seq]) (Run.plan_markSent a.seq via x) rfl rfl
    (by simp [Event.isEntered, Event.rolls])
  plan := (Run.plan_markSent a.seq via x).trans h.plan
  row := by
    have hrow : (x.noteFirst via).target? a.seq = some t := h.row
    rw [Run.markSent, Run.target?_editTarget_self, hrow]
    rfl
  pending := h.pending
  image := h.image
  cap := by
    obtain ⟨cap, hcap, -⟩ := h.cap
    exact ⟨cap, List.mem_cons_of_mem _ hcap, fun _ _ => .inr rfl⟩

/-- The mark taken back. -/
theorem refused (h : Taken D r run a v x t) (hsent : t.writeSent = true) :
    Taken D r run a ⟨some (x.editTarget a.seq .refused), .refused r a.seq :: v.trace⟩
      (x.editTarget a.seq .refused) (TargetEdit.refused.apply t) where
  going := h.going.next (l := [.refused r a.seq])
    (Run.plan_editTarget TargetEdit.keepsPlan_refused a.seq x) rfl rfl
    (by simp [Event.isEntered, Event.rolls])
  plan := (Run.plan_editTarget TargetEdit.keepsPlan_refused a.seq x).trans h.plan
  row := by rw [Run.target?_editTarget_self, h.row]; rfl
  pending := h.pending
  image := h.image
  cap := by
    obtain ⟨cap, hcap, -⟩ := h.cap
    exact ⟨cap, List.mem_cons_of_mem _ hcap, fun _ _ => .inr hsent⟩

end Taken

/-! ## Sending to a host -/

section External

variable {a : ApplyTarget V} {v : Seen V} {x : Run} {t : Target}

/-- What a write request leaves : a request that never left, or was refused, is not unclear. -/
def SendOk (D : Deps V) (r : String) (run : Run) (a : ApplyTarget V) (got : ExternalRead V)
    (v : Seen V) : Prop :=
  ∃ x t, Taken D r run a v x t ∧
    match got with
    | .unsent _ => t.unknownSends = 0
    | .host answer => t.writeSent = true ∧ (answer.refusedAnswer = true → t.unknownSends = 0)

theorem safe_sendWrite {w : TargetWriter V} {key : String} {value : V}
    (h : Taken D r run a v x t) (hx : ¬ run.isLocal) (ht : t.unknownSends = 0) :
    Safe D r (SendOk D r run a) (sendWrite ⟨.apply, run.id, a.seq⟩ key value
      (onSend w run a.seq) (record (.markRefused run.id a.seq))) v := by
  have hext : ¬ x.isLocal := fun hl => hx ((Run.isLocal_of_plan h.plan).mp hl)
  obtain rfl := h.id
  refine safe_ask trivial (fun _ _ => rfl) fun why => ?_
  cases why with
  | some why => exact ⟨x, t, h, ht⟩
  | none =>
    -- marked before it leaves, under the connection it carries
    refine Program.Guarded.bind (Q := fun _ v' => ∃ via, v' =
      ⟨some (x.markSent a.seq via), .marked run.id a.seq :: v.trace⟩) ?_ ?_
    · refine quiet_carriedBy.andThen fun via => ?_
      refine safe_record (f := pure) rfl ?_ (by simp [EffectCall.source]) ⟨via, ?_⟩
      · exact ⟨x, t, h.going, h.row, h.pending, h.cap, fun _ => ht, fun hl => (hext hl).elim⟩
      · rw [h.going.run]
        rfl
    · rintro - _ ⟨via, rfl⟩
      have hm := h.marked via
      have hs := hm.seeing (l := [.sent run.id a.seq]) (by simp [Event.isEntered, Event.rolls])
      refine safe_send ?_ fun answer => ?_
      · exact ⟨_, _, hm.going, fun hl => hx ((Run.isLocal_of_plan hm.plan).mp hl), rfl, hm.row,
          rfl, ⟨_, rfl⟩⟩
      · dsimp only
        split
        · refine safe_record rfl ⟨_, _, hs.going, hs.row, ⟨_, rfl⟩⟩
            (by simp [EffectCall.source]) ?_
          refine ⟨_, _, hs.refused rfl, rfl, fun _ => ?_⟩
          simp [TargetEdit.refused, TargetEdit.sent, ht]
        · next hanswer =>
          exact ⟨_, _, hs, rfl, fun hr => absurd hr hanswer⟩

/-- What a target's outcome says when it is about to be recorded. -/
def OutcomeOk (D : Deps V) (r : String) (run : Run) (a : ApplyTarget V)
    (outcome : TargetOutcome V) (v : Seen V) : Prop :=
  ∃ x t, Taken D r run a v x t ∧
    match outcome with
    | .applied result actual .. => (result = "already" ∨ t.writeSent = true) ∧
        (x.isLocal → actual = none ∧
          ((result = "already" ∧ ReadLast .apply x t (t.after D.json) v.trace) ∨
            (t.writeSent = true ∧ WroteLast .apply x t (t.after D.json) v.trace)))
    | .failed error => (error = .sentUnknown → ¬ x.isLocal) ∧
        (x.isLocal → FailedLast D x t v.trace)
    | .halt reason => reason.endsUnapproved = false

/-- What the writer of a host throws. -/
theorem outcomeOk_thrown {e : Thrown} (h : Taken D r run a v x t) (hx : ¬ x.isLocal)
    (he : e.plain) : OutcomeOk D r run a e.outcome v := by
  refine ⟨x, t, h, ?_⟩
  cases e with
  | halt reason => exact he
  | redirect | secret | other => exact ⟨by rintro ⟨⟩, fun hl => absurd hl hx⟩

/-- A write over a host answers only for a request that left. -/
theorem safe_externalWrite {w : TargetWriter V} (h : Taken D r run a v x t) (hx : ¬ run.isLocal)
    (ht : t.unknownSends = 0) :
    Safe D r (fun out v' => ∃ x t, Taken D r run a v' x t ∧
        match out with
        | .error e => e.plain
        | .ok _ => t.writeSent = true)
      ((externalWriter D).write ⟨.apply, run.id, a.seq⟩ a.key a.after (onSend w run a.seq)
        (record (.markRefused run.id a.seq))) v := by
  simp only [externalWriter]
  split
  · exact ⟨x, t, h, trivial⟩
  · next sent _ =>
    split
    · exact ⟨x, t, h, trivial⟩
    · have hsend : ∀ v x t, Taken D r run a v x t → t.unknownSends = 0 →
          Safe D r (SendOk D r run a) (sendWrite ⟨.apply, run.id, a.seq⟩ a.key sent
            (onSend w run a.seq) (record (.markRefused run.id a.seq))) v :=
        fun _ _ _ h ht => safe_sendWrite h hx ht
      -- a request is tried again only after it never left or was refused
      have hcall := safe_callHost (hsend v x t h ht) fun got v' hgot hretry => by
        obtain ⟨x', t', h', hgot⟩ := hgot
        refine hsend v' x' t' h' ?_
        match got, hretry with
        | .unsent .rateLimited, _ => exact hgot
        | .host (.retryAfter _), _ => exact hgot.2 rfl
      refine Program.Guarded.bind hcall fun out v' hout => ?_
      match out with
      | .error e =>
        obtain ⟨got, he, x', t', h', -⟩ := hout
        exact ⟨x', t', h', plain_of_thrown he⟩
      | .ok got =>
        obtain ⟨x', t', h', hgot⟩ := hout
        split
        · exact ⟨x', t', h', by simp_all⟩
        · refine Program.Guarded.bind (safe_readAnswer _ _) fun back v'' hback => ?_
          obtain ⟨rfl, -⟩ := hback
          exact ⟨x', t', h', by simp_all⟩
        · exact ⟨x', t', h', trivial⟩

end External

/-! ## One target -/

variable [DecidableEq V]

/-- The writer of a run : a keyed store compared by equality, or a host. -/
inductive Fits (D : Deps V) (run : Run) : TargetWriter V → Comparison → Prop
  | store {cmp : Comparison} (h : run.isLocal) (html : cmp.htmlFields = [])
      (saved : cmp.savedForm = false) : Fits D run (localWriter run) cmp
  | host {cmp : Comparison} (h : ¬ run.isLocal) : Fits D run (externalWriter D) cmp

section WriteOne

variable {a : ApplyTarget V} {v : Seen V} {x : Run} {t : Target} {cmp : Comparison}

omit [DecidableEq V] in
theorem safe_localRead {α : Type} {Q : α → Seen V → Prop} {tag : Tag} {key : String}
    {fields : Option (List String)}
    {f : Except Thrown (Found V × Option String) → Effect V α}
    (hG : Guard D r v (.read tag (run.place key)))
    (hfail : Safe D r Q (f (.error .other)) ⟨v.run, .read tag (run.place key) none :: v.trace⟩)
    (hok : ∀ found, Safe D r Q (f (.ok (found, none)))
      ⟨v.run, .read tag (run.place key) (some found) :: v.trace⟩) :
    Safe D r Q ((localWriter run).read tag key fields >>= f) v :=
  safe_read hG hfail hok

omit [DecidableEq V] in
/-- A target of the store found as expected, marked and written. -/
theorem safe_sendOne_local (h : Taken D r run a v x t) (hl : run.isLocal)
    (hread : ReadLast .apply x t (t.expected D.json) v.trace)
    (hne : t.expected D.json ≠ t.after D.json) :
    Safe D r (OutcomeOk D r run a) (sendOne (localWriter run) run a) v := by
  obtain rfl := h.id
  have hlocal : x.isLocal := (Run.isLocal_of_plan h.plan).mpr hl
  simp only [sendOne, localWriter, Bool.not_false, if_true]
  refine Program.Guarded.bind (Q := fun _ v' => v' =
    ⟨some (x.markSent a.seq none), .marked run.id a.seq :: v.trace⟩) ?_ ?_
  · refine safe_record (f := pure) rfl ?_ (by simp [EffectCall.source]) ?_
    · exact ⟨x, t, h.going, h.row, h.pending, h.cap, fun hn => absurd hlocal hn,
        fun _ => ⟨hread, hne⟩⟩
    · show Seen.mk _ _ = _
      rw [h.going.run]
      rfl
  · rintro - _ rfl
    have hm := h.marked none
    have hmlocal := (Run.isLocal_of_plan hm.plan).mpr hl
    have hprefix : [.marked run.id a.seq, .read ⟨.apply, run.id, a.seq⟩ (run.place a.key)
        (some (.image (t.expected D.json)))] <+: Event.marked run.id a.seq :: v.trace := by
      rw [h.tag, h.place]
      exact List.cons_prefix_cons.mpr ⟨rfl, hread⟩
    have hG : Guard D run.id ⟨some (x.markSent a.seq none), .marked run.id a.seq :: v.trace⟩
        (.write ⟨.apply, run.id, a.seq⟩ (run.place a.key) a.after) :=
      ⟨_, _, hm.going, hmlocal, hm.going.id.symm, hm.row, hm.pending, rfl, hm.place, hm.after,
        hne, hprefix⟩
    refine safe_write hG (fun held landed => ?_) fun held result => ?_
    · refine ⟨_, _, hm.seeing (l := [_]) (by simp [Event.isEntered, Event.rolls]), by rintro ⟨⟩,
        fun _ => .inr ⟨held, a.after, landed, ?_⟩⟩
      rw [hm.tag, hm.place]
      exact ⟨_, rfl⟩
    · refine ⟨_, _, hm.seeing (l := [_]) (by simp [Event.isEntered, Event.rolls]),
        .inr rfl, fun _ => ⟨rfl, .inr ⟨rfl, held, ?_⟩⟩⟩
      rw [hm.tag, hm.place, hm.after]
      exact ⟨_, rfl⟩

theorem safe_writeOne_local (h : Taken D r run a v x t) (hl : run.isLocal)
    (html : cmp.htmlFields = []) (saved : cmp.savedForm = false) :
    Safe D r (OutcomeOk D r run a) (writeOne D (localWriter run) run cmp a) v := by
  have hlocal : x.isLocal := (Run.isLocal_of_plan h.plan).mpr hl
  have hplace := h.place
  have hG : Guard D r v (.read ⟨.apply, run.id, a.seq⟩ (run.place a.key)) :=
    ⟨x, t, h.going.toLive, hlocal, h.id.trans h.going.id.symm, h.row, hplace⟩
  have hseen (found : Option (Found V)) :=
    h.seeing (l := [.read ⟨.apply, run.id, a.seq⟩ (run.place a.key) found])
      (by simp [Event.isEntered, Event.rolls])
  have hfailed (found : Option (Found V))
      (hother : ∀ i, found = some (.image i) → i ≠ t.expected D.json ∧ i ≠ t.after D.json) :
      FailedLast D x t
        (.read ⟨.apply, run.id, a.seq⟩ (run.place a.key) found :: v.trace) := by
    refine .inl ⟨found, ?_, hother⟩
    rw [h.tag, hplace]
    exact ⟨_, rfl⟩
  refine safe_localRead hG ⟨x, t, hseen none, by rintro ⟨⟩, fun _ => hfailed none (by simp)⟩
    fun found => ?_
  have ht := hseen (some found)
  cases found with
  | pathChanged | foreign =>
    exact ⟨x, t, ht, by rintro ⟨⟩, fun _ => hfailed _ (by simp)⟩
  | image cur =>
    have hlast : ReadLast .apply x t cur (.read ⟨.apply, run.id, a.seq⟩ (run.place a.key)
        (some (.image cur)) :: v.trace) := by
      rw [h.tag, hplace]
      exact ⟨_, rfl⟩
    simp only [foundAsPlanned, saved, Bool.false_and, Bool.or_false, html, sameImage_nil,
      decide_eq_true_eq, Bool.not_eq_true', decide_eq_false_iff_not]
    split
    · next hcur =>
      refine ⟨x, t, ht, .inl rfl, fun _ => ⟨?_, .inl ⟨rfl, ?_⟩⟩⟩
      · cases cur <;> rfl
      · rw [← h.after, ← hcur]
        exact hlast
    · next hafter =>
      split
      · next hcur =>
        refine ⟨x, t, ht, by rintro ⟨⟩, fun _ => hfailed _ fun i hi => ?_⟩
        obtain rfl := Found.image.inj (Option.some.inj hi)
        exact ⟨h.expected ▸ hcur, h.after ▸ hafter⟩
      · next hcur =>
        have hexp : cur = t.expected D.json := h.expected ▸ not_not.mp hcur
        split
        · exact ⟨x, t, ht, rfl⟩
        · rw [if_neg (by simp [localWriter])]
          refine safe_sendOne_local ht hl (hexp ▸ hlast) ?_
          rw [← hexp, ← h.after]
          exact hafter

theorem safe_writeOne_external (h : Taken D r run a v x t) (hx : ¬ run.isLocal) :
    Safe D r (OutcomeOk D r run a) (writeOne D (externalWriter D) run cmp a) v := by
  have hext : ¬ x.isLocal := fun hl => hx ((Run.isLocal_of_plan h.plan).mp hl)
  have hread : Safe D r (fun out v' => v' = v ∧ ∀ e, out = .error e → e.plain)
      ((externalWriter D).read ⟨.apply, run.id, a.seq⟩ a.key (fieldsOf D a)) v := by
    simp only [externalWriter]
    split
    · exact ⟨rfl, by rintro e ⟨⟩⟩
    · refine Program.Guarded.bind (safe_readAnswer _ _) fun out v' hout => ?_
      obtain ⟨rfl, hplain⟩ := hout
      split
      · next e => exact ⟨rfl, by rintro e' ⟨⟩; exact hplain e rfl⟩
      · exact ⟨rfl, by rintro e ⟨⟩⟩
      · exact ⟨rfl, by rintro e ⟨⟩⟩
  refine Program.Guarded.bind hread fun out v' hout => ?_
  obtain ⟨rfl, hplain⟩ := hout
  have hfailed {error : TargetError} : OutcomeOk D r run a (.failed error) v' :=
    ⟨x, t, h, fun _ => hext, fun hl => absurd hl hext⟩
  split
  · next e => exact outcomeOk_thrown h hext (hplain e rfl)
  · exact hfailed
  · exact hfailed
  · split
    · exact ⟨x, t, h, .inl rfl, fun hl => absurd hl hext⟩
    · split
      · exact hfailed
      · split
        · exact ⟨x, t, h, rfl⟩
        · refine safe_ledger fun L hL => ?_
          rw [h.id, hL, h.going.run]
          simp only [Option.any_some, Run.hasUnknownSend, h.row]
          split
          · exact hfailed
          · next hunknown =>
            refine Program.Guarded.bind (safe_externalWrite h hx (by simpa using hunknown)) ?_
            intro out v' hout
            obtain ⟨x', t', h', hout⟩ := hout
            have hext' : ¬ x'.isLocal := fun hl => hx ((Run.isLocal_of_plan h'.plan).mp hl)
            cases out with
            | error e => exact outcomeOk_thrown h' hext' hout
            | ok out => exact ⟨x', t', h', .inr hout, fun hl => absurd hl hext'⟩

theorem safe_writeOne {w : TargetWriter V} (hw : Fits D run w cmp) (h : Taken D r run a v x t) :
    Safe D r (OutcomeOk D r run a) (writeOne D w run cmp a) v := by
  cases hw with
  | store hl html saved => exact safe_writeOne_local h hl html saved
  | host hx => exact safe_writeOne_external h hx

end WriteOne

/-! ## Roll-back -/

/-- A row a roll-back takes back. -/
def Target.standing (t : Target) : Bool :=
  t.appliedStanding || t.sentUnrecorded

/-- What holds between two steps of a roll-back; `left` is what it has still to visit. -/
structure RollingBack (D : Deps V) (r : String) (run : Run) (left : List (ApplyTarget V × Bool))
    (complete : Bool) (v : Seen V) (x : Run) : Prop where
  live : Live r v x
  plan : x.plan = run.plan
  atomic : x.atomic = true
  rows : ∀ p ∈ left, ∃ t, x.target? p.1.seq = some t ∧ toApplyTarget D.json t = p.1 ∧
    (if p.2 then t.appliedStanding else t.sentUnrecorded) = true
  nodup : (left.map fun p => p.1.seq).Nodup
  complete : complete = true → ∀ t ∈ x.targets, t.standing = true →
    t.seq ∈ left.map fun p => p.1.seq

section RollBack

variable {a : ApplyTarget V} {recorded complete : Bool} {left : List (ApplyTarget V × Bool)}
  {v : Seen V} {x : Run} {w : TargetWriter V} {cmp : Comparison}

omit [DecidableEq V] in
theorem standing_settled {t : Target} (now : Time) (h : t.sentUnrecorded = true) :
    ((TargetEdit.settled now).apply t).standing = false := by
  simp only [Target.sentUnrecorded, Bool.and_eq_true] at h
  rw [TargetEdit.settled, TargetEdit.under_pos (by simp [h.1.1.1, h.1.1.2])]
  simp [Target.standing, Target.appliedStanding, Target.sentUnrecorded]

omit [DecidableEq V] in
theorem standing_rolledBack {t : Target} (now : Time) (h : t.appliedStanding = true) :
    ((TargetEdit.rolledBack now).apply t).standing = false := by
  simp only [Target.appliedStanding, Bool.and_eq_true] at h
  rw [TargetEdit.rolledBack, TargetEdit.under_pos h.1.1.1]
  simp [Target.standing, Target.appliedStanding, Target.sentUnrecorded]

omit [DecidableEq V] in
/-- A target left as it is makes the roll-back incomplete. -/
theorem RollingBack.skip {l : List (Event V)}
    (h : RollingBack D r run ((a, recorded) :: left) complete v x) :
    RollingBack D r run left (complete && false) ⟨v.run, l ++ v.trace⟩ x where
  live := by
    have hnext := h.live.next (l := l ++ v.trace) rfl rfl rfl
    rwa [← h.live.run] at hnext
  plan := h.plan
  atomic := h.atomic
  rows p hp := h.rows p (List.mem_cons_of_mem _ hp)
  nodup := (List.nodup_cons.mp h.nodup).2
  complete hc := by simp at hc

omit [DecidableEq V] in
/-- A target taken back. -/
theorem RollingBack.back {e : TargetEdit} {l : List (Event V)} {t : Target}
    (h : RollingBack D r run ((a, recorded) :: left) complete v x) (he : e.KeepsPlan)
    (hrow : x.target? a.seq = some t) (ht : (e.apply t).standing = false) :
    RollingBack D r run left (complete && true) ⟨some (x.editTarget a.seq e), l ++ v.trace⟩
      (x.editTarget a.seq e) where
  live := h.live.next (Run.plan_editTarget he a.seq x) rfl rfl
  plan := (Run.plan_editTarget he a.seq x).trans h.plan
  atomic := h.atomic
  rows p hp := by
    obtain ⟨u, hu, himage, hstands⟩ := h.rows p (List.mem_cons_of_mem _ hp)
    have hne : p.1.seq ≠ a.seq := fun hs =>
      (List.nodup_cons.mp h.nodup).1 (List.mem_map.mpr ⟨p, hp, hs⟩)
    exact ⟨u, (Run.target?_editTarget_ne hne).trans hu, himage, hstands⟩
  nodup := (List.nodup_cons.mp h.nodup).2
  complete hc u hu hstands := by
    rcases Run.mem_editTarget.mp hu with ⟨t', ht', rfl⟩ | ⟨hu, hne⟩
    · rw [hrow] at ht'
      rw [← Option.some.inj ht', ht] at hstands
      cases hstands
    · have hmem := h.complete (by simpa using hc) u hu hstands
      simpa [hne] using hmem

theorem safe_rollBackOne (hw : Fits D run w cmp)
    (h : RollingBack D r run ((a, recorded) :: left) complete v x) :
    Safe D r (fun back v' => ∃ x', RollingBack D r run left (complete && back) v' x')
      (rollBackOne D w run a recorded) v := by
  cases hw with
  | host _ => exact ⟨x, h.skip (l := [])⟩
  | store hl _ _ =>
    obtain ⟨vrun, trace⟩ := v
    obtain rfl : vrun = some x := h.live.run
    obtain ⟨t, hrow, himage, hstands⟩ := h.rows (a, recorded) (List.mem_cons_self ..)
    obtain rfl : toApplyTarget D.json t = a := himage
    obtain rfl : run.id = r := (congrArg RunPlan.id h.plan).symm.trans h.live.id
    have hid : run.id = x.id := h.live.id.symm
    have hlocal : x.isLocal := (Run.isLocal_of_plan h.plan).mpr hl
    have hplace : run.place t.targetKey = x.place t.targetKey := Run.place_of_plan h.plan _
    have hlive (trace' : List (Event V)) : Live run.id ⟨some x, trace'⟩ x :=
      h.live.next rfl rfl rfl
    have hread : Guard D run.id ⟨some x, trace⟩
        (.read ⟨.rollBack, run.id, t.seq⟩ (run.place t.targetKey)) :=
      ⟨x, t, h.live, hlocal, hid, hrow, hplace⟩
    refine safe_localRead hread ⟨x, h.skip (l := [_])⟩ fun found => ?_
    cases found with
    | pathChanged | foreign => exact ⟨x, h.skip (l := [_])⟩
    | image cur =>
      simp only [sameImage_nil, toApplyTarget, Bool.and_eq_true, Bool.not_eq_true',
        decide_eq_true_eq, decide_eq_false_iff_not]
      split
      · next hcur =>
        -- it never received the write, or was taken back before
        obtain ⟨hrecorded, rfl⟩ := hcur
        have hunrecorded : t.sentUnrecorded = true := by simpa [hrecorded] using hstands
        refine safe_ask trivial (fun _ _ => rfl) fun now => ?_
        refine safe_record rfl
          ⟨x, t, hlive _, hlocal, h.atomic, hrow, hunrecorded, .inl ⟨trace, ?_⟩⟩
          (by simp [EffectCall.source]) ?_
        · rw [hid, hplace]
          rfl
        · exact ⟨_, h.back (l := [_, _]) (TargetEdit.keepsPlan_settled now) hrow
            (standing_settled now hunrecorded)⟩
      · next hexpected =>
        split
        · exact ⟨x, h.skip (l := [_])⟩
        · next hafter =>
          obtain rfl : cur = t.after D.json := not_not.mp hafter
          have hmay : t.appliedStanding = true ∨
              (t.sentUnrecorded = true ∧ t.expected D.json ≠ t.after D.json) := by
            cases recorded with
            | true => exact .inl hstands
            | false => exact .inr ⟨hstands, fun he => hexpected ⟨rfl, he.symm⟩⟩
          refine safe_write ⟨x, t, hlive _, hlocal, h.atomic, hid, hrow, hmay, hplace, rfl,
            ⟨_, rfl⟩⟩ (fun held landed => ⟨x, h.skip (l := [_, _])⟩) fun held result => ?_
          have hwrote : WroteLast .rollBack x t (t.expected D.json)
              (.wrote ⟨.rollBack, run.id, t.seq⟩ (run.place t.targetKey) held
                (t.expected D.json) true true ::
                .read ⟨.rollBack, run.id, t.seq⟩ (run.place t.targetKey)
                  (some (.image (t.after D.json))) :: trace) :=
            ⟨held, _, by rw [hid, hplace]; rfl⟩
          refine safe_ask trivial (fun _ _ => rfl) fun now => ?_
          cases recorded with
          | true =>
            refine safe_record rfl
              ⟨x, t, hlive _, hlocal, h.atomic, h.plan.symm, hrow, hstands, hwrote⟩
              (h.live.source_ne h.plan) ?_
            exact ⟨_, h.back (l := [_, _, _]) (TargetEdit.keepsPlan_rolledBack now) hrow
              (standing_rolledBack now hstands)⟩
          | false =>
            refine safe_record rfl ⟨x, t, hlive _, hlocal, h.atomic, hrow, hstands, .inr hwrote⟩
              (by simp [EffectCall.source]) ?_
            exact ⟨_, h.back (l := [_, _, _]) (TargetEdit.keepsPlan_settled now) hrow
              (standing_settled now hstands)⟩

theorem safe_rollBackAll (hw : Fits D run w cmp) : ∀ {left : List (ApplyTarget V × Bool)}
    {complete : Bool} {v : Seen V} {x : Run}, RollingBack D r run left complete v x →
      Safe D r (fun done v' => ∃ x', RollingBack D r run [] done v' x')
        (rollBackAll D w run left complete) v
  | [], _, _, x, h => ⟨x, h⟩
  | (_, _) :: _, _, _, _, h =>
    Program.Guarded.bind (safe_rollBackOne hw h) fun _ _ hback =>
      safe_rollBackAll hw hback.choose_spec

omit [DecidableEq V] in
theorem Run.nodup_standing (x : Run) :
    (x.listAppliedDesc.map Target.seq ++ x.listSentUnrecordedDesc.map Target.seq).Nodup := by
  have hsub (p : Target → Bool) : ((x.targets.filter p).reverse.map Target.seq).Nodup := by
    rw [List.map_reverse, List.nodup_reverse]
    exact x.seq_nodup.sublist (List.filter_sublist.map _)
  refine List.nodup_append.mpr ⟨hsub _, hsub _, ?_⟩
  rintro s hs u hu rfl
  simp only [listAppliedDesc, listSentUnrecordedDesc, List.mem_map, List.mem_reverse,
    List.mem_filter] at hs hu
  obtain ⟨t, ⟨ht, hstands⟩, rfl⟩ := hs
  obtain ⟨t', ⟨ht', hstands'⟩, hseq⟩ := hu
  have hsame : some t' = some t := (target?_of_mem ht').symm.trans (hseq ▸ target?_of_mem ht)
  obtain rfl := Option.some.inj hsame
  simp only [Target.appliedStanding, Target.sentUnrecorded, Bool.and_eq_true] at hstands hstands'
  have := hstands'.1.1.2
  simp_all

omit [DecidableEq V] in
/-- A roll-back visits every row that stands, and each once. -/
theorem rollingBack_order (h : Live r v x) (hplan : x.plan = run.plan) (hatomic : x.atomic = true) :
    RollingBack D r run (rollBackOrder D x.listAppliedDesc x.listSentUnrecordedDesc) true v x := by
  have hperm := List.perm_insertionSort (fun a b : ApplyTarget V × Bool => b.1.seq ≤ a.1.seq)
    ((x.listAppliedDesc.map fun t => (toApplyTarget D.json t, true)) ++
      x.listSentUnrecordedDesc.map fun t => (toApplyTarget D.json t, false))
  have hmem (p : ApplyTarget V × Bool) :
      p ∈ rollBackOrder D x.listAppliedDesc x.listSentUnrecordedDesc ↔
        (∃ t ∈ x.targets, t.appliedStanding = true ∧ (toApplyTarget D.json t, true) = p) ∨
        ∃ t ∈ x.targets, t.sentUnrecorded = true ∧ (toApplyTarget D.json t, false) = p := by
    rw [rollBackOrder, hperm.mem_iff]
    simp [Run.listAppliedDesc, Run.listSentUnrecordedDesc, and_assoc]
  refine ⟨h, hplan, hatomic, ?_, ?_, ?_⟩
  · intro p hp
    rcases (hmem p).mp hp with ⟨t, ht, hs, rfl⟩ | ⟨t, ht, hs, rfl⟩
    · exact ⟨t, Run.target?_of_mem ht, rfl, hs⟩
    · exact ⟨t, Run.target?_of_mem ht, rfl, hs⟩
  · rw [rollBackOrder, (hperm.map _).nodup_iff]
    simpa [Function.comp_def, toApplyTarget] using x.nodup_standing
  · intro _ t ht hs
    rcases Bool.or_eq_true_iff.mp hs with hs | hs
    · exact List.mem_map.mpr ⟨_, (hmem _).mpr (.inl ⟨t, ht, hs, rfl⟩), rfl⟩
    · exact List.mem_map.mpr ⟨_, (hmem _).mpr (.inr ⟨t, ht, hs, rfl⟩), rfl⟩

theorem safe_rollBack {Q : Outcome → Seen V → Prop} {cause : Cause} (hw : Fits D run w cmp)
    (h : Live r v x) (hplan : x.plan = run.plan) (hatomic : x.atomic = true)
    (hQ : ∀ out v', Ended v' → Q out v') : Safe D r Q (rollBack D w run cause) v := by
  obtain rfl : run.id = r := (congrArg RunPlan.id hplan).symm.trans h.id
  refine safe_ledger fun L hL => safe_ledger fun L' hL' => ?_
  rw [hL, hL', h.run]
  refine Program.Guarded.bind (safe_rollBackAll hw (rollingBack_order h hplan hatomic)) ?_
  rintro complete v' ⟨x', hback⟩
  refine safe_record rfl ⟨x', hback.live, hback.atomic, ?_, ?_⟩ (by simp [EffectCall.source])
    (hQ _ _ ?_)
  · intro hreason t ht
    have hcomplete : complete = true := by
      cases complete with
      | true => rfl
      | false => cases cause <;> cases hreason
    have hstands : t.standing ≠ true := fun hs => by simpa using hback.complete hcomplete t ht hs
    simpa [Target.standing] using hstands
  · cases cause <;> cases complete <;> rfl
  · intro y hy _ _ _
    rw [hback.live.run] at hy
    obtain rfl := Option.some.inj hy
    simp [EffectCall.onOwn, Run.setPhase, hback.live.writing]

end RollBack

/-! ## The loop -/

section Loop

variable {α : Type} {Q : α → Seen V → Prop} {w : TargetWriter V} {info : PassInfo} {v : Seen V}
  {x : Run}

/-- What holds between two targets of a pass. -/
def LoopInv (r : String) (run : Run) (info : PassInfo) (v : Seen V) : Prop :=
  ∃ x, Going r v x ∧ x.plan = run.plan ∧
    .capped r (bulkWriteCap run.maxTargets info.probeHolds) ∈ v.trace

/-- A turn that does not end the pass leaves it between two targets. -/
def TurnOk (r : String) (run : Run) (info : PassInfo) :
    Except Outcome LoopState → Seen V → Prop
  | .ok _, v => LoopInv r run info v
  | .error _, v => Ended v

omit [DecidableEq V] in
theorem Going.id_eq (h : Going r v x) (hplan : x.plan = run.plan) : run.id = r :=
  (congrArg RunPlan.id hplan).symm.trans h.id

omit [DecidableEq V] in
theorem safe_haltWith {f : Outcome → α} {reason : HaltReason} {s : Status}
    (hid : run.id = r) (hv : v.run = some x) (hmay : x.mayWrite = true)
    (hreason : reason.endsUnapproved = false)
    (hcalm : x.atomic = true → x.isLocal → ¬ Rolling v.trace)
    (hQ : ∀ out v', Ended v' → Q (f out) v') :
    Safe D r Q (f <$> haltWith run reason s) v :=
  safe_map (safe_record hid ⟨x, hv, hmay, hreason, hcalm⟩ (by simp [EffectCall.source])
    (hQ _ _ (ended_halt hv hcalm)))

omit [DecidableEq V] in
theorem Going.halt {f : Outcome → α} {reason : HaltReason} {status : Status} (h : Going r v x)
    (hplan : x.plan = run.plan) (hreason : reason.endsUnapproved = false)
    (hQ : ∀ out v', Ended v' → Q (f out) v') : Safe D r Q (f <$> haltWith run reason status) v :=
  safe_haltWith (h.id_eq hplan) h.run h.mayWrite hreason h.calm hQ

theorem safe_endRun {Q : Outcome → Seen V → Prop} {cmp : Comparison} {cause : Cause}
    {reason : HaltReason} {rolled otherwise : Status} (hw : Fits D run w cmp) (h : Going r v x)
    (hplan : x.plan = run.plan) (hreason : reason.endsUnapproved = false)
    (hQ : ∀ out v', Ended v' → Q out v') :
    Safe D r Q (endRun D w run cause reason rolled otherwise) v := by
  refine safe_ledger fun L hL => ?_
  split
  · next hroll =>
    rw [Bool.and_eq_true] at hroll
    have hatomic : x.atomic = run.atomic := congrArg RunPlan.atomic hplan
    refine Program.Guarded.bind (Q := fun _ => Ended)
      (safe_rollBack hw h.toLive hplan (hatomic.trans hroll.1) fun _ _ he => he) ?_
    exact fun out v' he => hQ _ _ he
  · exact safe_record (f := fun _ => pure _) (h.id_eq hplan)
      ⟨x, h.run, h.mayWrite, hreason, h.calm⟩ (by simp [EffectCall.source])
      (hQ _ _ (ended_halt h.run h.calm))

omit [DecidableEq V] in
theorem safe_afterFailure {error : TargetError} {st : LoopState} (h : LoopInv r run info v) :
    Safe D r (TurnOk r run info) (afterFailure run info error st) v := by
  have hinv := h
  obtain ⟨x, hgoing, hplan, -⟩ := h
  unfold afterFailure
  split
  · exact hinv
  · split
    · exact hinv
    · refine safe_ledger fun L hL => ?_
      dsimp only
      split
      · exact hgoing.halt hplan rfl fun _ _ he => he
      · split
        · exact hgoing.halt hplan rfl fun _ _ he => he
        · exact hinv

theorem safe_settle {cmp : Comparison} {a : ApplyTarget V} {st : LoopState}
    {via : Option AttachedConnection} {outcome : TargetOutcome V} (hw : Fits D run w cmp)
    (hcap : .capped r (bulkWriteCap run.maxTargets info.probeHolds) ∈ v.trace)
    (h : OutcomeOk D r run a outcome v) :
    Safe D r (TurnOk r run info) (settle D w run info a.seq st via outcome) v := by
  obtain ⟨x, t, h, hout⟩ := h
  obtain ⟨vrun, trace⟩ := v
  obtain rfl : vrun = some x := h.going.run
  obtain rfl := h.id
  cases outcome with
  | halt reason =>
    have hplan := Run.plan_editTarget TargetEdit.keepsPlan_released a.seq x
    have hgoing := h.going.next (l := []) hplan rfl rfl (by simp)
    exact safe_record rfl ⟨x, h.going⟩ (by simp [EffectCall.source])
      (hgoing.halt (hplan.trans h.plan) hout fun _ _ he => he)
  | applied result actual hostAddedMarkup hostRewrote =>
    refine safe_ask trivial (fun _ _ => rfl) fun now => ?_
    have hplan := Run.plan_recordApplied D a.seq result now actual via hostAddedMarkup hostRewrote x
    have hopen := x.recordApplied_open D a.seq result now actual via hostAddedMarkup hostRewrote
    have hgoing := h.going.next (l := [.applied run.id a.seq]) hplan hopen.1 hopen.2
      (by simp [Event.isEntered, Event.rolls])
    refine safe_record rfl ⟨x, t, h.going, h.plan.symm, h.row, h.pending, hout⟩
      (h.going.source_ne h.plan) ?_
    split
    · exact hgoing.halt (hplan.trans h.plan) rfl fun _ _ he => he
    · exact ⟨_, hgoing, hplan.trans h.plan, List.mem_cons_of_mem _ hcap⟩
  | failed error =>
    have hplan := Run.plan_recordFailed a.seq error via x
    have hopen := x.recordFailed_open a.seq error via
    have hlive := h.going.toLive.next (l := .failed run.id a.seq :: trace) hplan hopen.1 hopen.2
    have hatomic : (x.recordFailed a.seq error via).atomic = run.atomic :=
      congrArg RunPlan.atomic (hplan.trans h.plan)
    refine safe_record rfl ⟨x, t, h.going, h.row, h.pending, hout.2⟩ (by simp [EffectCall.source]) ?_
    split
    · next hroll =>
      rw [Bool.and_eq_true] at hroll
      exact safe_map (safe_rollBack hw hlive (hplan.trans h.plan) (hatomic.trans hroll.2)
        fun _ _ he => he)
    · next hroll =>
      -- an atomic run of the store that fails a target always rolls back
      refine safe_afterFailure ⟨_, ⟨hlive, fun ha hl => ?_⟩, hplan.trans h.plan,
        List.mem_cons_of_mem _ hcap⟩
      have herror : error = .sentUnknown := by
        by_contra hne
        exact hroll (by simp [hne, ← hatomic, ha])
      exact absurd ((Run.isLocal_of_plan hplan).mp hl) (hout.1 herror)

omit [DecidableEq V] in
theorem target?_claimed {seq : ℕ} {now : Time} {t : Target} (hrow : x.target? seq = some t)
    (hclaim : TargetEdit.claimable D now t = true) :
    (x.editTarget seq (.claimed D now)).target? seq = some { t with claimedAt := some now } := by
  rw [Run.target?_editTarget_self, hrow, Option.map_some, TargetEdit.claimed,
    TargetEdit.under_pos hclaim]

omit [DecidableEq V] in
/-- A claimed target under the cap. -/
theorem taken_of_claimed {seq : ℕ} {now : Time} {t : Target} (h : Going r v x)
    (hplan : x.plan = run.plan)
    (hcap : .capped r (bulkWriteCap run.maxTargets info.probeHolds) ∈ v.trace)
    (hroom : cappedOut info x x seq = false) (hrow : x.target? seq = some t)
    (hclaim : TargetEdit.claimable D now t = true) (hwrites : t.change.writes = true) :
    Taken D r run (toApplyTarget D.json t) ⟨some (x.editTarget seq (.claimed D now)), v.trace⟩
      (x.editTarget seq (.claimed D now)) { t with claimedAt := some now } := by
  have hkeeps := Run.plan_editTarget (TargetEdit.keepsPlan_claimed D now) seq x
  have hrow' := target?_claimed hrow hclaim
  have hcount : (x.editTarget seq (.claimed D now)).sentCount = x.sentCount := by
    refine Run.countP_editTarget fun u => ?_
    simp only [TargetEdit.claimed, TargetEdit.under]
    split <;> rfl
  have hid : (x.editTarget seq (.claimed D now)).id = r := h.id
  have hmax : x.maxTargets = run.maxTargets := congrArg RunPlan.maxTargets hplan
  simp only [TargetEdit.claimable, Bool.and_eq_true] at hclaim
  refine ⟨h.next (l := []) hkeeps rfl rfl (by simp), hkeeps.trans hplan, ?_, ?_, rfl, ?_⟩
  · rwa [← Run.seq_of_target? hrow] at hrow' ⊢
  · simp [Target.pending, Target.writing, hwrites, hclaim.1.1.1.1, hclaim.1.1.1.2, hclaim.1.1.2,
      hclaim.1.2]
  · refine ⟨_, by rw [hid]; exact hcap, fun n hn => ?_⟩
    rw [hcount]
    simp only [cappedOut, hmax, hn, Option.any_some, Run.wasSent, hrow] at hroom
    have happlied : t.appliedAt = none := by simpa using hclaim.1.1.1.1
    by_cases hlt : x.sentCount < n
    · exact .inl hlt
    · exact .inr (by simpa [happlied, Nat.le_of_not_lt hlt] using hroom)

theorem safe_takeTarget {seq : ℕ} {st : LoopState} (hw : Fits D run w info.cmp) (h : Going r v x)
    (hplan : x.plan = run.plan)
    (hcap : .capped r (bulkWriteCap run.maxTargets info.probeHolds) ∈ v.trace)
    (hroom : cappedOut info x x seq = false) :
    Safe D r (TurnOk r run info) (takeTarget D w run info seq st) v := by
  obtain rfl := h.id_eq hplan
  refine safe_ask trivial (fun _ _ => rfl) fun now => safe_claim h.run ?_
  have hkeeps := Run.plan_editTarget (TargetEdit.keepsPlan_claimed D now) seq x
  have hgoing : Going run.id ⟨some (x.editTarget seq (.claimed D now)), v.trace⟩
      (x.editTarget seq (.claimed D now)) :=
    h.next (l := []) hkeeps rfl rfl (by simp)
  have hinv : LoopInv run.id run info ⟨some (x.editTarget seq (.claimed D now)), v.trace⟩ :=
    ⟨_, hgoing, hkeeps.trans hplan, hcap⟩
  split
  · next hclaim =>
    obtain ⟨t, hrow, hclaim⟩ := (Option.any_eq_true _ _).mp hclaim
    refine safe_ledger fun L hL => ?_
    rw [hL]
    simp only [Option.map_some, Option.getD_some, Run.loadTarget, target?_claimed hrow hclaim]
    by_cases hwrites : t.change.writes = true
    · rw [if_pos hwrites]
      have htaken := taken_of_claimed h hplan hcap hroom hrow hclaim hwrites
      obtain rfl : t.seq = seq := Run.seq_of_target? hrow
      refine Safe.andThen (safe_writeOne hw htaken) fun outcome v' hout hsuffix _ => ?_
      refine quiet_carriedBy.andThen fun via => ?_
      exact safe_settle hw (hsuffix.mem hcap) hout
    · rw [if_neg hwrites]
      exact hgoing.ended
  · exact hinv

theorem safe_turn {seq : ℕ} {st : LoopState} (hw : Fits D run w info.cmp)
    (h : LoopInv r run info v) : Safe D r (TurnOk r run info) (turn D w run info seq st) v := by
  have hinv := h
  obtain ⟨x, hgoing, hplan, hcap⟩ := h
  obtain rfl := hgoing.id_eq hplan
  refine safe_ask trivial (fun _ _ => rfl) fun _ => safe_ledger fun L hL => ?_
  rw [hL, hgoing.run]
  dsimp only
  split
  · exact hgoing.ended
  · split
    · exact hgoing.ended
    · refine safe_ask trivial (fun _ _ => rfl) fun stopped => ?_
      split
      · exact safe_map (safe_endRun hw hgoing hplan rfl fun _ _ he => he)
      · refine safe_ledger fun L' hL' => ?_
        rw [hL', hgoing.run, Option.any_some]
        split
        · exact hinv
        · next hroom =>
          refine safe_ask trivial (fun _ _ => rfl) fun now => ?_
          split
          · exact safe_map (safe_endRun hw hgoing hplan rfl fun _ _ he => he)
          · exact safe_takeTarget hw hgoing hplan hcap (by simpa using hroom)

theorem safe_loop (hw : Fits D run w info.cmp) : ∀ {seqs : List ℕ} {st : LoopState} {v : Seen V},
    LoopInv r run info v → Safe D r (TurnOk r run info) (loop D w run info seqs st) v
  | [], _, _, h => h
  | _ :: _, _, _, h => by
    refine Program.Guarded.bind (safe_turn hw h) fun out v' hout => ?_
    cases out with
    | error out => exact hout
    | ok st => exact safe_loop hw hout

theorem safe_close {cmp : Comparison} {st : LoopState} (hw : Fits D run w cmp)
    (h : Going r v x) (hplan : x.plan = run.plan) :
    Safe D r (fun _ => Ended) (close D w run st) v := by
  obtain rfl := h.id_eq hplan
  refine safe_ledger fun L hL => ?_
  rw [hL, h.run, Option.any_some]
  split
  · split
    · refine safe_record rfl ⟨x, h.run, h.mayWrite, ?_, h.calm⟩ (by simp [EffectCall.source]) ?_
      · split <;> rfl
      · exact safe_ledger fun _ _ => ended_halt h.run h.calm
    · refine safe_ask trivial (fun _ _ => rfl) fun stopped => ?_
      split
      · exact safe_endRun hw h hplan rfl fun _ _ he => he
      · exact h.ended
  · next hpending =>
    refine safe_record rfl ⟨x, h, hplan.symm, by simpa using hpending⟩ (h.source_ne hplan) ?_
    intro y hy hatomic hlocal hrolling
    rw [h.run] at hy
    obtain rfl := Option.some.inj hy
    have hkeep := Run.plan_setPhase [.writing] .done none x
    have hcalm := h.calm ((congrArg RunPlan.atomic hkeep).symm.trans hatomic)
      ((Run.isLocal_of_plan hkeep).mp hlocal)
    exact absurd ((rolling_append (l := [.finished run.id])
      (by simp [Event.isEntered, Event.rolls])).mp hrolling) hcalm

end Loop

/-! ## A pass -/

section Pass

variable {v : Seen V} {x : Run} {w : TargetWriter V}

/-- A run is admitted as it is seen, and may write. -/
def AdmitOk (v : Seen V) : Except Outcome Run → Seen V → Prop
  | .ok run, v' => v' = v ∧ v.run = some run ∧ run.mayWrite = true
  | .error _, v' => Ended v'

omit [DecidableEq V] in
theorem safe_admission {effect : RunKind} (hcalm : ¬ Rolling v.trace) :
    Safe D r (AdmitOk v) (admission D r effect) v := by
  refine safe_ledger fun L hL => ?_
  rw [hL]
  rcases hv : v.run with _ | run
  · exact ended_of_calm hcalm
  · have hid : run.id = r := Ledger.id_of_runRow (hL.trans hv)
    dsimp only
    split
    · exact ended_of_calm hcalm
    · split
      · exact ended_of_calm hcalm
      · split
        · exact ended_of_calm hcalm
        · next hphase hhalt =>
          have hmay : run.mayWrite = true := by
            simp only [Run.mayWrite, Bool.and_eq_true, Bool.or_eq_true, decide_eq_true_eq]
            simp only [Bool.and_eq_true, decide_eq_true_eq, not_and, not_not] at hphase
            exact ⟨Classical.or_iff_not_imp_left.mpr hphase, by simpa using hhalt⟩
          have hhaltWith {reason : HaltReason} (hreason : reason.endsUnapproved = false) :=
            safe_haltWith (D := D) (Q := AdmitOk v) (f := .error) (s := .refused) hid hv hmay
              hreason (fun _ _ => hcalm) fun _ _ he => he
          refine safe_ask trivial (fun _ _ => rfl) fun now => ?_
          split
          · exact hhaltWith rfl
          · refine safe_ledger fun L' _ => ?_
            split
            · exact hhaltWith rfl
            · refine safe_ask trivial (fun _ _ => rfl) fun enabled => safe_ledger fun L'' _ => ?_
              split
              · exact hhaltWith rfl
              · exact ⟨rfl, hv, hmay⟩

omit [DecidableEq V] in
theorem safe_bulkWriterFor :
    Safe D r (fun w v' => v' = v ∧ ∀ u, w = some u →
      (run.isLocal ∧ u = localWriter run) ∨ (¬ run.isLocal ∧ u = externalWriter D))
      (bulkWriterFor D run) v := by
  refine safe_ask trivial (fun _ _ => rfl) fun available => ?_
  split
  · next hhost =>
    have hx : ¬ run.isLocal := fun hl => by simp [show _ = _ from hl] at hhost
    refine ⟨rfl, fun u hu => .inr ⟨hx, ?_⟩⟩
    split at hu
    · exact (Option.some.inj hu).symm
    · cases hu
  · next hhost =>
    have hl : run.isLocal := by simpa [Run.isLocal] using hhost
    split
    · exact ⟨rfl, fun u hu => .inl ⟨hl, (Option.some.inj hu).symm⟩⟩
    · split
      · exact ⟨rfl, fun u hu => .inl ⟨hl, (Option.some.inj hu).symm⟩⟩
      · exact ⟨rfl, by rintro u ⟨⟩⟩

omit [DecidableEq V] in
theorem safe_prepare (h : Going r v x) (hplan : x.plan = run.plan) :
    Safe D r (fun out v' => LoopInv r run out.1 v' ∧
      (run.isLocal → out.1.cmp.htmlFields = [] ∧ out.1.cmp.savedForm = false)) (prepare D run) v := by
  obtain rfl := h.id_eq hplan
  refine safe_ledger fun L hL => safe_ledger fun L' _ => ?_
  refine safe_ask trivial (fun _ _ => rfl) fun now => safe_probe h.run fun holds => ?_
  have hgoing := h.next (l := [.capped run.id (bulkWriteCap x.maxTargets holds)]) rfl rfl rfl
    (by simp [Event.isEntered, Event.rolls])
  rw [← h.run] at hgoing
  have hmax : x.maxTargets = run.maxTargets := congrArg RunPlan.maxTargets hplan
  refine ⟨⟨x, hgoing, hplan, ?_⟩, fun hl => ?_⟩
  · rw [← hmax]
    exact List.mem_cons_self
  · have hlocal := L.comparedAsHtml_of_local D ((Run.isLocal_of_plan hplan).mpr hl)
    simp [hL, h.run, hlocal]

theorem safe_writeRun (hv : v.run = some run) (hid : run.id = r) (hmay : run.mayWrite = true)
    (hsource : run.sourceRunId ≠ some r) (hcalm : ¬ Rolling v.trace)
    (hw : (run.isLocal ∧ w = localWriter run) ∨ (¬ run.isLocal ∧ w = externalWriter D)) :
    Safe D r (fun _ => Ended) (writeRun D w run) v := by
  obtain rfl := hid
  obtain ⟨hphase, hhalt⟩ : (run.phase = .approved ∨ run.phase = .writing) ∧
      run.haltReason = none := by simpa [Run.mayWrite] using hmay
  have hplan := Run.plan_setPhase [.approved] .writing none run
  have hgoing : Going run.id ⟨some (run.setPhase [.approved] .writing none), v.trace⟩
      (run.setPhase [.approved] .writing none) := by
    refine ⟨⟨rfl, Run.setPhase_id run, ?_, ?_, ?_⟩, fun _ _ => hcalm⟩
    · rcases hphase with hphase | hphase <;> simp [Run.setPhase, hphase]
    · rcases hphase with hphase | hphase <;> simp [Run.setPhase, hphase, hhalt]
    · rcases hphase with hphase | hphase <;> simpa [Run.setPhase, hphase] using hsource
  refine safe_record rfl ⟨run, hv, hmay⟩ (by simp [EffectCall.source]) ?_
  rw [hv]
  refine Program.Guarded.bind (safe_prepare hgoing hplan) ?_
  rintro ⟨info, pending⟩ v' ⟨hinv, hcmp⟩
  have hfits : Fits D run w info.cmp := by
    rcases hw with ⟨hl, rfl⟩ | ⟨hx, rfl⟩
    · exact .store hl (hcmp hl).1 (hcmp hl).2
    · exact .host hx
  refine Program.Guarded.bind (safe_loop hfits hinv) fun out v'' hout => ?_
  cases out with
  | error out => exact hout
  | ok st =>
    obtain ⟨x, hgoing, hplan, -⟩ := hout
    exact safe_close hfits hgoing hplan

theorem safe_applyRunEffect {effect : RunKind} (hcalm : ¬ Rolling v.trace)
    (hsource : ∀ x, v.run = some x → x.id = r ∧ x.sourceRunId ≠ some r) :
    Safe D r (fun _ => Ended) (applyRunEffect D r effect) v := by
  refine Program.Guarded.bind (safe_admission hcalm) fun out v' hout => ?_
  cases out with
  | error out => exact hout
  | ok run =>
    obtain ⟨rfl, hv, hmay⟩ := hout
    obtain ⟨hid, hother⟩ := hsource run hv
    refine Program.Guarded.bind safe_bulkWriterFor fun u v'' hu => ?_
    obtain ⟨rfl, hu⟩ := hu
    have hrefuse {reason : HaltReason} {status : Status}
        {f : Outcome → Effect V (Option Run × Outcome)}
        (hreason : reason.endsUnapproved = false)
        (hf : ∀ out v', Ended v' → Safe D r (fun _ => Ended) (f out) v') :
        Safe D r (fun _ => Ended) (haltWith run reason status >>= f) v'' :=
      safe_record hid ⟨run, hv, hmay, hreason, fun _ _ => hcalm⟩ (by simp [EffectCall.source])
        (hf _ _ (ended_halt hv fun _ _ => hcalm))
    cases u with
    | none => exact hrefuse rfl fun _ _ he => he
    | some w =>
      refine safe_ask trivial (fun _ _ => rfl) fun trail => ?_
      have hwrite := safe_writeRun hv hid hmay hother hcalm (hu w rfl)
      cases trail with
      | failed => exact hrefuse rfl fun _ _ he => he
      | noTrail => exact hwrite.bind fun _ _ he => he
      | begun => exact hwrite.bind fun _ _ he => he

/-- Every operation of a pass satisfies its guard, and a pass that returns has ended what it
began to roll back. -/
theorem safe_runBulkEffect {effect : RunKind} (hcalm : ¬ Rolling v.trace)
    (hsource : ∀ x, v.run = some x → x.id = r ∧ x.sourceRunId ≠ some r) :
    Safe D r (fun _ => Ended) (runBulkEffect D r effect) v := by
  refine Program.Guarded.bind (safe_applyRunEffect hcalm hsource) ?_
  rintro ⟨opened, out⟩ v' hended
  cases opened with
  | none => exact hended
  | some run => exact safe_ledger fun _ _ => safe_ask trivial (fun _ _ => rfl) fun _ => hended

end Pass

end Lynox.Bulk
