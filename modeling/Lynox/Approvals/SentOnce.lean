import Lynox.Approvals.Executor

/-!
# An approved mail is sent at most once

An attempt that is `Barred` begins no send later, and a `Harmless` one has sent nothing either : its
send, if it began one, was refused by the dedup window. What one step makes of an attempt is `Kept`.
The machine keeps `Guarded` : an entry that waits for its approval or its claim has harmless attempts
only, and so do the entry under way and every entry that was given back for a retry.
-/

namespace Lynox.Approvals

open Text

variable {T : Texts} {s : Store} {c : Call} {r r' : Row} {id : JsString} {a a' : Attempt} {m : Machine}

/-! ## One attempt -/

namespace Attempt

/-- The send ended with `sendMail` reporting the dedup window, and so did the attempt. -/
def SaidDedup (a : Attempt) : Prop :=
  (∃ message, a.sent = some (.ok (.failed .dedupWindow message))) ∧ a.entry.row.kind = .mailSend ∧
    a.settled = some (.retry (utf16 "dedup_window"))

/-- A send that threw, timed out, died or answered other than with the dedup window. -/
def Unclear (a : Attempt) : Prop :=
  a.sending = true ∧ ((∃ message, a.sent = some (.error message)) ∨
    a.settled = some ⟨.unknown, reasonResult (utf16 "send_timeout")⟩ ∨
    (a.alive = false ∧ a.sent = none) ∨
    ∃ answer, a.sent = some (.ok answer) ∧ ∀ message, answer ≠ .failed .dedupWindow message)

/-- An attempt that begins no send any more. -/
def Barred (a : Attempt) : Prop :=
  a.stage = .sending ∨ a.stage = .returned ∨ a.deadlinePassed = true ∨ a.alive = false

/-- An attempt that sent nothing and will not. -/
def Harmless (a : Attempt) : Prop :=
  a.Barred ∧ (a.sending = true → a.SaidDedup)

/-- What holds of an attempt at any time. -/
structure Sound (a : Attempt) : Prop where
  waits : a.stage = .claimed ∨ a.stage = .resolving → a.sending = false
  sent : a.sent ≠ none → a.stage = .returned
  barred : a.settled ≠ none → a.Barred
  retry : ∀ settled, a.settled = some settled → settled.outcome = .retry → a.sending = true →
    a.SaidDedup

/-- What a step keeps of an attempt. -/
structure Kept (a a' : Attempt) : Prop where
  entry : a'.entry = a.entry
  alive : a'.alive = true → a.alive = true
  settled : a.settled ≠ none → a'.settled = a.settled
  sent : a.sent ≠ none → a'.sent = a.sent
  sending : a.sending = true → a'.sending = true
  dead : a.alive = false → a'.sent = a.sent
  barred : a.Barred → a'.Barred ∧ a'.sending = a.sending

theorem Kept.refl (a : Attempt) : Kept a a :=
  ⟨rfl, fun h => h, fun _ => rfl, fun _ => rfl, fun h => h, fun _ => rfl, fun h => ⟨h, rfl⟩⟩

theorem Kept.trans {a'' : Attempt} (h : Kept a a') (h' : Kept a' a'') : Kept a a'' where
  entry := h'.entry.trans h.entry
  alive := fun halive => h.alive (h'.alive halive)
  settled := fun hs => (h'.settled (h.settled hs ▸ hs)).trans (h.settled hs)
  sent := fun hs => (h'.sent (h.sent hs ▸ hs)).trans (h.sent hs)
  sending := fun hs => h'.sending (h.sending hs)
  dead := fun hdead => by
    have hdead' : a'.alive = false := by
      cases halive : a'.alive with
      | false => rfl
      | true => exact absurd (hdead.symm.trans (h.alive halive)) (by decide)
    exact (h'.dead hdead').trans (h.dead hdead)
  barred := fun hb =>
    ⟨(h'.barred (h.barred hb).1).1, (h'.barred (h.barred hb).1).2.trans (h.barred hb).2⟩

theorem SaidDedup.kept (h : a.SaidDedup) (hkept : Kept a a') : a'.SaidDedup := by
  obtain ⟨⟨message, hsent⟩, hkind, hsettled⟩ := h
  refine ⟨⟨message, ?_⟩, ?_, ?_⟩
  · exact (hkept.sent (hsent ▸ Option.some_ne_none _)).trans hsent
  · rw [hkept.entry]
    exact hkind
  · exact (hkept.settled (hsettled ▸ Option.some_ne_none _)).trans hsettled

theorem Harmless.kept (h : a.Harmless) (hkept : Kept a a') : a'.Harmless := by
  obtain ⟨hbarred, hsaid⟩ := h
  obtain ⟨hbarred', hsending⟩ := hkept.barred hbarred
  exact ⟨hbarred', fun hs => (hsaid (hsending ▸ hs)).kept hkept⟩

/-- What was unclear stays so. -/
theorem Unclear.kept (h : a.Unclear) (hkept : Kept a a') : a'.Unclear := by
  obtain ⟨hsending, hunclear⟩ := h
  refine ⟨hkept.sending hsending, ?_⟩
  rcases hunclear with ⟨message, hthrew⟩ | htimed | ⟨hdead, hnone⟩ | ⟨answer, hanswer, hother⟩
  · exact .inl ⟨message, (hkept.sent (hthrew ▸ Option.some_ne_none _)).trans hthrew⟩
  · exact .inr (.inl ((hkept.settled (htimed ▸ Option.some_ne_none _)).trans htimed))
  · refine .inr (.inr (.inl ⟨?_, (hkept.dead hdead).trans hnone⟩))
    cases halive : a'.alive with
    | false => rfl
    | true => exact absurd (hdead.symm.trans (hkept.alive halive)) (by decide)
  · exact .inr (.inr (.inr ⟨answer, (hkept.sent (hanswer ▸ Option.some_ne_none _)).trans hanswer,
      hother⟩))

theorem Unclear.not_saidDedup (h : a.Unclear) : ¬ a.SaidDedup := by
  rintro ⟨⟨message, hsent⟩, -, hsettled⟩
  rcases h.2 with ⟨message', hthrew⟩ | htimed | ⟨-, hnone⟩ | ⟨answer, hanswer, hother⟩
  · exact nomatch hsent.symm.trans hthrew
  · exact nomatch congrArg Settled.outcome (Option.some.inj (hsettled.symm.trans htimed))
  · exact nomatch hsent.symm.trans hnone
  · exact hother message (Except.ok.inj (Option.some.inj (hanswer.symm.trans hsent)))

/-! ## One step of it -/

@[simp] theorem settle_settled (a : Attempt) (settled : Settled) :
    (a.settle settled).settled = some (a.settled.getD settled) :=
  rfl

@[simp] theorem returns_settled (a : Attempt) (settled : Settled) :
    (a.returns settled).settled = some (a.settled.getD settled) :=
  rfl

theorem returns_kept (a : Attempt) (settled : Settled) : Kept a (a.returns settled) where
  entry := rfl
  alive := fun h => h
  settled := fun hs => by
    obtain ⟨s, hs⟩ := Option.ne_none_iff_exists'.1 hs
    simp [hs]
  sent := fun _ => rfl
  sending := fun h => h
  dead := fun _ => rfl
  barred := fun _ => ⟨.inr (.inl rfl), rfl⟩

/-- A return that grants no retry after a send began. -/
theorem Sound.returns (h : a.Sound) {settled : Settled}
    (hretry : a.sending = true → settled.outcome ≠ .retry) : (a.returns settled).Sound where
  waits := by
    rintro (h | h)
    · exact nomatch h
    · exact nomatch h
  sent := fun _ => rfl
  barred := fun _ => .inr (.inl rfl)
  retry := by
    intro settled' hsettled' houtcome hsending
    cases hsettled : a.settled with
    | none =>
      have hsame : settled = settled' := by simpa [hsettled] using hsettled'
      exact absurd (hsame ▸ houtcome) (hretry hsending)
    | some first =>
      have hsame : first = settled' := by simpa [hsettled] using hsettled'
      exact (h.retry first hsettled (hsame ▸ houtcome) hsending).kept (returns_kept a settled)

/-- `execute` goes on to ask for the sending address. -/
theorem Sound.resolve (h : a.Sound) (hstage : a.stage = .claimed) :
    ({ a with stage := .resolving } : Attempt).Sound ∧ Kept a { a with stage := .resolving } := by
  have hsending := h.waits (.inl hstage)
  have hbarred : a.Barred → ({ a with stage := .resolving } : Attempt).Barred := by
    rintro (h | h | h | h)
    · exact nomatch hstage.symm.trans h
    · exact nomatch hstage.symm.trans h
    · exact .inr (.inr (.inl h))
    · exact .inr (.inr (.inr h))
  refine ⟨⟨fun _ => hsending, fun hs => ?_, fun hs => hbarred (h.barred hs), ?_⟩, rfl, fun h => h,
    fun _ => rfl, fun _ => rfl, fun h => h, fun _ => rfl, fun hb => ⟨hbarred hb, rfl⟩⟩
  · exact nomatch hstage.symm.trans (h.sent hs)
  · exact fun _ _ _ hs => nomatch hsending.symm.trans hs

theorem executeToSend_late {answer : AddressAnswer} {filing : ApprovalFiling}
    {principal : RequestPrincipal} : executeToSend T answer filing principal true ≠ none := by
  intro h
  unfold executeToSend at h
  split at h
  · exact nomatch h
  · split at h
    · exact nomatch h
    · split at h
      · exact nomatch h
      · exact nomatch h

/-- The send begins : the attempt was not barred. -/
theorem Sound.begin (h : a.Sound) (halive : a.alive = true) (hstage : a.stage = .resolving)
    (hdeadline : a.deadlinePassed = false) :
    ({ a with stage := .sending, sending := true } : Attempt).Sound ∧
      Kept a { a with stage := .sending, sending := true } := by
  have hbarred : ¬ a.Barred := by
    rintro (h | h | h | h)
    · exact nomatch hstage.symm.trans h
    · exact nomatch hstage.symm.trans h
    · exact nomatch hdeadline.symm.trans h
    · exact nomatch halive.symm.trans h
  refine ⟨⟨?_, fun hs => ?_, fun _ => .inl rfl, fun settled hs => ?_⟩, rfl, fun h => h, fun _ => rfl,
    fun _ => rfl, fun _ => rfl, fun _ => rfl, fun hb => absurd hb hbarred⟩
  · rintro (h | h)
    · exact nomatch h
    · exact nomatch h
  · exact nomatch hstage.symm.trans (h.sent hs)
  · exact absurd (h.barred (hs ▸ Option.some_ne_none _)) hbarred

/-- A send grants a retry only where it was refused by the dedup window. -/
theorem settledBy_retry {kind : ApprovalKind} {answer : Except JsString SendCoreResult}
    (h : (settledBy kind answer).outcome = .retry) :
    kind = .mailSend ∧ ∃ message, answer = .ok (.failed .dedupWindow message) ∧
      settledBy kind answer = .retry (utf16 "dedup_window") := by
  unfold settledBy at h ⊢
  match answer, kind with
  | .error _, _ => exact nomatch h
  | .ok _, .mailReply => exact nomatch h
  | .ok (.ok _), .mailSend => exact nomatch h
  | .ok (.failed status message), .mailSend =>
    dsimp only at h ⊢
    by_cases hdedup : status = .dedupWindow
    · subst hdedup
      exact ⟨rfl, message, rfl, if_pos rfl⟩
    · rw [if_neg hdedup] at h
      split at h
      · exact nomatch h
      · exact nomatch h

/-- The send ends. -/
theorem Sound.ends (h : a.Sound) (halive : a.alive = true) (hstage : a.stage = .sending)
    (answer : Except JsString SendCoreResult) :
    ({ a.returns (settledBy a.entry.row.kind answer) with sent := some answer } : Attempt).Sound ∧
      Kept a { a.returns (settledBy a.entry.row.kind answer) with sent := some answer } := by
  have hnone : a.sent = none := by
    by_contra hs
    exact nomatch hstage.symm.trans (h.sent hs)
  have hreturns := returns_kept a (settledBy a.entry.row.kind answer)
  refine ⟨⟨?_, fun _ => rfl, fun _ => .inr (.inl rfl), ?_⟩, rfl, fun h => h, hreturns.settled,
    fun hs => absurd hnone hs, fun h => h,
    fun hdead => (nomatch halive.symm.trans hdead), fun _ => ⟨.inr (.inl rfl), rfl⟩⟩
  · rintro (h | h)
    · exact nomatch h
    · exact nomatch h
  · intro settled hsettled houtcome hsending
    cases hwas : a.settled with
    | none =>
      have hsame : settledBy a.entry.row.kind answer = settled := by
        simpa [hwas] using hsettled
      obtain ⟨hkind, message, hanswer, hby⟩ := settledBy_retry (hsame ▸ houtcome)
      exact ⟨⟨message, congrArg some hanswer⟩, hkind, hsettled.trans (congrArg some (hsame ▸ hby))⟩
    | some first =>
      have hsame : first = settled := by simpa [hwas] using hsettled
      obtain ⟨⟨message, hsent⟩, -⟩ := h.retry first hwas (hsame ▸ houtcome) hsending
      exact nomatch hnone.symm.trans hsent

/-- The deadline wins the race. -/
theorem Sound.deadline (h : a.Sound) (hopen : a.settled = none) {settled : Settled}
    (hretry : a.sending = true → settled.outcome ≠ .retry) :
    ({ a.settle settled with deadlinePassed := true } : Attempt).Sound ∧
      Kept a { a.settle settled with deadlinePassed := true } := by
  refine ⟨⟨h.waits, h.sent, fun _ => .inr (.inr (.inl rfl)), ?_⟩, rfl, fun h => h,
    fun hs => absurd hopen hs, fun _ => rfl, fun h => h, fun _ => rfl,
    fun _ => ⟨.inr (.inr (.inl rfl)), rfl⟩⟩
  intro settled' hsettled' houtcome hsending
  have hsame : settled = settled' := by simpa [hopen] using hsettled'
  exact absurd (hsame ▸ houtcome) (hretry hsending)

/-- A step of an attempt whose process runs. -/
theorem Sound.step (h : a.Sound) (halive : a.alive = true) (T : Texts) (s : Store)
    (what : Happening) : (a.step T s what).Sound ∧ Kept a (a.step T s what) := by
  have hreturns : ∀ settled : Settled, (a.sending = true → settled.outcome ≠ .retry) →
      (a.returns settled).Sound ∧ Kept a (a.returns settled) := fun settled hretry =>
    ⟨h.returns hretry, returns_kept a settled⟩
  have hwaits : ∀ settled : Settled, a.stage = .claimed ∨ a.stage = .resolving →
      (a.returns settled).Sound ∧ Kept a (a.returns settled) := fun settled hstage =>
    hreturns settled fun hs => (nomatch (h.waits hstage).symm.trans hs)
  cases what with
  | start env =>
    unfold Attempt.step
    dsimp only
    split
    · exact ⟨h, .refl a⟩
    · next hstage =>
      rw [not_not] at hstage
      split
      · exact hwaits _ (.inl hstage)
      · exact h.resolve hstage
  | address answer =>
    unfold Attempt.step
    dsimp only
    split
    · exact ⟨h, .refl a⟩
    · next hstage =>
      rw [not_not] at hstage
      split
      · exact ⟨h, .refl a⟩
      · split
        · exact hwaits _ (.inr hstage)
        · next hbegins =>
          refine h.begin halive hstage ?_
          by_contra hlate
          rw [Bool.not_eq_false] at hlate
          exact executeToSend_late (hlate ▸ hbegins)
  | sendEnds answer =>
    unfold Attempt.step
    dsimp only
    split
    · exact ⟨h, .refl a⟩
    · next hstage => exact h.ends halive (not_not.1 hstage) answer
  | throws message =>
    unfold Attempt.step
    dsimp only
    split
    · exact ⟨h, .refl a⟩
    · split
      · exact hreturns _ fun _ hretry => nomatch hretry
      · next hsending => exact hreturns _ fun hs => absurd hs hsending
  | deadline =>
    unfold Attempt.step
    dsimp only
    split
    · exact ⟨h, .refl a⟩
    · next hopen =>
      refine h.deadline (by simpa using hopen) fun hs hretry => ?_
      rw [if_pos hs] at hretry
      exact nomatch hretry

end Attempt

/-! ## What waits for an approval or a claim -/

/-- The entry is pending or approved : an attempt at it can come. -/
def Waiting (s : Store) (id : JsString) : Prop :=
  ∃ r, s.find id = some r ∧ (r.status = .pending ∨ r.status = .approved)

theorem Moved.waiting (h : Moved s c r r') (hwaits : r'.status = .pending ∨ r'.status = .approved) :
    (r.status = .pending ∨ r.status = .approved) ∨ ∃ result, c.op = .finish r.id .retry result := by
  cases h with
  | stay => exact .inl hwaits
  | approve _ hstatus => exact .inl (.inl hstatus)
  | reject _ hstatus => exact .inl (.inl hstatus)
  | clear => simp [Row.reject] at hwaits
  | hold _ hstatus => exact .inl (.inr hstatus)
  | claim _ hstatus => exact .inl (.inr hstatus)
  | retry hop => exact .inr ⟨_, hop⟩
  | @settle outcome => cases outcome <;> simp [Row.settle, FinishOutcome.status] at hwaits
  | expire _ hstatus => exact .inl hstatus
  | stale => simp [Row.stale] at hwaits
  | tombstone _ hstatus => simp [Row.tombstone, hstatus] at hwaits

/-- Only a retry makes an entry that was drawn wait again. -/
theorem waiting_perform (hkeyed : Keyed s) (hdrawn : id ∈ s.drawn)
    (h : Waiting (perform T s c).2 id) : Waiting s id ∨ ∃ result, c.op = .finish id .retry result := by
  obtain ⟨r', hr', hwaits⟩ := h
  have hstep := step_find T hkeyed c id
  rw [hr'] at hstep
  generalize ho : s.find id = o at hstep
  cases hstep with
  | filed hfiles => exact absurd hdrawn hfiles.fresh
  | @moved r _ hmoved =>
    rcases hmoved.waiting hwaits with hwas | ⟨result, hop⟩
    · exact .inl ⟨r, ho, hwas⟩
    · exact .inr ⟨result, (Table.key_of_find ho : r.id = id) ▸ hop⟩

/-! ## The machine -/

/-- The invariant. -/
structure Guarded (m : Machine) : Prop where
  keyed : Keyed m.store
  sound : ∀ a ∈ m.attempts, a.Sound
  drawn : ∀ a ∈ m.attempts, a.entry.row.id ∈ m.store.drawn
  waiting : ∀ a ∈ m.attempts, Waiting m.store a.entry.row.id → a.Harmless
  current : ∀ k, m.tick = .attempting k → ∃ a, m.attempts[k]? = some a ∧
    ¬ Waiting m.store a.entry.row.id ∧ ∀ j b, j ≠ k → m.attempts[j]? = some b →
      b.entry.row.id = a.entry.row.id → b.Harmless
  live : ∀ (j : ℕ) (a : Attempt), m.attempts[j]? = some a → a.Barred ∨ m.tick = .attempting j

theorem guarded_empty : Guarded .empty where
  keyed := keyed_empty
  sound := fun _ h => nomatch h
  drawn := fun _ h => nomatch h
  waiting := fun _ h => nomatch h
  current := fun _ h => nomatch h
  live := fun _ _ h => nomatch h

/-- A call that is no `finish` keeps the invariant. -/
theorem Guarded.store (h : Guarded m) (hop : ∀ id result, c.op ≠ .finish id .retry result) :
    Guarded { m with store := (perform T m.store c).2 } := by
  have hwaiting : ∀ a ∈ m.attempts, Waiting (perform T m.store c).2 a.entry.row.id →
      Waiting m.store a.entry.row.id := fun a ha hwaits =>
    (waiting_perform h.keyed (h.drawn a ha) hwaits).resolve_right fun ⟨result, hfinish⟩ =>
      hop _ result hfinish
  refine ⟨keyed_perform T h.keyed c, h.sound, fun a ha => drawn_perform T h.keyed c (h.drawn a ha),
    fun a ha hwaits => h.waiting a ha (hwaiting a ha hwaits), fun k hk => ?_, h.live⟩
  obtain ⟨a, ha, hnot, hothers⟩ := h.current k hk
  exact ⟨a, ha, fun hwaits => hnot (hwaiting a (List.mem_of_getElem? ha) hwaits), hothers⟩

/-- Where no attempt is under way, the tick does not matter. -/
theorem Guarded.tick (h : Guarded m) {tick : Tick} (hnow : ∀ k, m.tick ≠ .attempting k)
    (hthen : ∀ k, tick ≠ .attempting k) : Guarded { m with tick := tick } :=
  ⟨h.keyed, h.sound, h.drawn, h.waiting, fun k hk => absurd hk (hthen k),
    fun j a ha => .inl ((h.live j a ha).resolve_right (hnow j))⟩

/-- Attempts that step. -/
theorem Guarded.attempts (h : Guarded m) {f : Attempt → Attempt}
    (hf : ∀ a ∈ m.attempts, (f a).Sound ∧ a.Kept (f a)) (k : Nat) :
    Guarded { m with attempts := m.attempts.modify k f } := by
  have hat : ∀ (j : ℕ) (b : Attempt), (m.attempts.modify k f)[j]? = some b →
      ∃ a, m.attempts[j]? = some a ∧ b.Sound ∧ a.Kept b := by
    intro j b hb
    rw [List.getElem?_modify] at hb
    obtain ⟨a, ha, hab⟩ := Option.map_eq_some_iff.1 hb
    refine ⟨a, ha, ?_⟩
    subst hab
    split
    · exact hf a (List.mem_of_getElem? ha)
    · exact ⟨h.sound a (List.mem_of_getElem? ha), .refl a⟩
  have hmem : ∀ b ∈ m.attempts.modify k f, ∃ a ∈ m.attempts, b.Sound ∧ a.Kept b := by
    intro b hb
    obtain ⟨j, hj⟩ := List.mem_iff_getElem?.1 hb
    obtain ⟨a, ha, hab⟩ := hat j b hj
    exact ⟨a, List.mem_of_getElem? ha, hab⟩
  refine ⟨h.keyed, fun b hb => ?_, fun b hb => ?_, fun b hb hwaits => ?_, fun k' hk' => ?_,
    fun j b hb => ?_⟩
  · obtain ⟨a, -, hsound, -⟩ := hmem b hb
    exact hsound
  · obtain ⟨a, ha, -, hkept⟩ := hmem b hb
    rw [hkept.entry]
    exact h.drawn a ha
  · obtain ⟨a, ha, -, hkept⟩ := hmem b hb
    rw [hkept.entry] at hwaits
    exact (h.waiting a ha hwaits).kept hkept
  · obtain ⟨a, ha, hnot, hothers⟩ := h.current k' hk'
    have hlength : k' < (m.attempts.modify k f).length := by
      rw [List.length_modify]
      exact (List.getElem?_eq_some_iff.1 ha).1
    obtain ⟨a₀, ha₀, -, hkept⟩ := hat k' _ (List.getElem?_eq_getElem hlength)
    obtain rfl := Option.some.inj (ha₀.symm.trans ha)
    refine ⟨_, List.getElem?_eq_getElem hlength, hkept.entry ▸ hnot, fun j b hj hb hid => ?_⟩
    obtain ⟨b₀, hb₀, -, hkept'⟩ := hat j b hb
    rw [hkept.entry, hkept'.entry] at hid
    exact (hothers j b₀ hj hb₀ hid).kept hkept'
  · obtain ⟨a, ha, -, hkept⟩ := hat j b hb
    exact (h.live j a ha).imp_left fun hbarred => (hkept.barred hbarred).1

/-- A claim : the entry waits no more, and what was tried of it before was harmless. -/
theorem Guarded.claim (h : Guarded m) (hnow : ∀ k, m.tick ≠ .attempting k) {cap : Option ClaimCap}
    {e : ApprovalEntry} (hop : c.op = .claim id cap)
    (hanswer : (perform T m.store c).1 = .claimed (.ok e)) :
    Guarded ⟨(perform T m.store c).2, .attempting m.attempts.length, m.attempts ++ [.ofClaim e]⟩ := by
  obtain ⟨r, hclaims⟩ := claims_of_answer hop hanswer
  have hid : e.row.id = id := by
    rw [hclaims.entry]
    show r.id = id
    exact Table.key_of_find hclaims.found
  have hwas : Waiting m.store id := ⟨r, hclaims.found, .inr hclaims.status⟩
  have hnot : ¬ Waiting (perform T m.store c).2 id := by
    rintro ⟨r', hr', hwaits⟩
    obtain rfl := Option.some.inj (hclaims.claimed.symm.trans hr')
    simp [Row.claim] at hwaits
  have hstore : Guarded { m with store := (perform T m.store c).2 } :=
    h.store fun _ _ hfinish => absurd (hop.symm.trans hfinish) (by simp)
  have hnew : (Attempt.ofClaim e).entry.row.id = id := hid
  refine ⟨hstore.keyed, fun a ha => ?_, fun a ha => ?_, fun a ha hwaits => ?_, fun k hk => ?_,
    fun j a ha => ?_⟩
  · rcases List.mem_append.1 ha with ha | ha
    · exact h.sound a ha
    · rw [List.mem_singleton.1 ha]
      exact ⟨fun _ => rfl, fun h => absurd rfl h, fun h => absurd rfl h, fun _ h => absurd h (by simp [Attempt.ofClaim])⟩
  · rcases List.mem_append.1 ha with ha | ha
    · exact hstore.drawn a ha
    · rw [List.mem_singleton.1 ha, hnew]
      exact drawn_perform T h.keyed c (drawn_of_find h.keyed hclaims.found)
  · rcases List.mem_append.1 ha with ha | ha
    · exact hstore.waiting a ha hwaits
    · rw [List.mem_singleton.1 ha, hnew] at hwaits
      exact absurd hwaits hnot
  · obtain rfl := Tick.attempting.inj hk
    refine ⟨.ofClaim e, by simp, hnew ▸ hnot, fun j b hj hb hsame => ?_⟩
    rw [List.getElem?_append] at hb
    split at hb
    · refine h.waiting b (List.mem_of_getElem? hb) ?_
      rw [hsame, hnew]
      exact hwas
    · have hlength := (List.getElem?_eq_some_iff.1 hb).1
      rw [List.length_singleton] at hlength
      omega
  · rw [List.getElem?_append] at ha
    split at ha
    · exact .inl ((h.live j a ha).resolve_right (hnow j))
    · have hlength := (List.getElem?_eq_some_iff.1 ha).1
      rw [List.length_singleton] at hlength
      exact .inr (congrArg Tick.attempting (by omega))

/-- The outcome is written : a retry is granted after harmless attempts only. -/
theorem Guarded.finish (h : Guarded m) {k : ℕ} {settled : Settled} {last : TickResult}
    (hk : m.tick = .attempting k) (ha : m.attempts[k]? = some a) (hsettled : a.settled = some settled)
    (hop : c.op = .finish a.entry.row.id settled.outcome settled.result) :
    Guarded ⟨(perform T m.store c).2, .idle last, m.attempts⟩ := by
  obtain ⟨a', ha', hnot, hothers⟩ := h.current k hk
  obtain rfl := Option.some.inj (ha'.symm.trans ha)
  have hsound := h.sound a' (List.mem_of_getElem? ha)
  have hbarred : a'.Barred := hsound.barred (hsettled ▸ Option.some_ne_none _)
  refine ⟨keyed_perform T h.keyed c, h.sound, fun b hb => drawn_perform T h.keyed c (h.drawn b hb),
    fun b hb hwaits => ?_, fun _ h => (nomatch h), fun j b hb => .inl ?_⟩
  · rcases waiting_perform h.keyed (h.drawn b hb) hwaits with hwas | ⟨result, hfinish⟩
    · exact h.waiting b hb hwas
    · rw [hop] at hfinish
      injection hfinish with hid houtcome
      obtain ⟨j, hj⟩ := List.mem_iff_getElem?.1 hb
      by_cases hjk : j = k
      · subst hjk
        obtain rfl := Option.some.inj (hj.symm.trans ha)
        exact ⟨hbarred, hsound.retry settled hsettled houtcome⟩
      · exact hothers j b hjk hj hid.symm
  · rcases h.live j b hb with hlive | hlive
    · exact hlive
    · obtain rfl := Tick.attempting.inj (hk.symm.trans hlive)
      obtain rfl := Option.some.inj (hb.symm.trans ha)
      exact hbarred

theorem Guarded.tryCandidate (h : Guarded m) (db : EngineDb) (admits : ApprovalKind → ClaimCap) :
    Guarded (m.tryCandidate T db admits) := by
  unfold Machine.tryCandidate
  split
  · next hscan => exact h.tick (fun k hk => nomatch hscan.symm.trans hk) fun _ hk => nomatch hk
  · next now retryDelay heldKinds id kind candidates hscan =>
    have hnow : ∀ k, m.tick ≠ .attempting k := fun k hk => nomatch hscan.symm.trans hk
    have hstore : Guarded { m with
        store := (perform T m.store ⟨.claim id (some (admits kind)), now, db⟩).2 } :=
      h.store fun _ _ hfinish => nomatch hfinish
    dsimp only
    split
    · next e hanswer => exact h.claim hnow rfl hanswer
    · refine Guarded.tick (m := { m with store := _ }) ?_ hnow fun _ hk => nomatch hk
      exact hstore.store (T := T) (c := ⟨.holdKind kind, now, db⟩) fun _ _ hfinish => nomatch hfinish
    · exact hstore.tick hnow fun _ hk => nomatch hk
  · exact h

theorem Guarded.finishAttempt (h : Guarded m) (now : Time) (db : EngineDb) :
    Guarded (m.finishAttempt T now db) := by
  unfold Machine.finishAttempt
  split
  · next k hk =>
    split
    · exact h
    · next a ha =>
      split
      · exact h
      · next settled hsettled => exact h.finish hk ha hsettled rfl
  · exact h

/-- The process of an attempt dies. -/
theorem dies_kept (h : a.Sound) : ({ a with alive := false } : Attempt).Sound ∧
    a.Kept { a with alive := false } := by
  have hdead : ({ a with alive := false } : Attempt).Barred := .inr (.inr (.inr rfl))
  exact ⟨⟨h.waits, h.sent, fun _ => hdead, h.retry⟩, rfl, fun hs => (nomatch hs), fun _ => rfl,
    fun _ => rfl, fun hs => hs, fun _ => rfl, fun _ => ⟨hdead, rfl⟩⟩

/-- No attempt goes on. -/
theorem Guarded.death (h : Guarded m) : Guarded (m.step T .death) := by
  refine ⟨h.keyed, fun b hb => ?_, fun b hb => ?_, fun b hb hwaits => ?_,
    fun _ hk => (nomatch hk), fun j b hb => ?_⟩
  · obtain ⟨a, ha, rfl⟩ := List.mem_map.1 hb
    exact (dies_kept (h.sound a ha)).1
  · obtain ⟨a, ha, rfl⟩ := List.mem_map.1 hb
    exact h.drawn a ha
  · obtain ⟨a, ha, rfl⟩ := List.mem_map.1 hb
    exact (h.waiting a ha hwaits).kept (dies_kept (h.sound a ha)).2
  · obtain ⟨a, ha, rfl⟩ := List.mem_map.1 (List.mem_of_getElem? hb)
    exact .inl (.inr (.inr (.inr rfl)))

/-- What the machine makes of the attempt under way, and of every other. -/
theorem Guarded.attempt (h : Guarded m) (k : ℕ) (what : Happening) :
    Guarded (m.step T (.attempt k what)) := by
  refine h.attempts (fun a ha => ?_) k
  split
  · next halive => exact (h.sound a ha).step halive T m.store what
  · exact ⟨h.sound a ha, .refl a⟩

theorem Guarded.step (h : Guarded m) (T : Texts) (e : Event) : Guarded (m.step T e) := by
  cases e with
  | tick now dedupWindow =>
    unfold Machine.step
    dsimp only
    split
    · next hidle => exact h.tick (fun k hk => nomatch hidle.symm.trans hk) fun _ hk => nomatch hk
    · exact h
  | candidate db admits => exact h.tryCandidate db admits
  | attempt k what => exact h.attempt k what
  | finish now db => exact h.finishAttempt now db
  | death => exact h.death
  | elsewhere call =>
    unfold Machine.step
    dsimp only
    split
    · exact h
    · next hop =>
      refine h.store fun id result hfinish => ?_
      rw [hfinish] at hop
      exact hop rfl

theorem guarded_after (T : Texts) (events : List Event) : Guarded (Machine.after T events) :=
  Run.invariant (fun _ e h => h.step T e) guarded_empty

/-! ## Sends -/

/-- The send of attempt `k`, at the entry `id`, began. -/
def Begun (m : Machine) (k : ℕ) (id : JsString) : Prop :=
  ∃ a, m.attempts[k]? = some a ∧ a.entry.row.id = id ∧ a.sending = true

/-- The event begins the send of attempt `k`. -/
def Begins (T : Texts) (m : Machine) (e : Event) (k : ℕ) (id : JsString) : Prop :=
  ¬ Begun m k id ∧ Begun (m.step T e) k id

/-- The attempts of a step : those there were, as a step keeps them, and new ones that sent nothing. -/
structure Grown (attempts attempts' : List Attempt) : Prop where
  kept : ∀ (j : ℕ) (a : Attempt), attempts[j]? = some a → ∃ a', attempts'[j]? = some a' ∧ a.Kept a'
  fresh : ∀ (j : ℕ) (a' : Attempt), attempts[j]? = none → attempts'[j]? = some a' →
    a'.sending = false

theorem Grown.refl (attempts : List Attempt) : Grown attempts attempts :=
  ⟨fun _ a ha => ⟨a, ha, .refl a⟩, fun _ _ hnone ha => nomatch hnone.symm.trans ha⟩

theorem Grown.claimed (attempts : List Attempt) (e : ApprovalEntry) :
    Grown attempts (attempts ++ [.ofClaim e]) := by
  refine ⟨fun j a ha => ⟨a, ?_, .refl a⟩, fun j a' hnone ha' => ?_⟩
  · rw [List.getElem?_append_left (List.getElem?_eq_some_iff.1 ha).1]
    exact ha
  · rw [List.getElem?_append_right (List.getElem?_eq_none_iff.1 hnone)] at ha'
    rw [List.mem_singleton.1 (List.mem_of_getElem? ha')]
    rfl

theorem Grown.modify {attempts : List Attempt} {f : Attempt → Attempt}
    (hf : ∀ a ∈ attempts, a.Kept (f a)) (k : ℕ) : Grown attempts (attempts.modify k f) := by
  refine ⟨fun j a ha => ?_, fun j a' hnone ha' => ?_⟩
  · rw [List.getElem?_modify, ha]
    refine ⟨_, rfl, ?_⟩
    split
    · exact hf a (List.mem_of_getElem? ha)
    · exact .refl a
  · rw [List.getElem?_modify, hnone] at ha'
    exact nomatch ha'

theorem grown_step (h : Guarded m) (T : Texts) (e : Event) :
    Grown m.attempts (m.step T e).attempts := by
  cases e with
  | tick now dedupWindow =>
    unfold Machine.step
    dsimp only
    split
    · exact .refl _
    · exact .refl _
  | candidate db admits =>
    show Grown m.attempts (m.tryCandidate T db admits).attempts
    unfold Machine.tryCandidate
    split
    · exact .refl _
    · dsimp only
      split
      · exact .claimed _ _
      · exact .refl _
      · exact .refl _
    · exact .refl _
  | attempt k what =>
    refine .modify (fun a ha => ?_) k
    split
    · next halive => exact ((h.sound a ha).step halive T m.store what).2
    · exact .refl a
  | finish now db =>
    show Grown m.attempts (m.finishAttempt T now db).attempts
    unfold Machine.finishAttempt
    split
    · split
      · exact .refl _
      · split
        · exact .refl _
        · exact .refl _
    · exact .refl _
  | death =>
    refine ⟨fun j a ha => ⟨{ a with alive := false }, ?_, (dies_kept (h.sound a
      (List.mem_of_getElem? ha))).2⟩, fun j a' hnone ha' => ?_⟩
    · show (m.attempts.map _)[j]? = _
      rw [List.getElem?_map, ha]
      rfl
    · have hmap : (m.attempts.map fun a => { a with alive := false })[j]? = some a' := ha'
      rw [List.getElem?_map, hnone] at hmap
      exact nomatch hmap
  | elsewhere call =>
    unfold Machine.step
    dsimp only
    split
    · exact .refl _
    · exact .refl _

theorem kept_after (h : Guarded m) (T : Texts) (events : List Event) {j : ℕ}
    (ha : m.attempts[j]? = some a) :
    ∃ a', (Run.after (Machine.step T) m events).attempts[j]? = some a' ∧ a.Kept a' := by
  induction events generalizing m a with
  | nil => exact ⟨a, ha, .refl a⟩
  | cons e events ih =>
    obtain ⟨a', ha', hkept⟩ := (grown_step h T e).kept j a ha
    obtain ⟨a'', ha'', hkept'⟩ := ih (h.step T e) ha'
    exact ⟨a'', ha'', hkept.trans hkept'⟩

/-- A send begins in the attempt under way, after harmless ones only. -/
theorem Guarded.begins (h : Guarded m) {e : Event} {k : ℕ} (hbegins : Begins T m e k id) {j : ℕ}
    (ha : m.attempts[j]? = some a) (hid : a.entry.row.id = id) (hsending : a.sending = true) :
    a.SaidDedup := by
  obtain ⟨hnot, b', hb', hid', hsends⟩ := hbegins
  have hgrown := grown_step h T e
  cases hb : m.attempts[k]? with
  | none => exact nomatch (hgrown.fresh k b' hb hb').symm.trans hsends
  | some b =>
    obtain ⟨b₁, hb₁, hkept⟩ := hgrown.kept k b hb
    obtain rfl := Option.some.inj (hb'.symm.trans hb₁)
    have hbid : b.entry.row.id = id := by
      rw [← hkept.entry]
      exact hid'
    have hquiet : ¬ b.sending = true := fun hs => hnot ⟨b, hb, hbid, hs⟩
    have hfree : ¬ b.Barred := fun hbarred =>
      hquiet ((hkept.barred hbarred).2.symm.trans hsends)
    obtain ⟨b₂, hb₂, -, hothers⟩ := h.current k ((h.live k b hb).resolve_left hfree)
    obtain rfl := Option.some.inj (hb₂.symm.trans hb)
    have hjk : j ≠ k := by
      rintro rfl
      obtain rfl := Option.some.inj (ha.symm.trans hb)
      exact hquiet hsending
    exact (hothers j a hjk ha (hid.trans hbid.symm)).2 hsending

/-- Over every history of ticks, answers, deadlines, deaths, sweeps and decisions : where a send begins
for an entry, every earlier one ended with the dedup window; after a send that threw, timed out, died or
answered unclearly none begins for its entry; and an attempt settled before its send never sends. -/
theorem approved_mail_is_sent_at_most_once (T : Texts) (events : List Event) :
    (∀ e k id, Begins T (Machine.after T events) e k id → ∀ (j : ℕ) (a : Attempt),
      (Machine.after T events).attempts[j]? = some a → a.entry.row.id = id → a.sending = true →
      a.SaidDedup) ∧
    (∀ (j : ℕ) (a : Attempt), (Machine.after T events).attempts[j]? = some a → a.Unclear →
      ∀ more e k, ¬ Begins T (Machine.after T (events ++ more)) e k a.entry.row.id) ∧
    (∀ (j : ℕ) (a : Attempt), (Machine.after T events).attempts[j]? = some a →
      a.settled = some (.retry (utf16 "deadline_before_send")) → ∀ more,
      ¬ Begun (Machine.after T (events ++ more)) j a.entry.row.id) := by
  have hguarded := guarded_after T events
  refine ⟨fun e k id hbegins j a ha hid hs => hguarded.begins hbegins ha hid hs,
    fun j a ha hunclear more e k hbegins => ?_, fun j a ha hsettled more hbegun => ?_⟩
  · obtain ⟨a', ha', hkept⟩ := kept_after hguarded T more ha
    rw [Machine.after, Run.after_append] at hbegins
    have hguarded' : Guarded (Run.after (Machine.step T) (Machine.after T events) more) :=
      Run.invariant (fun _ e h => h.step T e) hguarded
    have hunclear' := hunclear.kept hkept
    exact hunclear'.not_saidDedup
      (hguarded'.begins hbegins ha' (congrArg (·.row.id) hkept.entry) hunclear'.1)
  · obtain ⟨a', ha', hkept⟩ := kept_after hguarded T more ha
    rw [Machine.after, Run.after_append] at hbegun
    obtain ⟨a₁, ha₁, -, hs⟩ := hbegun
    obtain rfl := Option.some.inj (ha'.symm.trans ha₁)
    have hsound := hguarded.sound a (List.mem_of_getElem? ha)
    have hbarred := hsound.barred (hsettled ▸ Option.some_ne_none _)
    have hwas : a.sending = true := (hkept.barred hbarred).2.symm.trans hs
    obtain ⟨-, -, hdedup⟩ := hsound.retry _ hsettled rfl hwas
    have hreason := congrArg Settled.result (Option.some.inj (hsettled.symm.trans hdedup))
    injection hreason with hfield
    injection hfield with _ hvalue
    injection hvalue with htext
    exact absurd htext (by decide)

/-- The sample is claimed, and its send throws. -/
def sampleHistory : List Event :=
  sampleCalls.map .elsewhere ++
    [.tick 3000 60000, .candidate sampleDb fun _ => ⟨fun _ _ => true⟩,
      .attempt 0 (.start ⟨sampleDb, fun _ => true, some ⟨fun _ => some false, fun _ => true⟩⟩),
      .attempt 0 (.address ⟨some (utf16 "me@x.ch"), fun _ _ => false, .records⟩),
      .attempt 0 (.sendEnds (.error (utf16 "reset"))), .finish 4000 sampleDb]

theorem sample_is_not_sent_again : ¬ Begins sampleTexts (Machine.after sampleTexts
    (sampleHistory ++ [.tick 90000 60000])) (.candidate sampleDb fun _ => ⟨fun _ _ => true⟩) 1
      (utf16 "e1") := by
  have hthrew : (match (Machine.after sampleTexts sampleHistory).attempts[0]? with
    | some a => decide (a.entry.row.id = utf16 "e1") && a.sending &&
        decide (a.sent = some (.error (utf16 "reset")))
    | none => false) = true := by decide +kernel
  split at hthrew
  · next a ha =>
    simp only [Bool.and_eq_true, decide_eq_true_eq] at hthrew
    obtain ⟨⟨hid, hsending⟩, hsent⟩ := hthrew
    rw [← hid]
    exact (approved_mail_is_sent_at_most_once sampleTexts sampleHistory).2.1 0 a ha
      ⟨hsending, .inl ⟨_, hsent⟩⟩ _ _ _
  · exact nomatch hthrew

/-- At most one attempt may still begin its send, and its entry waits for no other. -/
theorem one_attempt_may_send (T : Texts) (events : List Event) :
    {j : ℕ | ∃ a, (Machine.after T events).attempts[j]? = some a ∧ ¬ a.Barred}.Subsingleton ∧
      ∀ a ∈ (Machine.after T events).attempts, ¬ a.Barred →
        ¬ Waiting (Machine.after T events).store a.entry.row.id := by
  have hguarded := guarded_after T events
  refine ⟨?_, fun a ha hfree hwaits => hfree (hguarded.waiting a ha hwaits).1⟩
  rintro i ⟨a, ha, hi⟩ j ⟨b, hb, hj⟩
  have hnow := (hguarded.live i a ha).resolve_left hi
  exact Tick.attempting.inj (hnow.symm.trans ((hguarded.live j b hb).resolve_left hj))

end Lynox.Approvals
