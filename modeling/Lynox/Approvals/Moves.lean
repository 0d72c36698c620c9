import Lynox.Approvals.Store

/-!
# What an operation does to a row

`Moved s c r r'` lists what the call `c` can make of a row `r`, with what it checked, and `Gone c r`
when it takes the row away. `perform_effect` says that a call does nothing else : it files one row, or
it makes of every row what these say; `step_find` is the same for the row under one id. What no
operation changes is `Same`.
-/

namespace Lynox.Approvals

open Text

variable {T : Texts} {s : Store} {c : Call} {r r' : Row} {id : JsString}

/-- What the call `c` can make of a row. -/
inductive Moved (s : Store) (c : Call) : Row → Row → Prop
  | stay (r : Row) : Moved s c r r
  | approve {r : Row} {checksum decidedBy : JsString}
      (hop : c.op = .decide r.id (.approve checksum) decidedBy) (hstatus : r.status = .pending)
      (hlive : c.now < r.expiresAt) (hexec : (toEntry c.db r).executable = true)
      (hshown : checksum = r.checksum) (hmatch : checksumMatches c.db s r.id = true) :
      Moved s c r (r.approve decidedBy c.now)
  | reject {r : Row} {reason : RejectReason} {decidedBy : JsString}
      (hop : c.op = .decide r.id (.reject reason) decidedBy) (hstatus : r.status = .pending) :
      Moved s c r (r.reject decidedBy reason.text c.now)
  | clear {r : Row} {decidedBy : JsString} (hop : c.op = .decide r.id .clearUnknown decidedBy)
      (hstatus : r.status = .unknown) :
      Moved s c r (r.reject decidedBy (utf16 "cleared_unknown") c.now)
  | hold {r : Row} (reason : JsString) (hstatus : r.status = .approved) :
      Moved s c r (r.hold reason c.now)
  | claim {r : Row} {cap : Option ClaimCap} (hop : c.op = .claim r.id cap)
      (hstatus : r.status = .approved) (hlive : c.now < r.expiresAt)
      (hexec : (toEntry c.db r).executable = true) : Moved s c r (r.claim c.now)
  | retry {r : Row} {result : Result} (hop : c.op = .finish r.id .retry result)
      (hstatus : r.status = .executing) (hattempts : r.attempts < APPROVAL_MAX_ATTEMPTS)
      (stored : AtRest) : Moved s c r (r.retry stored c.now)
  | settle {r : Row} {outcome : FinishOutcome} {result : Result}
      (hop : c.op = .finish r.id outcome result) (hstatus : r.status = .executing)
      (stored : AtRest) : Moved s c r (r.settle outcome.status stored c.now)
  | expire {r : Row} {input : SweepInput} (hop : c.op = .sweep input)
      (hstatus : r.status = .pending ∨ r.status = .approved) (reason : JsString) :
      Moved s c r (r.expire c.db reason c.now)
  | stale {r : Row} {input : SweepInput} (hop : c.op = .sweep input)
      (hstatus : r.status = .executing) : Moved s c r (r.stale c.db c.now)
  | tombstone {r : Row} {input : SweepInput} (hop : c.op = .sweep input)
      (hstatus : r.status = .unknown) (hkeyed : r.binding = .keyed)
      (hnone : r.tombstonedAt = none) : Moved s c r (r.tombstone c.now)

/-- When the call `c` takes a row away. -/
inductive Gone (c : Call) : Row → Prop
  | clear {r : Row} {decidedBy : JsString} (hop : c.op = .decide r.id .clearUnknown decidedBy)
      (hstatus : r.status = .unknown) : Gone c r
  | purge {r : Row} {input : SweepInput} {due : Time} (hop : c.op = .sweep input)
      (hdue : r.purgeAfter = some due) (hreached : due ≤ c.now)
      (hother : ¬ (r.status = .unknown ∧ r.binding = .keyed)) : Gone c r

/-! ## What stays -/

/-- What no operation changes of a row. -/
structure Same (r r' : Row) : Prop where
  id : r'.id = r.id
  kind : r'.kind = r.kind
  originJson : r'.originJson = r.originJson
  dedupKey : r'.dedupKey = r.dedupKey
  familyKey : r'.familyKey = r.familyKey
  checksum : r'.checksum = r.checksum
  binding : r'.binding = r.binding
  expiresAt : r'.expiresAt = r.expiresAt

theorem Same.refl (r : Row) : Same r r :=
  ⟨rfl, rfl, rfl, rfl, rfl, rfl, rfl, rfl⟩

theorem Same.trans {r'' : Row} (h : Same r r') (h' : Same r' r'') : Same r r'' :=
  ⟨h'.id.trans h.id, h'.kind.trans h.kind, h'.originJson.trans h.originJson,
    h'.dedupKey.trans h.dedupKey, h'.familyKey.trans h.familyKey, h'.checksum.trans h.checksum,
    h'.binding.trans h.binding, h'.expiresAt.trans h.expiresAt⟩

theorem Moved.same (h : Moved s c r r') : Same r r' := by
  cases h <;> exact ⟨rfl, rfl, rfl, rfl, rfl, rfl, rfl, rfl⟩

/-! ## Every operation -/

section Effects

/-- What a call makes of the rows : of each what `f` says. -/
structure Effect (s s' : Store) (c : Call) (f : Row → Option Row) : Prop where
  rows : s'.rows = s.rows.filterMap f
  drawn : s'.drawn = s.drawn
  moved : ∀ r ∈ s.rows, ∀ r', f r = some r' → Moved s c r r'
  gone : ∀ r ∈ s.rows, f r = none → Gone c r

theorem Effect.unchanged (s : Store) (c : Call) : Effect s s c some :=
  ⟨List.filterMap_some.symm, rfl, fun r _ _ h => Option.some.inj h ▸ .stay r,
    fun _ _ h => nomatch h⟩

/-- Rows that are mapped. -/
theorem map_effect {s' : Store} {g : Row → Row} (hrows : s'.rows = s.rows.map g)
    (hdrawn : s'.drawn = s.drawn) (h : ∀ r ∈ s.rows, Moved s c r (g r)) :
    Effect s s' c fun r => some (g r) :=
  ⟨by rw [hrows, List.filterMap_eq_map'], hdrawn, fun r hr _ heq => Option.some.inj heq ▸ h r hr,
    fun _ _ h => nomatch h⟩

/-- An update moves the rows it takes. -/
theorem update_effect {p : Row → Bool} {g : Row → Row}
    (h : ∀ r ∈ s.rows, r.id = id → p r = true → Moved s c r (g r)) :
    Effect s (s.update id p g).2 c fun r => some (if r.id = id && p r then g r else r) := by
  refine map_effect rfl rfl fun r hr => ?_
  split
  · next hp =>
    rw [Bool.and_eq_true, decide_eq_true_eq] at hp
    exact h r hr hp.1 hp.2
  · exact .stay r

theorem not_reached {stored now : Time} (h : ¬ reached stored now = true) : now < stored := by
  simpa [reached] using h

theorem took_store (out : Bool × Store) (otherwise : DecideResult) :
    (took out otherwise).2 = out.2 := by
  unfold took
  split
  · rfl
  · rfl

theorem decide_effect {action : DecideAction} {decidedBy : JsString}
    (hop : c.op = .decide id action decidedBy) (hkeyed : (s.rows.map Row.id).Nodup) :
    ∃ f, Effect s (Store.decide c.db s id action decidedBy c.now).2 c f := by
  unfold Store.decide
  split
  · exact ⟨_, .unchanged s c⟩
  · next r hr =>
    have hfound : ∀ r' ∈ s.rows, r'.id = id → r' = r := by
      intro r' hr' hid
      have hfind := Table.find_of_mem hkeyed hr'
      rw [hid] at hfind
      exact Option.some.inj (hfind.symm.trans hr)
    cases action with
    | clearUnknown =>
      dsimp only
      split
      · refine ⟨fun r => if r.id = id && r.status = .unknown then none else some r, ?_, rfl, ?_, ?_⟩
        · rw [← List.filterMap_eq_filter]
          refine List.filterMap_congr fun r _ => ?_
          by_cases h : (r.id = id && r.status = .unknown) = true
          · simp [Option.guard, h]
          · simp [Option.guard, h]
        · intro r _ r' heq
          split at heq
          · exact nomatch heq
          · exact Option.some.inj heq ▸ .stay r
        · intro r hr heq
          split at heq
          · next hp =>
            rw [Bool.and_eq_true, decide_eq_true_eq, decide_eq_true_eq] at hp
            exact .clear (hp.1 ▸ hop) hp.2
          · exact nomatch heq
      · rw [took_store]
        exact ⟨_, update_effect fun r _ hid hp => .clear (hid ▸ hop) (of_decide_eq_true hp)⟩
    | reject reason =>
      dsimp only
      split
      · exact ⟨_, .unchanged s c⟩
      · rw [took_store]
        exact ⟨_, update_effect fun r _ hid hp => .reject (hid ▸ hop) (of_decide_eq_true hp)⟩
    | approve checksum =>
      dsimp only
      split
      · exact ⟨_, .unchanged s c⟩
      · split
        · exact ⟨_, .unchanged s c⟩
        · split
          · exact ⟨_, .unchanged s c⟩
          · split
            · exact ⟨_, .unchanged s c⟩
            · next hpending hlive hexec hmatch =>
              rw [not_or] at hmatch
              rw [took_store]
              refine ⟨_, update_effect fun r' hr' hid _ => ?_⟩
              obtain rfl := hfound r' hr' hid
              refine .approve (hid ▸ hop) (not_not.1 hpending) (not_reached hlive) ?_
                (not_not.1 hmatch.1) ?_
              · simpa using hexec
              · rw [hid]
                simpa using hmatch.2

theorem claim_effect {cap : Option ClaimCap} (hop : c.op = .claim id cap)
    (hkeyed : (s.rows.map Row.id).Nodup) : ∃ f, Effect s (claim c.db s id c.now cap).2 c f := by
  unfold claim
  split
  · exact ⟨_, .unchanged s c⟩
  · next r hr =>
    split
    · exact ⟨_, .unchanged s c⟩
    · split
      · exact ⟨_, .unchanged s c⟩
      · split
        · exact ⟨_, .unchanged s c⟩
        · next happroved hlive hexec =>
          split
          · exact ⟨_, update_effect fun r _ _ hp => .hold _ (of_decide_eq_true hp)⟩
          · have hmoved : ∃ f, Effect s (s.update id (·.status = .approved) (Row.claim c.now)).2 c f := by
              refine ⟨_, update_effect fun r' hr' hid _ => ?_⟩
              have hfind := Table.find_of_mem hkeyed hr'
              rw [hid] at hfind
              obtain rfl := Option.some.inj (hfind.symm.trans hr)
              exact .claim (hid ▸ hop) (not_not.1 happroved) (not_reached hlive) (by simpa using hexec)
            dsimp only
            split
            · split
              · exact hmoved
              · exact hmoved
            · exact hmoved

theorem finish_effect {outcome : FinishOutcome} {result : Result}
    (hop : c.op = .finish id outcome result) (hkeyed : (s.rows.map Row.id).Nodup) :
    ∃ f, Effect s (finish c.db s id outcome result c.now).2 c f := by
  unfold finish
  split
  · exact ⟨_, .unchanged s c⟩
  · next r hr =>
    have hfound := List.find?_some hr
    rw [Bool.and_eq_true, decide_eq_true_eq, decide_eq_true_eq] at hfound
    dsimp only
    split
    · next hretry =>
      refine ⟨_, update_effect fun r' hr' hid hp => ?_⟩
      have hfind := Table.find_of_mem hkeyed hr'
      rw [hid, ← hfound.1, Table.find_of_mem hkeyed (List.mem_of_find?_eq_some hr)] at hfind
      obtain rfl := Option.some.inj hfind
      exact .retry (hretry.1 ▸ hid ▸ hop) hfound.2 hretry.2 _
    · exact ⟨_, update_effect fun r' _ hid hp => .settle (hid ▸ hop) (of_decide_eq_true hp) _⟩

theorem sweepPending_of_ne {db : EngineDb} {now : Time} (h : r.status ≠ .pending) :
    sweepPending db now r = r :=
  if_neg fun hpending => h hpending.1

theorem sweepApproved_of_ne {db : EngineDb} {input : SweepInput} {now : Time}
    (h : r.status ≠ .approved) : sweepApproved db input now r = r :=
  if_pos h

theorem sweepExecuting_of_ne {db : EngineDb} {now : Time} (h : r.status ≠ .executing) :
    sweepExecuting db now r = r :=
  if_neg fun hexecuting => h hexecuting.1

/-- What was just given its time to go is not due. -/
theorem sweepDue_of_fresh {now : Time} (h : r.purgeAfter = some (now + APPROVAL_PURGE_AFTER_MS)) :
    sweepDue now r = some r := by
  refine if_neg fun hdue => ?_
  have hreached := hdue.2
  rw [h, Option.any_some, reached] at hreached
  simp [APPROVAL_PURGE_AFTER_MS] at hreached

theorem sweepApproved_cases (db : EngineDb) (input : SweepInput) (now : Time)
    (h : r.status = .approved) : sweepApproved db input now r = r ∨
      ∃ reason, sweepApproved db input now r = r.expire db reason now := by
  unfold sweepApproved
  rw [if_neg (not_not.2 h)]
  split
  · split
    · exact .inr ⟨_, rfl⟩
    · exact .inl rfl
  · split
    · exact .inr ⟨_, rfl⟩
    · exact .inl rfl

theorem sweepDue_row {input : SweepInput} (hop : c.op = .sweep input) (r : Row) :
    (∀ r', sweepDue c.now r = some r' → Moved s c r r') ∧
      (sweepDue c.now r = none → Gone c r) := by
  unfold sweepDue
  split
  · next hdue =>
    split
    · next hkeyed =>
      refine ⟨fun r' heq => ?_, fun h => nomatch h⟩
      rw [← Option.some.inj heq]
      exact .tombstone hop hkeyed.1 hkeyed.2 hdue.1
    · next hother =>
      refine ⟨fun r' h => (nomatch h), fun _ => ?_⟩
      obtain ⟨-, hreached⟩ := hdue
      cases hpurge : r.purgeAfter with
      | none =>
        rw [hpurge] at hreached
        exact nomatch hreached
      | some due =>
        rw [hpurge] at hreached
        exact .purge hop hpurge (by simpa [reached] using hreached) hother
  · exact ⟨fun r' heq => Option.some.inj heq ▸ .stay r, fun h => nomatch h⟩

/-- A sweep changes a row once at most : what it changed is not due. -/
theorem sweep_row {input : SweepInput} (hop : c.op = .sweep input) (r : Row) :
    (∀ r', sweepDue c.now (sweepExecuting c.db c.now (sweepApproved c.db input c.now
      (sweepPending c.db c.now r))) = some r' → Moved s c r r') ∧
    (sweepDue c.now (sweepExecuting c.db c.now (sweepApproved c.db input c.now
      (sweepPending c.db c.now r))) = none → Gone c r) := by
  have hexpired : ∀ reason, (r.status = .pending ∨ r.status = .approved) →
      (∀ r', sweepDue c.now (sweepExecuting c.db c.now (r.expire c.db reason c.now)) = some r' →
        Moved s c r r') ∧
      (sweepDue c.now (sweepExecuting c.db c.now (r.expire c.db reason c.now)) = none → Gone c r) := by
    intro reason hstatus
    have hexpire : (r.expire c.db reason c.now).status ≠ .executing := fun h => nomatch h
    rw [sweepExecuting_of_ne hexpire, sweepDue_of_fresh rfl]
    exact ⟨fun r' heq => Option.some.inj heq ▸ .expire hop hstatus reason, fun h => nomatch h⟩
  by_cases hpending : r.status = .pending
  · by_cases hreached : reached r.expiresAt c.now = true
    · have hsweep : sweepPending c.db c.now r = r.expire c.db (utf16 "ttl") c.now :=
        if_pos ⟨hpending, hreached⟩
      have hexpire : (r.expire c.db (utf16 "ttl") c.now).status ≠ .approved := fun h => nomatch h
      rw [hsweep, sweepApproved_of_ne hexpire]
      exact hexpired (utf16 "ttl") (.inl hpending)
    · have hsweep : sweepPending c.db c.now r = r := if_neg fun h => hreached h.2
      rw [hsweep, sweepApproved_of_ne (by simp [hpending]), sweepExecuting_of_ne (by simp [hpending])]
      exact sweepDue_row hop r
  · rw [sweepPending_of_ne hpending]
    by_cases happroved : r.status = .approved
    · rcases sweepApproved_cases c.db input c.now happroved with hstay | ⟨reason, hexpire⟩
      · rw [hstay, sweepExecuting_of_ne (by simp [happroved])]
        exact sweepDue_row hop r
      · rw [hexpire]
        exact hexpired reason (.inr happroved)
    · rw [sweepApproved_of_ne happroved]
      by_cases hstale : r.status = .executing ∧
          ¬ r.claimedAt.any (fun t => c.now < t + APPROVAL_CLAIM_STALE_MS)
      · have hsweep : sweepExecuting c.db c.now r = r.stale c.db c.now := if_pos hstale
        rw [hsweep, sweepDue_of_fresh rfl]
        exact ⟨fun r' heq => Option.some.inj heq ▸ .stale hop hstale.1, fun h => nomatch h⟩
      · have hsweep : sweepExecuting c.db c.now r = r := if_neg hstale
        rw [hsweep]
        exact sweepDue_row hop r

theorem sweep_effect {input : SweepInput} (hop : c.op = .sweep input) :
    ∃ f, Effect s (sweep c.db s input c.now).2 c f := by
  refine ⟨fun r => sweepDue c.now (sweepExecuting c.db c.now (sweepApproved c.db input c.now
    (sweepPending c.db c.now r))), ?_, rfl, fun r _ => (sweep_row hop r).1,
    fun r _ => (sweep_row (s := s) hop r).2⟩
  simp only [sweep, List.filterMap_map, Function.comp_def]

theorem holdKind_effect (kind : ApprovalKind) : ∃ f, Effect s (holdKind s kind c.now).2 c f := by
  refine ⟨_, map_effect rfl rfl fun r _ => ?_⟩
  split
  · next h =>
    simp only [Bool.and_eq_true, decide_eq_true_eq] at h
    exact .hold _ h.1.1.1
  · exact .stay r

end Effects

/-! ## A call -/

/-- Rows have ids that were drawn, each its own. -/
structure Keyed (s : Store) : Prop where
  nodup : (s.rows.map Row.id).Nodup
  drawn : ∀ r ∈ s.rows, r.id ∈ s.drawn

theorem keyed_empty : Keyed Store.empty :=
  ⟨List.nodup_nil, fun _ h => nomatch h⟩

/-- A call that files, with what it checked. -/
structure Files (T : Texts) (s : Store) (c : Call) (id : JsString) (input : FileApprovalInput) :
    Prop where
  op : c.op = .file id input
  fresh : id ∉ s.drawn
  unique : duplicate s.rows (filedRow c.db T id input c.now).dedupKey
    (filedRow c.db T id input c.now).familyKey
    (c.now - APPROVAL_DEDUP_WINDOW_MS input.filing.kind) = none
  answer : (perform T s c).1 = .filed (.ok id)
  store : (perform T s c).2 =
    ⟨s.rows ++ [filedRow c.db T id input c.now], id :: s.drawn⟩

theorem duplicate_ne_ok {rows : List Row} {dedupKey : JsString} {familyKey : Option JsString}
    {windowStart : Time} : duplicate rows dedupKey familyKey windowStart ≠ some (.ok id) := by
  unfold duplicate
  split
  · simp
  · dsimp only
    split
    · simp
    · simp

theorem file_cases {input : FileApprovalInput} (hop : c.op = .file id input) :
    Files T s c id input ∨
      ((perform T s c).2 = s ∧ (perform T s c).1 ≠ .filed (.ok id)) := by
  have hperform : perform T s c =
      if id ∈ s.drawn then (.notDrawn, s)
      else (.filed (file c.db T s id input c.now).1, (file c.db T s id input c.now).2) := by
    rw [perform, hop]
  by_cases hdrawn : id ∈ s.drawn
  · refine .inr ?_
    rw [hperform, if_pos hdrawn]
    exact ⟨rfl, nofun⟩
  · rw [if_neg hdrawn] at hperform
    by_cases hfiled : file c.db T s id input c.now =
        (.ok id, ⟨s.rows ++ [filedRow c.db T id input c.now], id :: s.drawn⟩) ∧
        duplicate s.rows (filedRow c.db T id input c.now).dedupKey
          (filedRow c.db T id input c.now).familyKey
          (c.now - APPROVAL_DEDUP_WINDOW_MS input.filing.kind) = none
    · refine .inl ⟨hop, hdrawn, hfiled.2, ?_, ?_⟩
      · rw [hperform, hfiled.1]
      · rw [hperform, hfiled.1]
    · refine .inr ?_
      have hrefused : (file c.db T s id input c.now).2 = s ∧
          (file c.db T s id input c.now).1 ≠ .ok id := by
        unfold file at hfiled ⊢
        split
        · exact ⟨rfl, nofun⟩
        · split
          · exact ⟨rfl, nofun⟩
          · split
            · exact ⟨rfl, nofun⟩
            · next horigin hbody hpayload =>
              dsimp only at hfiled ⊢
              rw [if_neg horigin, if_neg hbody, if_neg hpayload] at hfiled
              split
              · next refused hrefused =>
                refine ⟨rfl, fun h => ?_⟩
                obtain rfl : refused = .ok id := h
                exact duplicate_ne_ok hrefused
              · next hunique =>
                rw [hunique] at hfiled
                dsimp only at hfiled
                split
                · exact ⟨rfl, nofun⟩
                · next hflood =>
                  rw [if_neg hflood] at hfiled
                  exact absurd ⟨rfl, rfl⟩ hfiled
      rw [hperform]
      exact ⟨hrefused.1, fun h => hrefused.2 (Answer.filed.inj h)⟩

/-- A call files a row, or makes of every row what it can. -/
theorem perform_effect (hkeyed : Keyed s) (c : Call) :
    (∃ id input, Files T s c id input) ∨ ∃ f, Effect s (perform T s c).2 c f := by
  cases hop : c.op with
  | file id input =>
    rcases file_cases (T := T) (s := s) hop with hfiles | ⟨hsame, -⟩
    · exact .inl ⟨id, input, hfiles⟩
    · refine .inr ⟨some, ?_⟩
      rw [hsame]
      exact .unchanged s c
  | decide id action decidedBy =>
    refine .inr ?_
    rw [perform, hop]
    exact decide_effect hop hkeyed.nodup
  | hold id reason =>
    refine .inr ?_
    rw [perform, hop]
    exact ⟨_, update_effect fun r _ _ hp => .hold _ (of_decide_eq_true hp)⟩
  | holdKind kind =>
    refine .inr ?_
    rw [perform, hop]
    exact holdKind_effect kind
  | claim id cap =>
    refine .inr ?_
    rw [perform, hop]
    exact claim_effect hop hkeyed.nodup
  | finish id outcome result =>
    refine .inr ?_
    rw [perform, hop]
    exact finish_effect hop hkeyed.nodup
  | sweep input =>
    refine .inr ?_
    rw [perform, hop]
    exact sweep_effect hop

theorem keyed_perform (T : Texts) (hkeyed : Keyed s) (c : Call) : Keyed (perform T s c).2 := by
  rcases perform_effect (T := T) hkeyed c with ⟨id, input, hfiles⟩ | ⟨f, heffect⟩
  · rw [hfiles.store]
    refine ⟨?_, ?_⟩
    · rw [List.map_append, List.nodup_append]
      refine ⟨hkeyed.nodup, List.nodup_singleton _, ?_⟩
      intro a ha b hb
      obtain ⟨r, hr, rfl⟩ := List.mem_map.1 ha
      rintro rfl
      rw [List.map_singleton, List.mem_singleton] at hb
      have hid : r.id = id := hb
      exact hfiles.fresh (hid ▸ hkeyed.drawn r hr)
    · intro r hr
      rcases List.mem_append.1 hr with hr | hr
      · exact List.mem_cons_of_mem _ (hkeyed.drawn r hr)
      · rw [List.mem_singleton.1 hr]
        exact List.mem_cons_self
  · refine ⟨?_, ?_⟩
    · rw [heffect.rows]
      exact Table.nodup_filterMap hkeyed.nodup fun r hr r' h => (heffect.moved r hr r' h).same.id
    · intro r' hr'
      rw [heffect.rows] at hr'
      obtain ⟨r, hr, h⟩ := List.mem_filterMap.1 hr'
      rw [heffect.drawn, (heffect.moved r hr r' h).same.id]
      exact hkeyed.drawn r hr

/-- The row under an id, before a call and after it. -/
inductive Step (T : Texts) (s : Store) (c : Call) (id : JsString) : Option Row → Option Row → Prop
  | absent : Step T s c id none none
  | filed {input : FileApprovalInput} (h : Files T s c id input) :
      Step T s c id none (some (filedRow c.db T id input c.now))
  | moved {r r' : Row} (h : Moved s c r r') : Step T s c id (some r) (some r')
  | gone {r : Row} (h : Gone c r) : Step T s c id (some r) none

theorem step_find (T : Texts) (hkeyed : Keyed s) (c : Call) (id : JsString) :
    Step T s c id (s.find id) ((perform T s c).2.find id) := by
  rcases perform_effect (T := T) hkeyed c with ⟨id', input, hfiles⟩ | ⟨f, heffect⟩
  · have hfind : (perform T s c).2.find id =
        (s.find id).or (Table.find Row.id [filedRow c.db T id' input c.now] id) := by
      rw [hfiles.store]
      exact Table.find_append _ _
    rw [hfind]
    cases hr : s.find id with
    | some r => exact .moved (.stay r)
    | none =>
      by_cases hid : id' = id
      · subst hid
        have hnew : Table.find Row.id [filedRow c.db T id' input c.now] id' =
            some (filedRow c.db T id' input c.now) := by simp [Table.find, filedRow]
        rw [hnew]
        exact .filed hfiles
      · have hnew : Table.find Row.id [filedRow c.db T id' input c.now] id = none := by
          simp [Table.find, filedRow, hid]
        rw [hnew]
        exact .absent
  · have hfind : (perform T s c).2.find id = (s.find id).bind f := by
      unfold Store.find
      rw [heffect.rows]
      exact Table.find_filterMap hkeyed.nodup fun r hr r' h => (heffect.moved r hr r' h).same.id
    rw [hfind]
    cases hr : s.find id with
    | none => exact .absent
    | some r =>
      have hmem : r ∈ s.rows := Table.mem_of_find hr
      rw [Option.bind_some]
      cases hf : f r with
      | none => exact .gone (heffect.gone r hmem hf)
      | some r' => exact .moved (heffect.moved r hmem r' hf)

end Lynox.Approvals
