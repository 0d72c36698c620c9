import Lynox.Approvals.Moves

/-!
# Only what the owner saw is claimed

Over every run of the store : a claim that succeeds is of an entry the owner approved while it was
pending and had not expired, under a checksum that is the digest of what was filed
(`Approved`); it is claimed as often as it has attempts (`claims_le`); and what is
settled stays settled (`settled_after`).
-/

namespace Lynox.Approvals

open Text

variable {T : Texts} {s : Store} {c : Call} {r r' : Row} {id : JsString} {calls more : List Call}
  {e : ApprovalEntry}

/-! ## Runs -/

theorem after_concat (T : Texts) (calls : List Call) (c : Call) :
    after T (calls ++ [c]) = (perform T (after T calls) c).2 := by
  rw [after, Run.after_append]
  rfl

theorem keyed_after (T : Texts) (calls : List Call) : Keyed (after T calls) := by
  refine Run.invariant (I := Keyed) (fun s c h => ?_) keyed_empty
  exact keyed_perform T h c

/-- An id that was drawn stays drawn. -/
theorem drawn_perform (T : Texts) (hkeyed : Keyed s) (c : Call) (h : id ∈ s.drawn) :
    id ∈ (perform T s c).2.drawn := by
  rcases perform_effect (T := T) hkeyed c with ⟨id', input, hfiles⟩ | ⟨f, heffect⟩
  · rw [hfiles.store]
    exact List.mem_cons_of_mem _ h
  · rwa [heffect.drawn]

theorem drawn_of_find (hkeyed : Keyed s) (h : s.find id = some r) : id ∈ s.drawn :=
  Table.key_of_find h ▸ hkeyed.drawn r (Table.mem_of_find h)

/-! ## Answers -/

/-- A text is read as it was stored, or not at all. -/
theorem tryDec_enc (db db' : EngineDb) (text : JsString) :
    db'.tryDec (db.enc text) = some text ∨ db'.tryDec (db.enc text) = none := by
  unfold EngineDb.enc
  split
  · exact .inl rfl
  · split
    · exact .inl rfl
    · unfold EngineDb.tryDec
      dsimp only
      split
      · exact .inl rfl
      · exact .inr rfl

/-- An entry that was claimed, with what the claim checked. -/
structure Claims (T : Texts) (s : Store) (c : Call) (id : JsString) (r : Row) (e : ApprovalEntry) :
    Prop where
  found : s.find id = some r
  status : r.status = .approved
  live : c.now < r.expiresAt
  executable : (toEntry c.db r).executable = true
  entry : e = toEntry c.db (r.claim c.now)
  claimed : (perform T s c).2.find id = some (r.claim c.now)

theorem find_update {p : Row → Bool} {g : Row → Row} (hg : ∀ r, (g r).id = r.id)
    (h : s.find id = some r) (hp : p r = true) : (s.update id p g).2.find id = some (g r) := by
  have hmap : (s.update id p g).2.find id =
      (s.find id).map fun r => if r.id = id && p r then g r else r := by
    refine Table.find_map fun r => ?_
    split
    · exact hg r
    · rfl
  rw [hmap, h, Option.map_some, if_pos]
  rw [Bool.and_eq_true]
  exact ⟨decide_eq_true (Table.key_of_find h), hp⟩

theorem claims_of_answer {cap : Option ClaimCap} (hop : c.op = .claim id cap)
    (h : (perform T s c).1 = .claimed (.ok e)) : ∃ r, Claims T s c id r e := by
  have hperform : perform T s c =
      (.claimed (claim c.db s id c.now cap).1, (claim c.db s id c.now cap).2) := by
    rw [perform, hop]
  rw [hperform] at h
  have hclaim := Answer.claimed.inj h
  have hstore : (perform T s c).2 = (claim c.db s id c.now cap).2 := by rw [hperform]
  unfold claim at hclaim hstore
  cases hr : s.find id with
  | none =>
    rw [hr] at hclaim
    cases hclaim
  | some r =>
    rw [hr] at hclaim hstore
    dsimp only at hclaim hstore
    split at hclaim
    · cases hclaim
    · split at hclaim
      · cases hclaim
      · split at hclaim
        · cases hclaim
        · split at hclaim
          · cases hclaim
          · next happroved hlive hexec hcap =>
            rw [if_neg happroved, if_neg hlive, if_neg hexec, if_neg hcap] at hstore
            have hfind : (s.update id (·.status = .approved) (Row.claim c.now)).2.find id =
                some (r.claim c.now) :=
              find_update (fun _ => rfl) hr (decide_eq_true (not_not.1 happroved))
            split at hclaim
            · next htook =>
              rw [if_pos htook, hfind] at hstore
              rw [hfind] at hclaim
              refine ⟨r, hr, not_not.1 happroved, not_reached hlive, by simpa using hexec,
                (ClaimResult.ok.inj hclaim).symm, ?_⟩
              rw [hstore]
              exact hfind
            · cases hclaim

/-- An approval that meets its checks is answered so. -/
theorem decided_of_approve {checksum decidedBy : JsString}
    (hop : c.op = .decide id (.approve checksum) decidedBy) (hr : s.find id = some r)
    (hstatus : r.status = .pending) (hlive : c.now < r.expiresAt)
    (hexec : (toEntry c.db r).executable = true) (hshown : checksum = r.checksum)
    (hmatch : checksumMatches c.db s id = true) : (perform T s c).1 = .decided .ok := by
  have htook : (s.update id (fun r => r.status = .pending && r.checksum = checksum)
      (Row.approve decidedBy c.now)).1 = true := by
    refine List.any_eq_true.2 ⟨r, Table.mem_of_find hr, ?_⟩
    simp [Table.key_of_find hr, hstatus, hshown]
  have hdecide : (Store.decide c.db s id (.approve checksum) decidedBy c.now).1 = .ok := by
    unfold Store.decide
    rw [hr]
    dsimp only
    rw [if_neg (not_not.2 hstatus), if_neg (by simpa [reached] using hlive),
      if_neg (by simp [hexec]), if_neg (by simp [hshown, hmatch]), took, if_pos htook]
  rw [perform, hop]
  exact congrArg Answer.decided hdecide

/-! ## What was approved -/

/-- The call `filing` filed the entry `id`, after the calls before it. -/
structure Filed (T : Texts) (before : List Call) (filing : Call) (id : JsString)
    (input : FileApprovalInput) : Prop where
  op : filing.op = .file id input
  answer : (perform T (after T before) filing).1 = .filed (.ok id)

/-- The call `approval` approved the entry `id` under `checksum` while it was pending, after the calls
before it. -/
structure Approves (T : Texts) (before : List Call) (approval : Call) (id checksum : JsString) :
    Prop where
  op : ∃ decidedBy, approval.op = .decide id (.approve checksum) decidedBy
  answer : (perform T (after T before) approval).1 = .decided .ok
  pending : ∃ r, (after T before).find id = some r ∧ r.status = .pending

/-- A row is as it was filed, and its payload too as long as it may be sent. -/
structure AsFiled (T : Texts) (filing : Call) (input : FileApprovalInput) (r : Row) : Prop where
  same : Same (filedRow filing.db T r.id input filing.now) r
  payloadJson : r.status = .unknown ∨ r.status.active = false ∨
    r.payloadJson = filing.db.enc input.filing.payloadJson

/-- The owner approved what was filed, in time and under its digest. -/
def Seen (T : Texts) (calls : List Call) (r : Row) (filing : Call) (input : FileApprovalInput) :
    Prop :=
  ∃ before between approval rest,
    calls = before ++ filing :: (between ++ approval :: rest) ∧
      Filed T before filing r.id input ∧
      Approves T (before ++ filing :: between) approval r.id r.checksum ∧
      approval.now < r.expiresAt ∧
      r.checksum = checksumOf approval.db input.filing.kind input.filing.payloadJson
        input.origin.originJson

/-- Every row was filed, and what is approved or claimed was approved. -/
def Traced (T : Texts) (calls : List Call) (r : Row) : Prop :=
  ∃ filing input, AsFiled T filing input r ∧
    (∃ before rest, calls = before ++ filing :: rest ∧ Filed T before filing r.id input) ∧
    (r.status = .approved ∨ r.status = .executing → Seen T calls r filing input)

theorem AsFiled.moved {filing : Call} {input : FileApprovalInput} (h : AsFiled T filing input r)
    (hmoved : Moved s c r r') : AsFiled T filing input r' := by
  refine ⟨hmoved.same.id ▸ h.same.trans hmoved.same, ?_⟩
  have hpayload := h.payloadJson
  cases hmoved with
  | stay => exact hpayload
  | approve _ hstatus =>
    rw [hstatus] at hpayload
    exact .inr (.inr (hpayload.resolve_left (by decide) |>.resolve_left (by decide)))
  | hold _ hstatus => exact hpayload
  | claim _ hstatus =>
    rw [hstatus] at hpayload
    exact .inr (.inr (hpayload.resolve_left (by decide) |>.resolve_left (by decide)))
  | retry _ hstatus =>
    rw [hstatus] at hpayload
    exact .inr (.inr (hpayload.resolve_left (by decide) |>.resolve_left (by decide)))
  | reject => exact .inr (.inl rfl)
  | clear => exact .inr (.inl rfl)
  | @settle outcome =>
    cases outcome with
    | unknown => exact .inl rfl
    | done => exact .inr (.inl rfl)
    | failed => exact .inr (.inl rfl)
    | retry => exact .inr (.inl rfl)
  | expire => exact .inr (.inl rfl)
  | stale => exact .inl rfl
  | tombstone _ hstatus => exact .inl hstatus

/-- Which moves end in an entry that is approved or executing. -/
theorem Moved.armed (h : Moved s c r r') (harmed : r'.status = .approved ∨ r'.status = .executing) :
    (r.status = .approved ∨ r.status = .executing) ∨
      (r.status = .pending ∧ c.now < r.expiresAt ∧ (toEntry c.db r).executable = true ∧
        checksumMatches c.db s r.id = true ∧
        ∃ decidedBy, c.op = .decide r.id (.approve r.checksum) decidedBy) := by
  cases h with
  | stay => exact .inl harmed
  | approve hop hstatus hlive hexec hshown hmatch =>
    exact .inr ⟨hstatus, hlive, hexec, hmatch, _, hshown ▸ hop⟩
  | reject => simp [Row.reject] at harmed
  | clear => simp [Row.reject] at harmed
  | hold _ hstatus => exact .inl (.inl hstatus)
  | claim _ hstatus => exact .inl (.inl hstatus)
  | retry _ hstatus => exact .inl (.inr hstatus)
  | @settle outcome => cases outcome <;> simp [Row.settle, FinishOutcome.status] at harmed
  | expire => simp [Row.expire] at harmed
  | stale => simp [Row.stale] at harmed
  | tombstone _ hstatus => simp [Row.tombstone, hstatus] at harmed

theorem Seen.concat {filing : Call} {input : FileApprovalInput} (h : Seen T calls r filing input)
    (hid : r'.id = r.id) (hchecksum : r'.checksum = r.checksum) (hexpires : r'.expiresAt = r.expiresAt)
    (c : Call) : Seen T (calls ++ [c]) r' filing input := by
  obtain ⟨before, between, approval, rest, hcalls, hfiled, happroves, hlive, hdigest⟩ := h
  refine ⟨before, between, approval, rest ++ [c], ?_, hid ▸ hfiled, ?_, hexpires ▸ hlive,
    hchecksum.trans hdigest⟩
  · rw [hcalls]
    simp
  · rw [hid, hchecksum]
    exact happroves

/-- Every row of a run is as it was filed, and approved where its status says so. -/
theorem traced_after (T : Texts) (calls : List Call) :
    ∀ {id : JsString} {r : Row}, (after T calls).find id = some r → Traced T calls r := by
  induction calls using List.reverseRecOn with
  | nil =>
    intro id r h
    cases h
  | append_singleton calls c ih =>
    intro id r' hr'
    have hkeyed := keyed_after T calls
    have hstep := step_find T hkeyed c id
    rw [after_concat] at hr'
    rw [hr'] at hstep
    generalize ho : (after T calls).find id = o at hstep
    cases hstep with
    | filed hfiles =>
      refine ⟨c, _, ⟨.refl _, .inr (.inr rfl)⟩,
        ⟨calls, [], rfl, hfiles.op, hfiles.answer⟩, fun h => ?_⟩
      simp [filedRow] at h
    | @moved r _ hmoved =>
      obtain ⟨filing, input, hasFiled, ⟨before, rest, hcalls, hfiled⟩, hseen⟩ := ih ho
      have hsame := hmoved.same
      refine ⟨filing, input, hasFiled.moved hmoved, ⟨before, rest ++ [c], ?_, hsame.id ▸ hfiled⟩,
        fun harmed => ?_⟩
      · rw [hcalls]
        simp
      · rcases hmoved.armed harmed with hwas | ⟨hpending, hlive, hexec, hmatch, decidedBy, hop⟩
        · exact (hseen hwas).concat hsame.id hsame.checksum hsame.expiresAt c
        · have hid : r.id = id := Table.key_of_find ho
          have hfind : (after T calls).find r.id = some r := hid ▸ ho
          refine ⟨before, rest, c, [], ?_, hsame.id ▸ hfiled, ?_, hsame.expiresAt ▸ hlive, ?_⟩
          · rw [hcalls]
            simp
          · rw [← hcalls, hsame.id, hsame.checksum]
            exact ⟨⟨decidedBy, hop⟩,
              decided_of_approve hop hfind hpending hlive hexec rfl hmatch, r, hfind, hpending⟩
          · -- the digest was taken over the payload as it opens, which is the one filed
            have hpayload : r.payloadJson = filing.db.enc input.filing.payloadJson := by
              have h := hasFiled.payloadJson
              rw [hpending] at h
              exact h.resolve_left (by decide) |>.resolve_left (by decide)
            unfold checksumMatches at hmatch
            rw [hfind] at hmatch
            dsimp only at hmatch
            rw [hpayload] at hmatch
            rcases tryDec_enc filing.db c.db input.filing.payloadJson with hopen | hshut
            · rw [hopen] at hmatch
              have hdigest := of_decide_eq_true hmatch
              rw [hsame.checksum, ← hdigest, hasFiled.same.kind, hasFiled.same.originJson]
              rfl
            · rw [hshut] at hmatch
              cases hmatch

/-- A claim that succeeds is of an entry that was filed, and approved as it was filed. -/
structure SeenAndApproved (T : Texts) (calls : List Call) (c : Call) (id : JsString)
    (e : ApprovalEntry) (before between : List Call) (filing approval : Call)
    (input : FileApprovalInput) : Prop where
  order : ∃ rest, calls = before ++ filing :: (between ++ approval :: rest)
  filed : Filed T before filing id input
  approves : Approves T (before ++ filing :: between) approval id e.row.checksum
  approvedInTime : approval.now < filing.now + APPROVAL_TTL_MS
  claimedInTime : c.now < filing.now + APPROVAL_TTL_MS
  digest : e.row.checksum = approval.db.keyedHash [utf16 "approval-entry-v1", input.filing.kind.text,
    input.filing.payloadJson, input.origin.originJson]
  kind : e.row.kind = input.filing.kind
  readsFiling : e.filing = readFiling input.filing.kind (some input.filing.payloadJson)
  readsOrigin : e.origin = readOrigin input.origin.originJson

theorem claim_seen {cap : Option ClaimCap} (hop : c.op = .claim id cap)
    (h : (perform T (after T calls) c).1 = .claimed (.ok e)) :
    ∃ before between filing approval input,
      SeenAndApproved T calls c id e before between filing approval input := by
  obtain ⟨r, hclaims⟩ := claims_of_answer hop h
  obtain ⟨filing, input, hasFiled, -, hseen⟩ := traced_after T calls hclaims.found
  obtain ⟨before, between, approval, rest, hcalls, hfiled, happroves, hlive, hdigest⟩ :=
    hseen (.inl hclaims.status)
  have hid : r.id = id := Table.key_of_find hclaims.found
  have hpayload : r.payloadJson = filing.db.enc input.filing.payloadJson := by
    have h := hasFiled.payloadJson
    rw [hclaims.status] at h
    exact h.resolve_left (by decide) |>.resolve_left (by decide)
  have hopen : c.db.tryDec r.payloadJson = some input.filing.payloadJson := by
    have hexec := hclaims.executable
    rw [hpayload]
    rcases tryDec_enc filing.db c.db input.filing.payloadJson with hopen | hshut
    · exact hopen
    · have hnone : readFiling r.kind none = none := rfl
      rw [ApprovalEntry.executable, toEntry, hpayload, hshut, hnone] at hexec
      exact nomatch hexec
  subst hid
  have hentry := hclaims.entry
  subst hentry
  refine ⟨before, between, filing, approval, input, ⟨⟨rest, hcalls⟩, hfiled, happroves, ?_, ?_,
    hdigest, hasFiled.same.kind, ?_, ?_⟩⟩
  · exact hlive.trans_eq hasFiled.same.expiresAt
  · exact hclaims.live.trans_eq hasFiled.same.expiresAt
  · show readFiling r.kind (c.db.tryDec r.payloadJson) = _
    rw [hopen, hasFiled.same.kind]
    rfl
  · show readOrigin r.originJson = _
    rw [hasFiled.same.originJson]
    rfl

/-! ## How often -/

/-- An answer claims the entry. -/
def Answer.claims (id : JsString) : Answer → Bool
  | .claimed (.ok e) => e.row.id = id
  | _ => false

/-- How often an entry was claimed. -/
def claimCount (T : Texts) (id : JsString) : Store → List Call → Nat
  | _, [] => 0
  | s, c :: calls =>
    ((perform T s c).1.claims id).toNat + claimCount T id (perform T s c).2 calls

theorem claimCount_concat (T : Texts) (id : JsString) (c : Call) :
    ∀ (calls : List Call) (s : Store), claimCount T id s (calls ++ [c]) =
      claimCount T id s calls +
        ((perform T (Run.after (fun s c => (perform T s c).2) s calls) c).1.claims id).toNat
  | [], s => by simp [claimCount]
  | c' :: calls, s => by
    rw [List.cons_append, claimCount, claimCount, claimCount_concat T id c calls, Run.after_cons]
    omega

/-- A claim that succeeds moves its row. -/
theorem claims_spec (h : (perform T s c).1.claims id = true) : ∃ r e, Claims T s c id r e := by
  cases hanswer : (perform T s c).1 with
  | claimed result =>
    rw [hanswer] at h
    cases result with
    | ok e =>
      have hid : e.row.id = id := of_decide_eq_true h
      cases hop : c.op with
      | claim id' cap =>
        obtain ⟨r, hclaims⟩ := claims_of_answer hop hanswer
        have hrow : e.row.id = r.id := congrArg (fun e => e.row.id) hclaims.entry
        obtain rfl : id' = id := (Table.key_of_find hclaims.found).symm.trans (hrow.symm.trans hid)
        exact ⟨r, e, hclaims⟩
      | file id' input =>
        rw [perform, hop] at hanswer
        dsimp only at hanswer
        split at hanswer <;> cases hanswer
      | _ =>
        rw [perform, hop] at hanswer
        cases hanswer
    | _ => cases h
  | _ =>
    rw [hanswer] at h
    cases h

/-- An entry was claimed no more often than it has attempts; one that waits for a claim has one left. -/
def Bounded (id : JsString) (count : Nat) (s : Store) : Prop :=
  match s.find id with
  | none => count ≤ APPROVAL_MAX_ATTEMPTS ∧ (id ∉ s.drawn → count = 0)
  | some r => count ≤ r.attempts ∧ r.attempts ≤ APPROVAL_MAX_ATTEMPTS ∧
    (r.status = .pending ∨ r.status = .approved → r.attempts < APPROVAL_MAX_ATTEMPTS)

theorem Moved.attempts (h : Moved s c r r')
    (hbound : r.attempts ≤ APPROVAL_MAX_ATTEMPTS ∧
      (r.status = .pending ∨ r.status = .approved → r.attempts < APPROVAL_MAX_ATTEMPTS)) :
    r.attempts ≤ r'.attempts ∧ r'.attempts ≤ APPROVAL_MAX_ATTEMPTS ∧
      (r'.status = .pending ∨ r'.status = .approved → r'.attempts < APPROVAL_MAX_ATTEMPTS) := by
  cases h with
  | stay => exact ⟨le_rfl, hbound⟩
  | approve _ hstatus => exact ⟨le_rfl, hbound.1, fun _ => hbound.2 (.inl hstatus)⟩
  | hold _ hstatus => exact ⟨le_rfl, hbound⟩
  | claim _ hstatus =>
    have hlt := hbound.2 (.inr hstatus)
    exact ⟨Nat.le_succ _, hlt, by simp [Row.claim]⟩
  | retry _ _ hattempts => exact ⟨le_rfl, hbound.1, fun _ => hattempts⟩
  | reject => exact ⟨le_rfl, hbound.1, by simp [Row.reject]⟩
  | clear => exact ⟨le_rfl, hbound.1, by simp [Row.reject]⟩
  | @settle outcome => cases outcome <;> exact
      ⟨le_rfl, hbound.1, by simp [Row.settle, FinishOutcome.status]⟩
  | expire => exact ⟨le_rfl, hbound.1, by simp [Row.expire]⟩
  | stale => exact ⟨le_rfl, hbound.1, by simp [Row.stale]⟩
  | tombstone _ hstatus => exact ⟨le_rfl, hbound.1, by simp [Row.tombstone, hstatus]⟩

theorem bounded_perform (T : Texts) (hkeyed : Keyed s) (c : Call) {count : Nat}
    (h : Bounded id count s) :
    Bounded id (count + ((perform T s c).1.claims id).toNat) (perform T s c).2 := by
  have hstep := step_find T hkeyed c id
  unfold Bounded at h ⊢
  cases hclaims : (perform T s c).1.claims id with
  | true =>
    obtain ⟨r, e, hclaim⟩ := claims_spec hclaims
    rw [hclaim.found] at h
    rw [hclaim.claimed]
    have hlt := h.2.2 (.inr hclaim.status)
    exact ⟨Nat.succ_le_succ h.1, hlt, by simp [Row.claim]⟩
  | false =>
    show match (perform T s c).2.find id with
      | none => count ≤ _ ∧ (id ∉ (perform T s c).2.drawn → count = 0)
      | some r => count ≤ r.attempts ∧ _
    generalize ho : s.find id = o at hstep h
    generalize (perform T s c).2.find id = o' at hstep
    cases hstep with
    | absent => exact ⟨h.1, fun hdrawn => h.2 fun hwas => hdrawn (drawn_perform T hkeyed c hwas)⟩
    | filed hfiles =>
      have hzero := h.2 hfiles.fresh
      exact ⟨hzero.le, Nat.zero_le _, fun _ => by simp [filedRow, APPROVAL_MAX_ATTEMPTS]⟩
    | moved hmoved =>
      obtain ⟨hle, hbound⟩ := hmoved.attempts h.2
      exact ⟨h.1.trans hle, hbound⟩
    | gone =>
      exact ⟨h.1.trans h.2.1, fun hdrawn =>
        absurd (drawn_perform T hkeyed c (drawn_of_find hkeyed ho)) hdrawn⟩

theorem claims_le (T : Texts) (calls : List Call) (id : JsString) :
    claimCount T id Store.empty calls ≤ APPROVAL_MAX_ATTEMPTS := by
  have hbounded : Bounded id (claimCount T id Store.empty calls) (after T calls) := by
    induction calls using List.reverseRecOn with
    | nil => exact ⟨Nat.zero_le _, fun _ => rfl⟩
    | append_singleton calls c ih =>
      rw [claimCount_concat, after_concat]
      exact bounded_perform T (keyed_after T calls) c ih
  unfold Bounded at hbounded
  split at hbounded
  · exact hbounded.1
  · exact hbounded.1.trans hbounded.2.1

/-! ## What is settled -/

def ApprovalStatus.settled : ApprovalStatus → Bool
  | done | failed | rejected | expired => true
  | pending | approved | executing | unknown => false

theorem Moved.of_settled (h : Moved s c r r') (hsettled : r.status.settled = true) : r' = r := by
  have hnot : ∀ status : ApprovalStatus, status.settled = false → r.status ≠ status :=
    fun status h heq => by simp [heq, h] at hsettled
  cases h with
  | stay => rfl
  | approve _ hstatus | reject _ hstatus | claim _ hstatus | retry _ hstatus | settle _ hstatus
  | stale _ hstatus | clear _ hstatus | hold _ hstatus | tombstone _ hstatus =>
    exact absurd hstatus (hnot _ rfl)
  | expire _ hstatus => exact hstatus.elim (absurd · (hnot _ rfl)) (absurd · (hnot _ rfl))

theorem Moved.unknown (h : Moved s c r r') (hunknown : r.status = .unknown) :
    r'.status = .unknown ∨
      (r'.status = .rejected ∧ ∃ decidedBy, c.op = .decide r.id .clearUnknown decidedBy) := by
  cases h with
  | stay | hold | tombstone => exact .inl hunknown
  | clear hop => exact .inr ⟨rfl, _, hop⟩
  | approve _ hstatus | reject _ hstatus | claim _ hstatus | retry _ hstatus | settle _ hstatus
  | stale _ hstatus =>
    exact absurd (hunknown.symm.trans hstatus) (by decide)
  | expire _ hstatus =>
    rw [hunknown] at hstatus
    exact absurd hstatus (by decide)

/-- An id that was drawn and has no row gets none. -/
theorem find_none (T : Texts) : ∀ (more : List Call) {s : Store}, Keyed s → id ∈ s.drawn →
    s.find id = none → (Run.after (fun s c => (perform T s c).2) s more).find id = none
  | [], _, _, _, h => h
  | c :: more, s, hkeyed, hdrawn, h => by
    have hstep := step_find T hkeyed c id
    rw [h] at hstep
    refine find_none T more (keyed_perform T hkeyed c) (drawn_perform T hkeyed c hdrawn) ?_
    generalize (perform T s c).2.find id = o' at hstep
    cases hstep with
    | absent => rfl
    | filed hfiles => exact absurd hdrawn hfiles.fresh

/-- What is settled stays settled, and what is unknown stays so until the owner clears it. -/
theorem settled_after (T : Texts) : ∀ (more : List Call) {s : Store} {r r' : Row}, Keyed s →
    s.find id = some r →
    (Run.after (fun s c => (perform T s c).2) s more).find id = some r' →
    (r.status.settled = true → r'.status = r.status) ∧
      (r.status = .unknown → r'.status = .unknown ∨ (r'.status = .rejected ∧
        ∃ c ∈ more, ∃ decidedBy, c.op = .decide id .clearUnknown decidedBy))
  | [], s, r, r', _, h, h' => by
    obtain rfl := Option.some.inj (h.symm.trans h')
    exact ⟨fun _ => rfl, .inl⟩
  | c :: more, s, r, r', hkeyed, h, h' => by
    have hstep := step_find T hkeyed c id
    rw [h] at hstep
    generalize ho : (perform T s c).2.find id = o' at hstep
    cases hstep with
    | gone =>
      have hnone := find_none T more (keyed_perform T hkeyed c)
        (drawn_perform T hkeyed c (drawn_of_find hkeyed h)) ho
      exact nomatch hnone.symm.trans h'
    | @moved _ r₁ hmoved =>
      obtain ⟨hsettled, hunknown⟩ := settled_after T more (keyed_perform T hkeyed c) ho h'
      refine ⟨fun hs => ?_, fun hu => ?_⟩
      · have hone := congrArg Row.status (hmoved.of_settled hs)
        exact (hsettled (hone ▸ hs)).trans hone
      · rcases hmoved.unknown hu with hone | ⟨hone, decidedBy, hop⟩
        · rcases hunknown hone with hlast | ⟨hlast, c', hc', hop⟩
          · exact .inl hlast
          · exact .inr ⟨hlast, c', List.mem_cons_of_mem c hc', hop⟩
        · refine .inr ⟨(hsettled (hone ▸ rfl)).trans hone, c, List.mem_cons_self, decidedBy, ?_⟩
          rw [hop, Table.key_of_find h]

/-- Over every run, a claim is of what the owner saw and approved in time, no entry is claimed more
often than attempts are allowed, and what is settled stays settled. -/
theorem only_what_was_seen_is_claimed (T : Texts) (calls : List Call) :
    (∀ c id cap e, c.op = .claim id cap → (perform T (after T calls) c).1 = .claimed (.ok e) →
      ∃ before between filing approval input,
        SeenAndApproved T calls c id e before between filing approval input) ∧
    (∀ id, claimCount T id Store.empty calls ≤ APPROVAL_MAX_ATTEMPTS) ∧
    (∀ more id r r', (after T calls).find id = some r → (after T (calls ++ more)).find id = some r' →
      (r.status.settled = true → r'.status = r.status) ∧
      (r.status = .unknown → r'.status = .unknown ∨ (r'.status = .rejected ∧
        ∃ c ∈ more, ∃ decidedBy, c.op = .decide id .clearUnknown decidedBy))) := by
  refine ⟨fun c id cap e hop h => claim_seen hop h, claims_le T calls, fun more id r r' h h' => ?_⟩
  rw [after, Run.after_append] at h'
  exact settled_after T more (keyed_after T calls) h h'

/-! ## A run -/

/-- A reply that a workflow wanted to send. -/
def sampleInput : FileApprovalInput :=
  { filing := .mailReply
      { accountId := utf16 "a"
        fromAddress := utf16 "me@x.ch"
        toAddr := [⟨none, utf16 "you@y.ch"⟩]
        cc := []
        subject := utf16 "Re: Hi"
        bodyText := utf16 "Yes."
        inReplyTo := none
        references := none
        originalThreadKey := utf16 "t"
        originalMessageId := some (utf16 "m1")
        originalFolderUid := utf16 "INBOX:1"
        readAccountId := none
        original := ⟨utf16 "you@y.ch", [utf16 "me@x.ch"], [], none, utf16 "Hi", utf16 "2026-08-01"⟩
        persona := none }
    origin := ⟨utf16 "workflow", utf16 "tr", utf16 "r", utf16 "r", none, none, none⟩
    createdBy := none
    mandateId := none
    maxPendingPerTrigger := none }

def sampleTexts : Texts :=
  ⟨fun s => s, fun _ => []⟩

def sampleChecksum : JsString :=
  utf16 "30a485af1ebfa181028f535a77b3eab12641916b678cf9aa9c916ce516077b34"

/-- An engine without a vault key, with the sha256 of the sample's checksum and of its key. -/
def sampleDb : EngineDb :=
  { vaultKey := none
    digest := fun _ parts =>
      if parts.head? = some (utf16 "approval-entry-v1") then sampleChecksum
      else utf16 "5ff1df9809fbe37276025f736a21e5b8322f22537aee66e1989d5b2152a70d6c" }

/-- The reply is filed, and the owner approves it. -/
def sampleCalls : List Call :=
  [⟨.file (utf16 "e1") sampleInput, 1000, sampleDb⟩,
    ⟨.decide (utf16 "e1") (.approve sampleChecksum) (utf16 "owner"), 2000, sampleDb⟩]

def sampleClaim : Call :=
  ⟨.claim (utf16 "e1") none, 3000, sampleDb⟩

theorem sample_is_claimed : ∃ e, (perform sampleTexts (after sampleTexts sampleCalls) sampleClaim).1 =
      .claimed (.ok e) ∧ ∃ before between filing approval input,
        SeenAndApproved sampleTexts sampleCalls sampleClaim (utf16 "e1") e before between filing
          approval input := by
  have hclaims : (perform sampleTexts (after sampleTexts sampleCalls) sampleClaim).1.claims
      (utf16 "e1") = true := by decide +kernel
  obtain ⟨e, he⟩ : ∃ e, (perform sampleTexts (after sampleTexts sampleCalls) sampleClaim).1 =
      .claimed (.ok e) := by
    generalize (perform sampleTexts (after sampleTexts sampleCalls) sampleClaim).1 = answer at hclaims
    match answer, hclaims with
    | .claimed (.ok e), _ => exact ⟨e, rfl⟩
  exact ⟨e, he, (only_what_was_seen_is_claimed sampleTexts sampleCalls).1 sampleClaim (utf16 "e1")
    none e rfl he⟩

end Lynox.Approvals
