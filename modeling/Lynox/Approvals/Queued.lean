import Lynox.Approvals.Claimed
import Lynox.Data.Assoc

/-!
# No mail is queued twice

Two filings are of the same mail where `SameMail` says so, and then they meet under one stored key
(`sameKeys_of_sameMail`). An open row of a key is the only one (`Unique`, `unique_after`); a settled row
stays until its time to go (`settled_stays`), and a row of unknown outcome whose keys are keyed until
the owner clears it (`unknown_stays`). A filing that meets such a row is refused
(`not_filed_of_active`, `not_filed_of_ended`).
-/

namespace Lynox.Approvals

open Text

variable {T : Texts} {s : Store} {c : Call} {r r' : Row} {id : JsString} {calls more : List Call}
  {db : EngineDb}

/-! ## The same mail -/

/-- The addresses a mail goes to, in lower case and without blanks around them. -/
def MailSendPayload.addressees (T : Texts) (p : MailSendPayload) : List JsString :=
  ([p.toAddr, p.cc, p.bcc].flatten).map fun a => trim (T.toLowerCase a.address)

/-- Replies to one message from one account, or mails from one account to the same addresses under the
same subject. -/
def SameMail (T : Texts) : ApprovalFiling → ApprovalFiling → Prop
  | .mailReply p, .mailReply p' => p.accountId = p'.accountId ∧ p.message = p'.message
  | .mailSend p, .mailSend p' => p.accountId = p'.accountId ∧
    (∀ a, a ∈ p.addressees T ↔ a ∈ p'.addressees T) ∧
    comparableSubject T p.subject = comparableSubject T p'.subject
  | _, _ => False

/-- A list does not matter for its set in order, only its elements do. -/
theorem sorted_set_eq {xs ys : List JsString} (h : ∀ a, a ∈ xs ↔ a ∈ ys) :
    xs.eraseDups.mergeSort (fun s t => decide (s ≤ t)) =
      ys.eraseDups.mergeSort (fun s t => decide (s ≤ t)) := by
  have hsorted : ∀ l : List JsString,
      (l.mergeSort fun s t => decide (s ≤ t)).Pairwise fun s t => decide (s ≤ t) = true := by
    refine List.pairwise_mergeSort (fun s t u hst htu => ?_) fun s t => ?_
    · exact decide_eq_true (List.le_trans (of_decide_eq_true hst) (of_decide_eq_true htu))
    · simpa using List.le_total s t
  refine List.Perm.eq_of_pairwise (fun s t _ _ hst hts => ?_) (hsorted _) (hsorted _) ?_
  · exact List.le_antisymm (of_decide_eq_true hst) (of_decide_eq_true hts)
  · refine (List.mergeSort_perm _ _).trans (.trans ?_ (List.mergeSort_perm _ _).symm)
    refine (List.perm_ext_iff_of_nodup (Assoc.nodup_eraseDups xs) (Assoc.nodup_eraseDups ys)).2 ?_
    intro a
    rw [List.mem_eraseDups, List.mem_eraseDups]
    exact h a

theorem recipients_eq {p p' : MailSendPayload}
    (h : ∀ a, a ∈ p.addressees T ↔ a ∈ p'.addressees T) : p.recipients T = p'.recipients T :=
  sorted_set_eq h

/-- Rows that a filing of either meets. -/
def SameKeys (r r' : Row) : Prop :=
  r.kind = r'.kind ∧ (r.familyKey = none → r.dedupKey = r'.dedupKey) ∧ r.familyKey = r'.familyKey

/-- Filings of the same mail have the same stored keys under one vault key. -/
theorem sameKeys_of_sameMail {id id' : JsString} {input input' : FileApprovalInput} {now now' : Time}
    (h : SameMail T input.filing input'.filing) :
    SameKeys (filedRow db T id input now) (filedRow db T id' input' now') := by
  unfold SameKeys filedRow
  dsimp only
  cases hf : input.filing with
  | mailReply p =>
    cases hf' : input'.filing with
    | mailReply p' =>
      rw [hf, hf'] at h
      obtain ⟨haccount, hmessage⟩ := h
      refine ⟨rfl, fun _ => ?_, rfl⟩
      rw [approvalKeys, approvalKeys, haccount, hmessage]
    | mailSend p' =>
      rw [hf, hf'] at h
      exact h.elim
  | mailSend p =>
    cases hf' : input'.filing with
    | mailReply p' =>
      rw [hf, hf'] at h
      exact h.elim
    | mailSend p' =>
      rw [hf, hf'] at h
      obtain ⟨haccount, haddresses, hsubject⟩ := h
      refine ⟨rfl, fun hnone => (nomatch hnone), ?_⟩
      rw [approvalKeys, approvalKeys, haccount, hsubject, recipients_eq haddresses]

theorem SameKeys.same {r₀ : Row} (h : SameKeys r r₀) (hsame : Same r₀ r') : SameKeys r r' :=
  ⟨h.1.trans hsame.kind.symm, fun hnone => (h.2.1 hnone).trans hsame.dedupKey.symm,
    h.2.2.trans hsame.familyKey.symm⟩

/-! ## What refuses a filing -/

theorem firstBy_ne_none {better : Row → Row → Bool} {rows : List Row} (h : r ∈ rows) :
    firstBy better rows ≠ none := by
  unfold firstBy
  cases rows with
  | nil => cases h
  | cons r₀ rows =>
    rw [List.foldl_cons]
    refine List.foldlRecOn (motive := (· ≠ none)) rows _ (Option.some_ne_none r₀) fun best hbest r _ => ?_
    cases best with
    | none => exact absurd rfl hbest
    | some b =>
      dsimp only
      split
      · exact Option.some_ne_none r
      · exact Option.some_ne_none b

/-- What has not a single duplicate : no open row of its keys, and none that ended of late. -/
structure Alone (rows : List Row) (row : Row) (windowStart : Time) : Prop where
  dedup : ∀ r ∈ rows, r.dedupKey = row.dedupKey → r.status.active = false
  family : ∀ r ∈ rows, ∀ key, row.familyKey = some key → r.familyKey = some key →
    r.status.active = false
  ended : ∀ r ∈ rows, SameKeys row r → endedSince windowStart r = false

theorem alone_of_duplicate {rows : List Row} {row : Row} {windowStart : Time}
    (h : duplicate rows row.dedupKey row.familyKey windowStart = none) :
    Alone rows row windowStart := by
  unfold duplicate at h
  cases hactive : rows.find? fun r => r.dedupKey = row.dedupKey && r.status.active with
  | some r =>
    rw [hactive] at h
    exact nomatch h
  | none =>
    rw [hactive] at h
    dsimp only at h
    have hdedup : ∀ r ∈ rows, r.dedupKey = row.dedupKey → r.status.active = false := by
      intro r hr hkey
      have hnot := List.find?_eq_none.1 hactive r hr
      simpa [hkey] using hnot
    cases hfamily : row.familyKey with
    | none =>
      rw [hfamily] at h
      dsimp only at h
      refine ⟨hdedup, fun r _ key hkey => absurd (hfamily.symm.trans hkey) nofun,
        fun r hr hsame => ?_⟩
      by_contra hended
      rw [Bool.not_eq_false] at hended
      have hkey : r.dedupKey = row.dedupKey := (hsame.2.1 hfamily).symm
      exact firstBy_ne_none (List.mem_filter.2 ⟨hr, by simp [hkey, hended]⟩)
        (Option.map_eq_none_iff.1 h)
    | some key =>
      rw [hfamily] at h
      dsimp only at h
      split at h
      · exact nomatch h
      · next hnone =>
        refine ⟨hdedup, fun r hr key' hkey' hrkey => ?_, fun r hr hsame => ?_⟩
        · obtain rfl := Option.some.inj (hfamily.symm.trans hkey')
          by_contra hactive
          rw [Bool.not_eq_false] at hactive
          exact firstBy_ne_none (List.mem_filter.2 ⟨hr, by simp [hrkey, hactive]⟩) hnone
        · by_contra hended
          rw [Bool.not_eq_false] at hended
          have hkey : r.familyKey = some key := hsame.2.2.symm.trans hfamily
          exact firstBy_ne_none (List.mem_filter.2 ⟨hr, by simp [hkey, hended]⟩)
            (Option.map_eq_none_iff.1 h)

/-- A filing of mail that an open row holds is refused. -/
theorem not_filed_of_active {input : FileApprovalInput} (hr : r ∈ s.rows)
    (hactive : r.status.active = true) (hsame : SameKeys (filedRow c.db T id input c.now) r) :
    ¬ Files T s c id input := by
  intro hfiles
  have halone := alone_of_duplicate hfiles.unique
  cases hfamily : (filedRow c.db T id input c.now).familyKey with
  | none =>
    have hfalse := halone.dedup r hr (hsame.2.1 hfamily).symm
    rw [hactive] at hfalse
    exact nomatch hfalse
  | some key =>
    have hfalse := halone.family r hr key hfamily (hsame.2.2.symm.trans hfamily)
    rw [hactive] at hfalse
    exact nomatch hfalse

/-- A filing of mail that ended of late is refused. -/
theorem not_filed_of_ended {input : FileApprovalInput} (hr : r ∈ s.rows)
    (hended : endedSince (c.now - APPROVAL_DEDUP_WINDOW_MS input.filing.kind) r = true)
    (hsame : SameKeys (filedRow c.db T id input c.now) r) : ¬ Files T s c id input := by
  intro hfiles
  have hfalse := (alone_of_duplicate hfiles.unique).ended r hr hsame
  rw [hended] at hfalse
  exact nomatch hfalse

theorem files_of_answer {input : FileApprovalInput} (hop : c.op = .file id input)
    (h : (perform T s c).1 = .filed (.ok id)) : Files T s c id input :=
  (file_cases hop).resolve_right fun hnot => hnot.2 h

/-! ## One open row -/

theorem Moved.active (h : Moved s c r r') (hactive : r'.status.active = true) :
    r.status.active = true := by
  have hopen : ∀ status : ApprovalStatus, status.active = true → r.status = status →
      r.status.active = true := fun _ h heq => heq ▸ h
  cases h with
  | stay | hold => exact hactive
  | approve _ hstatus | claim _ hstatus | retry _ hstatus | settle _ hstatus | reject _ hstatus
  | stale _ hstatus | tombstone _ hstatus | clear _ hstatus => exact hopen _ rfl hstatus
  | expire _ hstatus => exact hstatus.elim (hopen _ rfl) (hopen _ rfl)

/-- Rows that meet under a stored key. -/
def Meet (r r' : Row) : Prop :=
  r.dedupKey = r'.dedupKey ∨ ∃ key, r.familyKey = some key ∧ r'.familyKey = some key

theorem Meet.symm (h : Meet r r') : Meet r' r :=
  h.imp Eq.symm fun ⟨key, hkey, hkey'⟩ => ⟨key, hkey', hkey⟩

theorem meet_of_sameKeys (h : SameKeys r r') : Meet r r' := by
  cases hfamily : r.familyKey with
  | none => exact .inl (h.2.1 hfamily)
  | some key => exact .inr ⟨key, hfamily, h.2.2.symm.trans hfamily⟩

theorem Meet.same {r₁ r₁' : Row} (h : Meet r r') (hr : Same r₁ r) (hr' : Same r₁' r') :
    Meet r₁ r₁' :=
  h.imp (fun h => hr.dedupKey.symm.trans (h.trans hr'.dedupKey))
    fun ⟨key, hkey, hkey'⟩ => ⟨key, hr.familyKey.symm.trans hkey, hr'.familyKey.symm.trans hkey'⟩

/-- Two open rows do not meet. -/
def Unique (s : Store) : Prop :=
  ∀ id id' r r', s.find id = some r → s.find id' = some r' → r.status.active = true →
    r'.status.active = true → Meet r r' → id = id'

theorem Files.not_meet {input : FileApprovalInput} (h : Files T s c id input) (hr : r ∈ s.rows)
    (hactive : r.status.active = true) : ¬ Meet (filedRow c.db T id input c.now) r := by
  have halone := alone_of_duplicate h.unique
  rintro (hkey | ⟨key, hkey, hkey'⟩)
  · have hfalse := halone.dedup r hr hkey.symm
    rw [hactive] at hfalse
    exact nomatch hfalse
  · have hfalse := halone.family r hr key hkey hkey'
    rw [hactive] at hfalse
    exact nomatch hfalse

theorem unique_perform (T : Texts) (hkeyed : Keyed s) (h : Unique s) (c : Call) :
    Unique (perform T s c).2 := by
  intro id id' r r' hr hr' hactive hactive' hmeet
  have hstep := step_find T hkeyed c id
  have hstep' := step_find T hkeyed c id'
  rw [hr] at hstep
  rw [hr'] at hstep'
  generalize ho : s.find id = o at hstep
  generalize ho' : s.find id' = o' at hstep'
  cases hstep with
  | filed hfiles =>
    cases hstep' with
    | filed hfiles' =>
      have hop := hfiles.op.symm.trans hfiles'.op
      exact (Op.file.inj hop).1
    | moved hmoved' =>
      exact absurd (hmeet.same (.refl _) hmoved'.same)
        (hfiles.not_meet (Table.mem_of_find ho') (hmoved'.active hactive'))
  | moved hmoved =>
    cases hstep' with
    | filed hfiles' =>
      exact absurd (hmeet.symm.same (.refl _) hmoved.same)
        (hfiles'.not_meet (Table.mem_of_find ho) (hmoved.active hactive))
    | moved hmoved' =>
      exact h id id' _ _ ho ho' (hmoved.active hactive) (hmoved'.active hactive')
        (hmeet.same hmoved.same hmoved'.same)

theorem unique_after (T : Texts) (calls : List Call) : Unique (after T calls) := by
  have hinv : Keyed (after T calls) ∧ Unique (after T calls) := by
    refine Run.invariant (I := fun s => Keyed s ∧ Unique s) (fun s c h => ?_)
      ⟨keyed_empty, fun _ _ _ _ h => nomatch h⟩
    exact ⟨keyed_perform T h.1 c, unique_perform T h.1 h.2 c⟩
  exact hinv.2

/-! ## Rows that stay -/

/-- What every move of a row keeps holds of the row as long as it is there. -/
theorem row_after (T : Texts) {P : Row → Prop} : ∀ (more : List Call) {s : Store} {r r' : Row},
    (∀ c ∈ more, ∀ s r r', Moved s c r r' → P r → P r') → Keyed s → s.find id = some r → P r →
    (Run.after (fun s c => (perform T s c).2) s more).find id = some r' → P r'
  | [], s, r, r', _, _, h, hP, h' => Option.some.inj (h.symm.trans h') ▸ hP
  | c :: more, s, r, r', hP, hkeyed, h, hr, h' => by
    have hstep := step_find T hkeyed c id
    rw [h] at hstep
    generalize ho : (perform T s c).2.find id = o' at hstep
    cases hstep with
    | gone =>
      have hnone := find_none T more (keyed_perform T hkeyed c)
        (drawn_perform T hkeyed c (drawn_of_find hkeyed h)) ho
      exact nomatch hnone.symm.trans h'
    | moved hmoved =>
      exact row_after T more (fun c' hc' => hP c' (List.mem_cons_of_mem c hc'))
        (keyed_perform T hkeyed c) ho (hP c List.mem_cons_self s _ _ hmoved hr) h'

/-- A row that every call keeps, and none takes away, stays. -/
theorem stays (T : Texts) {P : Row → Prop} : ∀ (more : List Call) {s : Store} {r : Row},
    (∀ c ∈ more, ∀ s r r', Moved s c r r' → P r → P r') →
    (∀ c ∈ more, ∀ r, P r → r.id = id → ¬ Gone c r) → Keyed s → s.find id = some r → P r →
    ∃ r', (Run.after (fun s c => (perform T s c).2) s more).find id = some r' ∧ P r'
  | [], _, r, _, _, _, h, hr => ⟨r, h, hr⟩
  | c :: more, s, r, hmoved, hgone, hkeyed, h, hr => by
    have hstep := step_find T hkeyed c id
    rw [h] at hstep
    generalize ho : (perform T s c).2.find id = o' at hstep
    cases hstep with
    | gone hg => exact absurd hg (hgone c List.mem_cons_self r hr (Table.key_of_find h))
    | moved hm =>
      exact stays T more (fun c' hc' => hmoved c' (List.mem_cons_of_mem c hc'))
        (fun c' hc' => hgone c' (List.mem_cons_of_mem c hc')) (keyed_perform T hkeyed c) ho
        (hmoved c List.mem_cons_self s _ _ hm hr)

/-- A settled row stays as it is until its time to go. -/
theorem settled_stays (T : Texts) {due : Time} (hkeyed : Keyed s) (h : s.find id = some r)
    (hsettled : r.status.settled = true) (hdue : r.purgeAfter = some due)
    (hbefore : ∀ c ∈ more, c.now < due) :
    (Run.after (fun s c => (perform T s c).2) s more).find id = some r := by
  have hgone : ∀ c ∈ more, ∀ r₁, r₁ = r → r₁.id = id → ¬ Gone c r₁ := by
    rintro c hc r₁ rfl - hgone
    cases hgone with
    | clear _ hstatus => simp [hstatus, ApprovalStatus.settled] at hsettled
    | purge _ hpurge hreached _ =>
      obtain rfl := Option.some.inj (hdue.symm.trans hpurge)
      exact absurd (hbefore c hc) (not_lt.2 hreached)
  obtain ⟨r', hr', rfl⟩ := stays T (P := fun r' => r' = r) more
    (fun c _ s r₁ r₁' hmoved heq => (hmoved.of_settled (heq ▸ hsettled)).trans heq) hgone hkeyed h rfl
  exact hr'

/-- A row of unknown outcome with keyed hashes stays so until the owner clears it. -/
theorem unknown_stays (T : Texts) (hkeyed : Keyed s) (h : s.find id = some r)
    (hunknown : r.status = .unknown) (hbinding : r.binding = .keyed)
    (hclear : ∀ c ∈ more, ∀ decidedBy, c.op ≠ .decide id .clearUnknown decidedBy) :
    ∃ r', (Run.after (fun s c => (perform T s c).2) s more).find id = some r' ∧ Same r r' ∧
      r'.status = .unknown := by
  have hkeep : ∀ c ∈ more, ∀ s r₁ r₁', Moved s c r₁ r₁' → Same r r₁ ∧ r₁.status = .unknown →
      Same r r₁' ∧ r₁'.status = .unknown := by
    intro c hc s r₁ r₁' hmoved ⟨hsame, hstatus⟩
    refine ⟨hsame.trans hmoved.same, (hmoved.unknown hstatus).resolve_right ?_⟩
    rintro ⟨-, decidedBy, hop⟩
    have hid : r₁.id = id := hsame.id.trans (Table.key_of_find h)
    exact hclear c hc decidedBy (hid ▸ hop)
  have hgone : ∀ c ∈ more, ∀ r₁, Same r r₁ ∧ r₁.status = .unknown → r₁.id = id → ¬ Gone c r₁ := by
    intro c hc r₁ ⟨hsame, hstatus⟩ hid hgone
    cases hgone with
    | @clear decidedBy hop => exact hclear c hc decidedBy (hid ▸ hop)
    | purge _ _ _ hother => exact hother ⟨hstatus, hsame.binding.trans hbinding⟩
  exact stays T more hkeep hgone hkeyed h ⟨.refl r, hunknown⟩

/-! ## What ended -/

/-- An entry was sent, or the owner discarded it. -/
def Ends (T : Texts) (before : List Call) (c : Call) (id : JsString) : Prop :=
  (∃ result, c.op = .finish id .done result ∧
    (perform T (after T before) c).1 = .finished (some .done)) ∨
  (∃ reason decidedBy, c.op = .decide id (.reject reason) decidedBy ∧
    (perform T (after T before) c).1 = .decided .ok)

/-- The row of an entry that ended : settled, with its time to go and the time it ended. -/
structure Ended (now : Time) (r : Row) : Prop where
  settled : r.status.settled = true
  purge : r.purgeAfter = some (now + APPROVAL_PURGE_AFTER_MS)
  since : ∀ windowStart, windowStart < now → endedSince windowStart r = true

theorem ended_done (stored : AtRest) (now : Time) (r : Row) : Ended now (r.settle .done stored now) :=
  ⟨rfl, rfl, fun windowStart h => by simp [endedSince, Row.settle, h]⟩

theorem ended_rejected (decidedBy : JsString) (reason : RejectReason) (now : Time) (r : Row) :
    Ended now (r.reject decidedBy reason.text now) := by
  refine ⟨rfl, rfl, fun windowStart h => ?_⟩
  have hreason : reason.text ≠ utf16 "cleared_unknown" := by cases reason <;> decide
  simp [endedSince, Row.reject, h, hreason]

theorem ended_of_ends {before : List Call} (h : Ends T before c id) :
    ∃ r, (perform T (after T before) c).2.find id = some r ∧ Ended c.now r := by
  have hkeyed := keyed_after T before
  rcases h with ⟨result, hop, hanswer⟩ | ⟨reason, decidedBy, hop, hanswer⟩
  · have hperform : perform T (after T before) c =
        (.finished (finish c.db (after T before) id .done result c.now).1,
          (finish c.db (after T before) id .done result c.now).2) := by
      rw [perform, hop]
    rw [hperform] at hanswer ⊢
    have hfinish := Answer.finished.inj hanswer
    unfold finish at hfinish ⊢
    cases hr : (after T before).rows.find? fun r => r.id = id && r.status = .executing with
    | none =>
      rw [hr] at hfinish
      cases hfinish
    | some r =>
      have hfound := List.find?_some hr
      rw [Bool.and_eq_true, decide_eq_true_eq] at hfound
      have hfind : (after T before).find id = some r := by
        rw [← hfound.1]
        exact Table.find_of_mem hkeyed.nodup (List.mem_of_find?_eq_some hr)
      dsimp only
      rw [if_neg (by simp)]
      exact ⟨_, find_update (fun _ => rfl) hfind hfound.2, ended_done _ _ _⟩
  · have hperform : perform T (after T before) c =
        (.decided (Store.decide c.db (after T before) id (.reject reason) decidedBy c.now).1,
          (Store.decide c.db (after T before) id (.reject reason) decidedBy c.now).2) := by
      rw [perform, hop]
    rw [hperform] at hanswer ⊢
    have hdecide := Answer.decided.inj hanswer
    unfold Store.decide at hdecide ⊢
    cases hr : (after T before).find id with
    | none =>
      rw [hr] at hdecide
      cases hdecide
    | some r =>
      rw [hr] at hdecide
      dsimp only at hdecide ⊢
      split at hdecide
      · cases hdecide
      · next hpending =>
        rw [if_neg hpending, took_store]
        exact ⟨_, find_update (fun _ => rfl) hr (decide_eq_true (not_not.1 hpending)),
          ended_rejected _ _ _ _⟩

/-! ## The claim -/

/-- One engine, and clock values that do not decrease. -/
structure Steady (db : EngineDb) (calls : List Call) : Prop where
  engine : ∀ c ∈ calls, c.db = db
  clock : calls.Pairwise fun c c' => c.now ≤ c'.now

/-- The entry `id` was filed in a run. -/
def FiledIn (T : Texts) (calls : List Call) (id : JsString) (input : FileApprovalInput) : Prop :=
  ∃ before filing rest, calls = before ++ filing :: rest ∧ Filed T before filing id input

/-- A row is the one that was filed under its id. -/
theorem same_of_filed (hengine : ∀ c ∈ calls, c.db = db) {input : FileApprovalInput}
    (hfiled : FiledIn T calls id input) (h : (after T calls).find id = some r) :
    ∃ now, Same (filedRow db T id input now) r := by
  obtain ⟨before, filing, rest, hcalls, hop, hanswer⟩ := hfiled
  have hdb : filing.db = db := hengine filing (hcalls ▸ by simp)
  have hfiles := files_of_answer hop hanswer
  have hfind : (perform T (after T before) filing).2.find id =
      some (filedRow filing.db T id input filing.now) := by
    have hnone : (after T before).find id = none := by
      cases hr : (after T before).find id with
      | none => rfl
      | some r₀ => exact absurd (drawn_of_find (keyed_after T before) hr) hfiles.fresh
    rw [hfiles.store]
    refine (Table.find_append _ _).trans ?_
    have hnone' : Table.find Row.id (after T before).rows id = none := hnone
    rw [hnone']
    simp [Table.find, filedRow]
  rw [hcalls, after, Run.after_append, Run.after_cons] at h
  refine ⟨filing.now, ?_⟩
  rw [← hdb]
  exact row_after T (P := Same (filedRow filing.db T id input filing.now)) rest
    (fun _ _ _ _ _ hmoved hsame => hsame.trans hmoved.same)
    (keyed_perform T (keyed_after T before) filing) hfind (.refl _) h

/-- At most one entry of a mail is open. -/
def OneOpen (T : Texts) (calls : List Call) : Prop :=
  ∀ id id' input input', FiledIn T calls id input → FiledIn T calls id' input' →
    SameMail T input.filing input'.filing → ∀ r r', (after T calls).find id = some r →
    (after T calls).find id' = some r' → r.status.active = true → r'.status.active = true → id = id'

/-- Mail that was sent or discarded is not filed again within its window. -/
def Remembers (T : Texts) (calls : List Call) : Prop :=
  ∀ before ending middle refiling rest id id' input input',
    calls = before ++ ending :: (middle ++ refiling :: rest) → FiledIn T before id input →
    Ends T before ending id → refiling.op = .file id' input' →
    SameMail T input'.filing input.filing →
    refiling.now < ending.now + APPROVAL_DEDUP_WINDOW_MS input'.filing.kind →
    (perform T (after T (before ++ ending :: middle)) refiling).1 ≠ .filed (.ok id')

/-- Mail of unknown outcome is not filed again until the owner clears it, where hashes are keyed. -/
def KeepsUnknown (T : Texts) (db : EngineDb) (calls : List Call) : Prop :=
  db.hashIsKeyed = true → ∀ before middle refiling rest id id' input input' r,
    calls = before ++ (middle ++ refiling :: rest) → FiledIn T before id input →
    (after T before).find id = some r → r.status = .unknown →
    (∀ c ∈ middle, ∀ decidedBy, c.op ≠ .decide id .clearUnknown decidedBy) →
    refiling.op = .file id' input' → SameMail T input'.filing input.filing →
    (perform T (after T (before ++ middle)) refiling).1 ≠ .filed (.ok id')

theorem oneOpen (hsteady : Steady db calls) : OneOpen T calls := by
  intro id id' input input' hfiled hfiled' hmail r r' hr hr' hactive hactive'
  obtain ⟨now, hsame⟩ := same_of_filed hsteady.engine hfiled hr
  obtain ⟨now', hsame'⟩ := same_of_filed hsteady.engine hfiled' hr'
  have hkeys : SameKeys (filedRow db T id input now) (filedRow db T id' input' now') :=
    sameKeys_of_sameMail hmail
  refine unique_after T calls id id' r r' hr hr' hactive hactive' ?_
  exact (meet_of_sameKeys hkeys).imp
    (fun h => hsame.dedupKey.trans (h.trans hsame'.dedupKey.symm))
    fun ⟨key, hkey, hkey'⟩ => ⟨key, hsame.familyKey.trans hkey, hsame'.familyKey.trans hkey'⟩

theorem FiledIn.append {input : FileApprovalInput} (h : FiledIn T calls id input) (more : List Call) :
    FiledIn T (calls ++ more) id input := by
  obtain ⟨before, filing, rest, rfl, hfiled⟩ := h
  exact ⟨before, filing, rest ++ more, by simp, hfiled⟩

theorem window_lt_purge (kind : ApprovalKind) :
    APPROVAL_DEDUP_WINDOW_MS kind < APPROVAL_PURGE_AFTER_MS := by
  cases kind with
  | mailReply => decide
  | mailSend => decide

theorem remembers (hsteady : Steady db calls) : Remembers T calls := by
  intro before ending middle refiling rest id id' input input' hcalls hfiled hends hop hmail hwindow
    hanswer
  obtain ⟨r, hr, hended⟩ := ended_of_ends hends
  have hclock : ∀ c ∈ middle, c.now ≤ refiling.now := by
    have h := hsteady.clock
    rw [hcalls, List.pairwise_append] at h
    have hlater := (List.pairwise_cons.1 h.2.1).2
    exact fun c hc => (List.pairwise_append.1 hlater).2.2 c hc refiling List.mem_cons_self
  have hsplit : after T (before ++ ending :: middle) =
      Run.after (fun s c => (perform T s c).2) (perform T (after T before) ending).2 middle := by
    rw [after, Run.after_append, Run.after_cons]
    rfl
  have hstays : (after T (before ++ ending :: middle)).find id = some r := by
    rw [hsplit]
    refine settled_stays T (keyed_perform T (keyed_after T before) ending) hr hended.settled
      hended.purge fun c hc => ?_
    exact (hclock c hc).trans_lt (hwindow.trans (Int.add_lt_add_left (window_lt_purge _) _))
  have hmem : ∀ c ∈ before ++ ending :: middle, c.db = db := by
    intro c hc
    refine hsteady.engine c ?_
    rw [hcalls]
    rcases List.mem_append.1 hc with hc | hc
    · exact List.mem_append_left _ hc
    · refine List.mem_append_right _ ?_
      rw [← List.cons_append]
      exact List.mem_append_left _ hc
  obtain ⟨now, hsame⟩ := same_of_filed hmem (hfiled.append _) hstays
  have hdb : refiling.db = db := hsteady.engine refiling (hcalls ▸ by simp)
  have hkeys : SameKeys (filedRow refiling.db T id' input' refiling.now) r := by
    rw [hdb]
    exact (sameKeys_of_sameMail hmail).same hsame
  exact not_filed_of_ended (Table.mem_of_find hstays) (hended.since _ (sub_lt_iff_lt_add.2 hwindow))
    hkeys (files_of_answer hop hanswer)

theorem keepsUnknown (hsteady : Steady db calls) : KeepsUnknown T db calls := by
  intro hkeyed before middle refiling rest id id' input input' r hcalls hfiled hr hunknown hclear hop
    hmail hanswer
  have hmem : ∀ c ∈ before, c.db = db := fun c hc =>
    hsteady.engine c (hcalls ▸ List.mem_append_left _ hc)
  obtain ⟨now, hsame⟩ := same_of_filed hmem hfiled hr
  have hbinding : r.binding = .keyed := by
    rw [hsame.binding]
    exact if_pos hkeyed
  obtain ⟨r', hr', hsame', hunknown'⟩ :=
    unknown_stays T (keyed_after T before) hr hunknown hbinding hclear
  have hstays : (after T (before ++ middle)).find id = some r' := by
    rw [after, Run.after_append]
    exact hr'
  have hdb : refiling.db = db := hsteady.engine refiling (hcalls ▸ by simp)
  have hkeys : SameKeys (filedRow refiling.db T id' input' refiling.now) r' := by
    rw [hdb]
    exact (sameKeys_of_sameMail hmail).same (hsame.trans hsame')
  exact not_filed_of_active (Table.mem_of_find hstays) (hunknown' ▸ rfl) hkeys
    (files_of_answer hop hanswer)

/-- Over every run with one vault key and clock values that do not decrease : at most one entry of a
mail is open, mail that was sent or discarded is refused within its window, and mail of unknown
outcome until the owner clears it. -/
theorem no_mail_is_queued_twice (T : Texts) (db : EngineDb) (calls : List Call)
    (hsteady : Steady db calls) : OneOpen T calls ∧ Remembers T calls ∧ KeepsUnknown T db calls :=
  ⟨oneOpen hsteady, remembers hsteady, keepsUnknown hsteady⟩

/-- The sample is claimed and sent. -/
def sampleSend : Call :=
  ⟨.finish (utf16 "e1") .done [], 4000, sampleDb⟩

/-- Another filing of the sample. -/
def sampleAgain : Call :=
  ⟨.file (utf16 "e2") sampleInput, 5000, sampleDb⟩

/-- An entry was filed under `id`. -/
def Answer.filedAs (id : JsString) : Answer → Bool
  | .filed (.ok id') => id' = id
  | _ => false

/-- A mail was finished as sent. -/
def Answer.isDone : Answer → Bool
  | .finished (some .done) => true
  | _ => false

theorem filed_of_filedAs {a : Answer} {id : JsString} (h : a.filedAs id = true) : a = .filed (.ok id) := by
  unfold Answer.filedAs at h
  split at h
  · rw [of_decide_eq_true h]
  · cases h

theorem finished_of_isDone {a : Answer} (h : a.isDone = true) : a = .finished (some .done) := by
  unfold Answer.isDone at h
  split at h
  · rfl
  · cases h

theorem sample_is_refused : (perform sampleTexts (after sampleTexts
    (sampleCalls ++ [sampleClaim] ++ [sampleSend])) sampleAgain).1 ≠ .filed (.ok (utf16 "e2")) := by
  have hsteady : Steady sampleDb (sampleCalls ++ [sampleClaim] ++ sampleSend :: ([] ++ [sampleAgain])) := by
    refine ⟨fun c hc => ?_, by decide⟩
    simp only [sampleCalls, List.cons_append, List.nil_append, List.mem_cons, List.not_mem_nil,
      or_false] at hc
    rcases hc with rfl | rfl | rfl | rfl | rfl <;> rfl
  have hfiled : FiledIn sampleTexts (sampleCalls ++ [sampleClaim]) (utf16 "e1") sampleInput := by
    refine ⟨[], _, _, rfl, rfl, ?_⟩
    exact filed_of_filedAs (by decide +kernel)
  have hends : Ends sampleTexts (sampleCalls ++ [sampleClaim]) sampleSend (utf16 "e1") := by
    refine .inl ⟨[], rfl, ?_⟩
    exact finished_of_isDone (by decide +kernel)
  exact (no_mail_is_queued_twice sampleTexts sampleDb _ hsteady).2.1 (sampleCalls ++ [sampleClaim])
    sampleSend [] sampleAgain [] (utf16 "e1") (utf16 "e2") sampleInput sampleInput rfl hfiled hends rfl
    ⟨rfl, rfl⟩ (by decide)

end Lynox.Approvals
