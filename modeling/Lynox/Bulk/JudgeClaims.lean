import Lynox.Bulk.Judge
import Lynox.Bulk.World
import Lynox.Process.Run

/-!
# Claims on targets to be judged

Any number of loops claim targets of one run, wait for their model, and come back in any order
with a verdict or a release. A `Bench` is the ledger with the claims and verdicts that were
written so far, newest first, and every token a claim was tried with; `Bench.step` is one call
of one loop. Every claim is tried with a token of its own (`JudgeCall.Fresh`), at any time by
any clock.

A row's token is that of its last claim or none, so a loop whose claim was taken over can
neither write nor release (`judge_claims`).
-/

namespace Lynox.Bulk

variable {V : Type} {D : Deps V} {r : String}

/-! ## Guarded updates of a target -/

theorem Run.editTarget_eq_self {x : Run} {seq : ℕ} {e : TargetEdit}
    (h : ∀ t, x.target? seq = some t → e.apply t = t) : x.editTarget seq e = x := by
  have htargets : (x.editTarget seq e).targets = x.targets := by
    refine (List.map_congr_left fun t ht => ?_).trans x.targets.map_id
    simp only [TargetEdit.under]
    split
    · next hseq => exact h t (of_decide_eq_true hseq ▸ target?_of_mem ht)
    · rfl
  rcases x with ⟨⟩
  simp only [editTarget, mapTargets, Run.mk.injEq] at htargets ⊢
  simp [htargets]

namespace Ledger

variable {L : Ledger} {seq seq' : ℕ} {run : Run → Bool} {guard : Target → Bool} {e : TargetEdit}

/-- An update that changed a row found its run and its target as its `WHERE` wants them. -/
theorem updateTarget_true (h : (L.updateTarget r seq run guard e).1 = true) :
    ∃ x t, L.runRow r = some x ∧ run x = true ∧ x.target? seq = some t ∧ guard t = true := by
  obtain ⟨x, hx, hguard⟩ := (Option.any_eq_true _ _).mp h
  obtain ⟨hrun, hany⟩ := (Bool.and_eq_true _ _).mp hguard
  obtain ⟨t, ht, htg⟩ := (Option.any_eq_true _ _).mp hany
  exact ⟨x, t, hx, hrun, ht, htg⟩

theorem row_updateTarget_of_true (h : (L.updateTarget r seq run guard e).1 = true) :
    (L.updateTarget r seq run guard e).2.row r seq' =
      if seq' = seq then (L.row r seq').map e.apply else L.row r seq' := by
  obtain ⟨x, t, hx, hrun, ht, hguard⟩ := updateTarget_true h
  have hrow : (L.updateTarget r seq run guard e).2.runRow r =
      some (x.editTarget seq (e.under guard)) := by
    simp only [updateTarget, updateRun]
    rw [runRow_editRun_self, hx]
    simp [RunEdit.under, hrun, ht, hguard]
  rw [row, row, hrow, hx, Option.bind_some, Option.bind_some, Run.target?_editTarget]
  split
  · next hseq => simp [hseq, ht, TargetEdit.under, hguard]
  · rfl

theorem editRun_eq_self {id : String} {e : RunEdit}
    (h : ∀ x, L.runRow id = some x → e.apply x = x) : L.editRun id e = L := by
  refine mapRuns_eq_self fun x hx => ?_
  simp only [RunEdit.under]
  split
  · next hid => exact h x (of_decide_eq_true hid ▸ runRow_of_mem hx)
  · rfl

theorem updateTarget_of_false (h : (L.updateTarget r seq run guard e).1 = false) :
    (L.updateTarget r seq run guard e).2 = L := by
  refine editRun_eq_self fun x hx => ?_
  simp only [updateTarget, updateRun, hx, Option.any_some] at h
  simp only [RunEdit.under]
  rw [if_neg (by rw [h]; exact Bool.false_ne_true)]

/-- The phase of the run. -/
def phaseOf (L : Ledger) (r : String) : Option Phase :=
  (L.runRow r).map Run.phase

theorem phaseOf_editRun {id : String} {e : RunEdit} (h : ∀ x, (e.apply x).phase = x.phase) :
    (L.editRun id e).phaseOf r = L.phaseOf r := by
  rw [phaseOf, editRun, runRow_mapRuns, Option.map_map]
  congr 1
  funext x
  simp only [Function.comp_apply, RunEdit.under]
  split
  · exact h x
  · rfl

theorem phaseOf_updateTarget :
    (L.updateTarget r seq run guard e).2.phaseOf r = L.phaseOf r := by
  refine phaseOf_editRun fun x => ?_
  simp only [RunEdit.under]
  split <;> rfl

end Ledger

/-! ## Loops -/

/-- One call of a loop. -/
inductive JudgeCall (V : Type)
  | claim (seq : ℕ) (token : String) (now staleMs : Time)
  | release (seq : ℕ) (token : String)
  | record (seq : ℕ) (token : String) (verdict : Verdict V) (now : Time)
  | finish

/-- A claim or a verdict that was written. -/
inductive ClaimEvent
  | claimed (seq : ℕ) (token : String)
  | judged (seq : ℕ) (token : String)
  deriving DecidableEq, Repr

namespace ClaimEvent

def claimOn (seq : ℕ) : ClaimEvent → Option String
  | .claimed s token => if s = seq then some token else none
  | .judged .. => none

def verdictOn (seq : ℕ) : ClaimEvent → Bool
  | .judged s _ => s = seq
  | .claimed .. => false

end ClaimEvent

/-- The token of the last claim on a target. -/
def lastClaim (seq : ℕ) (trace : List ClaimEvent) : Option String :=
  trace.findSome? (ClaimEvent.claimOn seq)

/-- How many verdicts a target received. -/
def verdicts (seq : ℕ) (trace : List ClaimEvent) : ℕ :=
  trace.countP (ClaimEvent.verdictOn seq)

/-- The tokens of the claims on a target, newest first. -/
def claims (seq : ℕ) (trace : List ClaimEvent) : List String :=
  trace.filterMap (ClaimEvent.claimOn seq)

theorem lastClaim_eq (seq : ℕ) (trace : List ClaimEvent) :
    lastClaim seq trace = (claims seq trace).head? := by
  rw [lastClaim, claims, List.head?_filterMap]

structure Bench where
  ledger : Ledger
  trace : List ClaimEvent := []
  tokens : List String := []

/-- A call takes a token of its own. -/
def JudgeCall.Fresh (b : Bench) : JudgeCall V → Prop
  | .claim _ token .. => token ∉ b.tokens
  | .release .. | .record .. | .finish => True

namespace Bench

/-- One call on the run `r`. -/
def step [DecidableEq V] (D : Deps V) (r : String) (b : Bench) : JudgeCall V → Bench
  | .claim seq token now staleMs =>
    let claimed := b.ledger.claimJudge D r seq token now staleMs
    { ledger := claimed.2
      trace := if claimed.1 then .claimed seq token :: b.trace else b.trace
      tokens := token :: b.tokens }
  | .release seq token => { b with ledger := b.ledger.releaseJudgeClaim r seq token }
  | .record seq token verdict now =>
    let written := b.ledger.recordJudgement D r seq token verdict now
    { b with
      ledger := written.2
      trace := if written.1 then .judged seq token :: b.trace else b.trace }
  | .finish => { b with ledger := (b.ledger.finishJudge D r).2 }

/-- The target under `seq`. -/
def row (r : String) (b : Bench) (seq : ℕ) : Option Target :=
  b.ledger.row r seq

/-- What a call may do to one target. -/
inductive Move (r : String) (seq : ℕ) (b b' : Bench) : Prop
  | same (row : b'.row r seq = b.row r seq) (claims : claims seq b'.trace = claims seq b.trace)
      (verdicts : verdicts seq b'.trace = verdicts seq b.trace)
  | claimed {t : Target} {token : String} (row : b.row r seq = some t) (unjudged : t.judgedAt = none)
      (row' : (b'.row r seq).map (fun t' => (t'.judgedAt, t'.judgeClaimToken)) =
        some (none, some token))
      (claims : claims seq b'.trace = token :: claims seq b.trace) (fresh : token ∉ b.tokens)
      (taken : token ∈ b'.tokens)
      (verdicts : verdicts seq b'.trace = verdicts seq b.trace)
  | released {t : Target} (row : b.row r seq = some t) (unjudged : t.judgedAt = none)
      (row' : (b'.row r seq).map (fun t' => (t'.judgedAt, t'.judgeClaimToken)) = some (none, none))
      (claims : claims seq b'.trace = claims seq b.trace)
      (verdicts : verdicts seq b'.trace = verdicts seq b.trace)
  | judged {t : Target} {token : String} {now : Time} (row : b.row r seq = some t)
      (unjudged : t.judgedAt = none) (held : t.judgeClaimToken = some token)
      (planned : b.ledger.phaseOf r = some .planned)
      (row' : (b'.row r seq).map (fun t' => (t'.judgedAt, t'.judgeClaimToken)) =
        some (some now, none))
      (claims : claims seq b'.trace = claims seq b.trace)
      (verdicts : verdicts seq b'.trace = verdicts seq b.trace + 1)

variable [DecidableEq V] {b : Bench} {seq seq' : ℕ} {token : String}

theorem claims_claimed : claims seq' (.claimed seq token :: b.trace) =
    if seq = seq' then token :: claims seq' b.trace else claims seq' b.trace := by
  simp only [claims, List.filterMap_cons, ClaimEvent.claimOn]
  split_ifs <;> rfl

theorem move_claim {now staleMs : Time} (hfresh : token ∉ b.tokens) (seq' : ℕ) :
    Move r seq' b (b.step D r (.claim seq token now staleMs : JudgeCall V)) := by
  simp only [step]
  rcases hok : (b.ledger.claimJudge D r seq token now staleMs).1 with _ | _
  · have hsame : (b.ledger.claimJudge D r seq token now staleMs).2 = b.ledger :=
      Ledger.updateTarget_of_false hok
    rw [hsame]
    exact .same rfl rfl rfl
  obtain ⟨x, t, hx, -, ht, hclaimable⟩ := Ledger.updateTarget_true hok
  have hrow : (b.ledger.claimJudge D r seq token now staleMs).2.row r seq' =
      if seq' = seq then (b.ledger.row r seq').map (TargetEdit.judgeClaimed token now).apply
      else b.ledger.row r seq' := Ledger.row_updateTarget_of_true hok
  by_cases hseq : seq' = seq
  · subst hseq
    have ht' : b.row r seq' = some t := by rw [row, Ledger.row, hx, Option.bind_some, ht]
    have hunjudged : t.judgedAt = none := by
      simp only [Target.judgeClaimable, Target.unjudged, Bool.and_eq_true,
        Option.isNone_iff_eq_none] at hclaimable
      exact hclaimable.1.2
    refine .claimed ht' hunjudged ?_ (by simp [claims_claimed]) hfresh List.mem_cons_self
      (by simp [verdicts, ClaimEvent.verdictOn])
    rw [row] at ht'
    simp [row, hrow, ht', TargetEdit.judgeClaimed, hunjudged]
  · refine .same ?_ (by simp [claims_claimed, Ne.symm hseq])
      (by simp [verdicts, ClaimEvent.verdictOn])
    rw [row, row, hrow, if_neg hseq]

theorem move_release (seq' : ℕ) : Move r seq' b (b.step D r (.release seq token : JudgeCall V)) := by
  simp only [step]
  have hrow : (b.ledger.releaseJudgeClaim r seq token).row r seq' = if seq' = seq then
      (b.ledger.row r seq').map (TargetEdit.under (fun t => t.judgeClaimToken = some token &&
        t.judgedAt.isNone) .judgeReleased).apply else b.ledger.row r seq' := by
    rw [Ledger.releaseJudgeClaim, Ledger.editTarget, Ledger.row, Ledger.runRow_editRun_self,
      Ledger.row]
    rcases b.ledger.runRow r with _ | x
    · simp
    · exact Run.target?_editTarget
  rcases ht : b.row r seq' with _ | t
  · refine .same ?_ rfl rfl
    rw [row] at ht
    rw [row, row, hrow, ht]
    simp
  by_cases hheld : seq' = seq ∧ (t.judgeClaimToken = some token ∧ t.judgedAt = none)
  · obtain ⟨rfl, htoken, hunjudged⟩ := hheld
    refine .released ht hunjudged ?_ rfl rfl
    rw [row] at ht
    simp [row, hrow, ht, TargetEdit.under, TargetEdit.judgeReleased, htoken, hunjudged]
  · refine .same ?_ rfl rfl
    rw [row] at ht
    rw [row, row, hrow, ht]
    split
    · next hseq =>
      have hguard : ¬((decide (t.judgeClaimToken = some token)) && t.judgedAt.isNone) = true := by
        intro h
        simp only [Bool.and_eq_true, decide_eq_true_eq, Option.isNone_iff_eq_none] at h
        exact hheld ⟨hseq, h⟩
      simp only [Option.map_some, TargetEdit.under]
      rw [if_neg hguard]
    · rfl

/-- A verdict is one guarded update, or nothing. -/
theorem recordJudgement_cases (L : Ledger) (seq : ℕ) (token : String) (verdict : Verdict V)
    (now : Time) : L.recordJudgement D r seq token verdict now = (false, L) ∨
      ∃ e : TargetEdit, (∀ t, (e.apply t).judgedAt = some now ∧
        (e.apply t).judgeClaimToken = none) ∧
        L.recordJudgement D r seq token verdict now =
          L.updateTarget r seq (·.phase = .planned) (Target.judgeable token) e := by
  unfold Ledger.recordJudgement
  dsimp only
  split
  · exact .inr ⟨_, fun _ => ⟨rfl, rfl⟩, rfl⟩
  split
  · exact .inr ⟨_, fun _ => ⟨rfl, rfl⟩, rfl⟩
  · exact .inl rfl

theorem move_record {verdict : Verdict V} {now : Time} (seq' : ℕ) :
    Move r seq' b (b.step D r (.record seq token verdict now)) := by
  simp only [step]
  rcases recordJudgement_cases (D := D) (r := r) b.ledger seq token verdict now with
    hnone | ⟨e, he, hupdate⟩
  · rw [hnone]
    exact .same rfl rfl rfl
  rw [hupdate]
  rcases hok : (b.ledger.updateTarget r seq (·.phase = .planned) (Target.judgeable token) e).1
    with _ | _
  · rw [Ledger.updateTarget_of_false hok]
    exact .same rfl rfl rfl
  obtain ⟨x, t, hx, hplanned, ht, hjudgeable⟩ := Ledger.updateTarget_true hok
  have hrow : (b.ledger.updateTarget r seq (·.phase = .planned) (Target.judgeable token) e).2.row
      r seq' = if seq' = seq then (b.ledger.row r seq').map e.apply else b.ledger.row r seq' :=
    Ledger.row_updateTarget_of_true hok
  by_cases hseq : seq' = seq
  · subst hseq
    have ht' : b.row r seq' = some t := by rw [row, Ledger.row, hx, Option.bind_some, ht]
    simp only [Target.judgeable, Bool.and_eq_true, decide_eq_true_eq,
      Option.isNone_iff_eq_none] at hjudgeable
    have hphase : b.ledger.phaseOf r = some .planned := by
      rw [Ledger.phaseOf, hx, Option.map_some, of_decide_eq_true hplanned]
    have hrow' : ((b.ledger.updateTarget r seq' (·.phase = .planned) (Target.judgeable token)
        e).2.row r seq').map (fun t' => (t'.judgedAt, t'.judgeClaimToken)) =
        some (some now, none) := by
      rw [row] at ht'
      simp [hrow, ht', he t]
    exact .judged ht' hjudgeable.1.2 hjudgeable.1.1 hphase hrow' rfl
      (by simp [verdicts, ClaimEvent.verdictOn])
  · refine .same ?_ rfl (by simp [verdicts, ClaimEvent.verdictOn, Ne.symm hseq])
    rw [row, row, hrow, if_neg hseq]

/-- What a call does to a target. -/
theorem move_step {call : JudgeCall V} (hfresh : call.Fresh b) (seq' : ℕ) :
    Move r seq' b (b.step D r call) := by
  cases call with
  | claim seq token now staleMs => exact move_claim hfresh seq'
  | release seq token => exact move_release seq'
  | record seq token verdict now => exact move_record seq'
  | finish =>
    refine .same ?_ rfl rfl
    simp only [step, row, Ledger.row, Ledger.finishJudge, Ledger.updateRun]
    rw [Ledger.runRow_editRun_self]
    rcases b.ledger.runRow r with _ | x
    · rfl
    · simp only [Option.map_some, Option.bind_some, RunEdit.under]
      split <;> rfl

/-- A run that left `planned` does not come back. -/
theorem phase_step {call : JudgeCall V} (h : b.ledger.phaseOf r ≠ some .planned) :
    (b.step D r call).ledger.phaseOf r ≠ some .planned := by
  cases call with
  | claim seq token now staleMs =>
    simp only [step, Ledger.claimJudge]
    rwa [Ledger.phaseOf_updateTarget]
  | release seq token =>
    simp only [step, Ledger.releaseJudgeClaim, Ledger.editTarget]
    rwa [Ledger.phaseOf_editRun fun _ => rfl]
  | record seq token verdict now =>
    simp only [step]
    rcases recordJudgement_cases (D := D) (r := r) b.ledger seq token verdict now with
      hnone | ⟨e, -, hupdate⟩
    · rwa [hnone]
    · rw [hupdate]
      rwa [Ledger.phaseOf_updateTarget]
  | finish =>
    simp only [step, Ledger.finishJudge, Ledger.updateRun, Ledger.phaseOf]
    rw [Ledger.runRow_editRun_self]
    rw [Ledger.phaseOf] at h
    rcases hx : b.ledger.runRow r with _ | x
    · simp
    · simp only [hx, Option.map_some, RunEdit.under] at h ⊢
      split
      · simp
      · exact h

/-! ## Over every interleaving -/

/-- A row carries the token of its last claim or none, no verdict was written twice, and no
token was taken twice. -/
structure Kept (r : String) (b : Bench) : Prop where
  token : ∀ seq t, b.row r seq = some t → t.judgeClaimToken = none ∨
    t.judgeClaimToken = (claims seq b.trace).head?
  unjudged : ∀ seq t, b.row r seq = some t → t.judgedAt = none → verdicts seq b.trace = 0
  once : ∀ seq, verdicts seq b.trace ≤ 1
  used : ∀ seq, ∀ token ∈ claims seq b.trace, token ∈ b.tokens
  distinct : ∀ seq, (claims seq b.trace).Nodup

theorem tokens_step {call : JudgeCall V} : b.tokens ⊆ (b.step D r call).tokens := by
  cases call with
  | claim seq token now staleMs => exact List.subset_cons_self ..
  | release | record | finish => exact List.Subset.refl _

theorem Kept.step {call : JudgeCall V} (h : Kept r b) (hfresh : call.Fresh b) :
    Kept r (b.step D r call) := by
  have hmove := move_step (D := D) (r := r) hfresh
  have hsub : b.tokens ⊆ (b.step D r call).tokens := tokens_step
  generalize b.step D r call = b' at hmove hsub
  refine ⟨fun seq t' ht' => ?_, fun seq t' ht' hjudged => ?_, fun seq => ?_, fun seq => ?_,
    fun seq => ?_⟩
  · rcases hmove seq with ⟨hrow, hclaims, -⟩ | ⟨-, -, hrow', hclaims, -, -, -⟩ |
      ⟨-, -, hrow', -, -⟩ | ⟨-, -, -, -, hrow', -, -⟩
    · rw [hclaims]
      exact h.token seq t' (hrow ▸ ht')
    · simp only [ht', Option.map_some, Option.some.injEq, Prod.mk.injEq] at hrow'
      exact .inr (by rw [hclaims, hrow'.2, List.head?_cons])
    · simp only [ht', Option.map_some, Option.some.injEq, Prod.mk.injEq] at hrow'
      exact .inl hrow'.2
    · simp only [ht', Option.map_some, Option.some.injEq, Prod.mk.injEq] at hrow'
      exact .inl hrow'.2
  · rcases hmove seq with ⟨hrow, -, hverdicts⟩ | ⟨hrow, hunjudged, -, -, -, -, hverdicts⟩ |
      ⟨hrow, hunjudged, -, -, hverdicts⟩ | ⟨-, -, -, -, hrow', -, -⟩
    · rw [hverdicts]
      exact h.unjudged seq t' (hrow ▸ ht') hjudged
    · rw [hverdicts]
      exact h.unjudged seq _ hrow hunjudged
    · rw [hverdicts]
      exact h.unjudged seq _ hrow hunjudged
    · simp [ht', hjudged] at hrow'
  · rcases hmove seq with ⟨-, -, hverdicts⟩ | ⟨-, -, -, -, -, -, hverdicts⟩ |
      ⟨-, -, -, -, hverdicts⟩ | ⟨hrow, hunjudged, -, -, -, -, hverdicts⟩
    · exact hverdicts ▸ h.once seq
    · exact hverdicts ▸ h.once seq
    · exact hverdicts ▸ h.once seq
    · rw [hverdicts, h.unjudged seq _ hrow hunjudged]
  · intro token hmem
    rcases hmove seq with ⟨-, hclaims, -⟩ | ⟨-, -, -, hclaims, -, htaken, -⟩ |
      ⟨-, -, -, hclaims, -⟩ | ⟨-, -, -, -, -, hclaims, -⟩
    · exact hsub (h.used seq token (hclaims ▸ hmem))
    · rcases List.mem_cons.mp (hclaims ▸ hmem) with rfl | hmem
      · exact htaken
      · exact hsub (h.used seq token hmem)
    · exact hsub (h.used seq token (hclaims ▸ hmem))
    · exact hsub (h.used seq token (hclaims ▸ hmem))
  · rcases hmove seq with ⟨-, hclaims, -⟩ | ⟨-, -, -, hclaims, hnew, -, -⟩ |
      ⟨-, -, -, hclaims, -⟩ | ⟨-, -, -, -, -, hclaims, -⟩
    · exact hclaims ▸ h.distinct seq
    · rw [hclaims]
      exact List.nodup_cons.mpr ⟨fun hmem => hnew (h.used seq _ hmem), h.distinct seq⟩
    · exact hclaims ▸ h.distinct seq
    · exact hclaims ▸ h.distinct seq

/-- A target that has its verdict is left as it is. -/
theorem row_step {call : JudgeCall V} (hfresh : call.Fresh b) {t : Target}
    (ht : b.row r seq = some t) (hjudged : t.judgedAt.isSome = true) :
    (b.step D r call).row r seq = some t := by
  have hnot {t' : Target} (ht' : b.row r seq = some t') (hnone : t'.judgedAt = none) : False := by
    obtain rfl := Option.some.inj (ht.symm.trans ht')
    simp [hnone] at hjudged
  rcases move_step (D := D) (r := r) hfresh seq with ⟨hrow, -, -⟩ | ⟨hrow, hunjudged, -⟩ |
    ⟨hrow, hunjudged, -⟩ | ⟨hrow, hunjudged, -⟩
  · rw [hrow, ht]
  · exact (hnot hrow hunjudged).elim
  · exact (hnot hrow hunjudged).elim
  · exact (hnot hrow hunjudged).elim

/-- A run that left `planned` receives no verdict. -/
theorem verdicts_step {call : JudgeCall V} (hfresh : call.Fresh b)
    (h : b.ledger.phaseOf r ≠ some .planned) (seq : ℕ) :
    verdicts seq (b.step D r call).trace = verdicts seq b.trace := by
  rcases move_step (D := D) (r := r) hfresh seq with ⟨-, -, hverdicts⟩ |
    ⟨-, -, -, -, -, -, hverdicts⟩ | ⟨-, -, -, -, hverdicts⟩ | ⟨-, -, -, hplanned, -⟩
  · exact hverdicts
  · exact hverdicts
  · exact hverdicts
  · exact absurd hplanned h

/-- A release under another token than the last claim's changes nothing. -/
theorem Kept.releaseJudgeClaim (h : Kept r b) (hmem : token ∈ (claims seq b.trace).tail) :
    b.ledger.releaseJudgeClaim r seq token = b.ledger := by
  refine Ledger.editRun_eq_self fun x hx => Run.editTarget_eq_self fun t ht => ?_
  have hrow : b.row r seq = some t := by rw [row, Ledger.row, hx, Option.bind_some, ht]
  have hne : t.judgeClaimToken ≠ some token := by
    intro htoken
    rcases h.token seq t hrow with hnone | hlast
    · rw [hnone] at htoken
      cases htoken
    · have hdistinct := h.distinct seq
      rw [htoken] at hlast
      rcases hclaims : claims seq b.trace with _ | ⟨newest, older⟩
      · simp [hclaims] at hmem
      · rw [hclaims] at hlast hmem hdistinct
        obtain rfl : token = newest := Option.some.inj hlast
        exact (List.nodup_cons.mp hdistinct).1 hmem
  simp [TargetEdit.under, hne]

/-- A verdict is written under the token of the last claim, while the run is planned. -/
theorem Kept.recordJudgement (h : Kept r b) {verdict : Verdict V} {now : Time}
    (hok : (b.ledger.recordJudgement D r seq token verdict now).1 = true) :
    lastClaim seq b.trace = some token ∧ b.ledger.phaseOf r = some .planned := by
  rcases recordJudgement_cases (D := D) (r := r) b.ledger seq token verdict now with
    hnone | ⟨e, -, hupdate⟩
  · simp [hnone] at hok
  rw [hupdate] at hok
  obtain ⟨x, t, hx, hplanned, ht, hjudgeable⟩ := Ledger.updateTarget_true hok
  simp only [Target.judgeable, Bool.and_eq_true, decide_eq_true_eq] at hjudgeable
  have hrow : b.row r seq = some t := by rw [row, Ledger.row, hx, Option.bind_some, ht]
  refine ⟨?_, by rw [Ledger.phaseOf, hx, Option.map_some, of_decide_eq_true hplanned]⟩
  rw [lastClaim_eq]
  rcases h.token seq t hrow with hnone | hlast
  · simp [hnone] at hjudgeable
  · rw [← hlast, hjudgeable.1.1]

/-- In every interleaving of calls : no target receives two verdicts; a verdict is written under
the token of the last claim and while the run is planned; a written verdict stays; a run that
left `planned` receives none; and a release under a token whose claim was taken over changes
nothing. -/
theorem judge_claims {L : Ledger}
    (hstart : ∀ x, L.runRow r = some x → ∀ t ∈ x.targets, t.judgeClaimToken = none)
    {calls : List (JudgeCall V)} (hcalls : Run.Obeys (step D r) JudgeCall.Fresh ⟨L, [], []⟩ calls) :
    (∀ seq, verdicts seq (Run.after (step D r) ⟨L, [], []⟩ calls).trace ≤ 1) ∧
    (∀ seq token verdict now,
      ((Run.after (step D r) ⟨L, [], []⟩ calls).ledger.recordJudgement D r seq token verdict
        now).1 = true →
      lastClaim seq (Run.after (step D r) ⟨L, [], []⟩ calls).trace = some token ∧
        (Run.after (step D r) ⟨L, [], []⟩ calls).ledger.phaseOf r = some .planned) ∧
    (∀ later, Run.Obeys (step D r) JudgeCall.Fresh ⟨L, [], []⟩ (calls ++ later) → ∀ seq t,
      (Run.after (step D r) ⟨L, [], []⟩ calls).row r seq = some t → t.judgedAt.isSome = true →
      (Run.after (step D r) ⟨L, [], []⟩ (calls ++ later)).row r seq = some t) ∧
    (∀ later, Run.Obeys (step D r) JudgeCall.Fresh ⟨L, [], []⟩ (calls ++ later) →
      (Run.after (step D r) ⟨L, [], []⟩ calls).ledger.phaseOf r ≠ some .planned → ∀ seq,
      verdicts seq (Run.after (step D r) ⟨L, [], []⟩ (calls ++ later)).trace =
        verdicts seq (Run.after (step D r) ⟨L, [], []⟩ calls).trace) ∧
    (∀ seq token,
      token ∈ (claims seq (Run.after (step D r) ⟨L, [], []⟩ calls).trace).tail →
      (Run.after (step D r) ⟨L, [], []⟩ calls).ledger.releaseJudgeClaim r seq token =
        (Run.after (step D r) ⟨L, [], []⟩ calls).ledger) := by
  have hbegin : Kept r ⟨L, [], []⟩ := by
    refine ⟨fun seq t ht => .inl ?_, fun _ _ _ _ => rfl, fun _ => Nat.zero_le 1, ?_, ?_⟩
    · obtain ⟨x, hx, ht⟩ := Option.bind_eq_some_iff.mp ht
      exact hstart x hx t (Run.mem_of_target? ht)
    · simp [claims]
    · simp [claims]
  have hkept : Kept r (Run.after (step D r) ⟨L, [], []⟩ calls) :=
    Run.invariant_of (fun b call hb hfresh => hb.step hfresh) hbegin hcalls
  refine ⟨hkept.once, fun seq token verdict now hok => hkept.recordJudgement hok, ?_, ?_,
    fun seq token hmem => hkept.releaseJudgeClaim hmem⟩
  · intro later hlater seq t ht hjudged
    rw [Run.after_append]
    exact Run.invariant_of (I := fun b : Bench => b.row r seq = some t)
      (fun b call hb hfresh => row_step hfresh hb hjudged) ht (Run.obeys_append.mp hlater).2
  · intro later hlater hphase seq
    rw [Run.after_append]
    exact (Run.invariant_of (I := fun b : Bench => b.ledger.phaseOf r ≠ some .planned ∧
        verdicts seq b.trace = verdicts seq (Run.after (step D r) ⟨L, [], []⟩ calls).trace)
      (fun b call hb hfresh => ⟨phase_step hb.1, (verdicts_step hfresh hb.1 seq).trans hb.2⟩)
      ⟨hphase, rfl⟩ (Run.obeys_append.mp hlater).2).2

/-- A planned run over one target, which a second loop takes over and decides. -/
def takenOver : Bench where
  ledger := (plainWorld { plainRun "data_store" false [plainTarget 0 "a"]
    (List.nodup_singleton _) with phase := .planned }).ledger

def takeOver : List (JudgeCall Bool) :=
  [.claim 0 "first" 0 10, .claim 0 "second" 20 10, .record 0 "second" (.after true) 30]

theorem first_loop_cannot_release :
    (Run.after (step plainDeps "r") takenOver takeOver).ledger.releaseJudgeClaim "r" 0 "first" =
        (Run.after (step plainDeps "r") takenOver takeOver).ledger ∧
      verdicts 0 (Run.after (step plainDeps "r") takenOver takeOver).trace = 1 := by
  have hstart : ∀ x, takenOver.ledger.runRow "r" = some x →
      ∀ t ∈ x.targets, t.judgeClaimToken = none := by
    rintro _ ⟨⟩
    decide
  have hcalls : Run.Obeys (step plainDeps "r") JudgeCall.Fresh takenOver takeOver := by
    have hsecond : "second" ∉ ["first"] := by decide
    exact ⟨List.not_mem_nil, hsecond, trivial, trivial⟩
  have hclaims : "first" ∈
      (claims 0 (Run.after (step plainDeps "r") takenOver takeOver).trace).tail := by
    decide +kernel
  obtain ⟨-, -, -, -, hrelease⟩ := judge_claims hstart hcalls
  exact ⟨hrelease 0 "first" hclaims, by decide +kernel⟩

end Bench

end Lynox.Bulk
