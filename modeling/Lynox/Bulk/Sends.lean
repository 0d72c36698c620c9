import Lynox.Bulk.Histories
import Mathlib.Data.Finset.Card

/-!
# The columns of a send

`writeSent`, `unknownSends`, `appliedAt` and `foundUnsent` decide whether a target may be sent
to and whether it counts against the cap. Of everything a step can do to a run, a mark, a
refusal and a recorded write alone touch them (`sends_onRow`).
-/

namespace Lynox.Bulk

variable {V : Type} {D : Deps V}

/-- The columns of a target a send reads and writes. -/
structure SendRow where
  sent : Bool
  unknown : ℕ
  applied : Bool
  found : Bool
  deriving DecidableEq

def Target.sends (t : Target) : SendRow :=
  ⟨t.writeSent, t.unknownSends, t.appliedAt.isSome, t.foundUnsent⟩

/-- Whether a target may have received the write verb. -/
def SendRow.counted (s : SendRow) : Bool :=
  (s.applied && !s.found) || s.sent

/-- An edit that touches no column of a send. -/
def TargetEdit.KeepsSends (e : TargetEdit) : Prop :=
  ∀ t, (e.apply t).sends = t.sends

theorem TargetEdit.KeepsSends.under {e : TargetEdit} (h : e.KeepsSends) (p : Target → Bool) :
    (e.under p).KeepsSends :=
  fun t => TargetEdit.under_keeps (h t)

/-- The send columns of every target. -/
def Run.sends (x : Run) : List (ℕ × SendRow) :=
  x.targets.map fun t => (t.seq, t.sends)

namespace Run

variable {x x' : Run} {e : TargetEdit} {seq : ℕ}

theorem sends_mapTargets (h : e.KeepsSends) : (x.mapTargets e).sends = x.sends := by
  simp only [sends, mapTargets, List.map_map]
  exact List.map_congr_left fun t _ => by simp [e.keeps, h t]

theorem sends_editTarget (h : e.KeepsSends) : (x.editTarget seq e).sends = x.sends :=
  sends_mapTargets (h.under _)

/-- A target's send columns, read off those of its run. -/
theorem target?_sends (x : Run) (seq : ℕ) :
    (x.target? seq).map Target.sends = (Table.find Prod.fst x.sends seq).map Prod.snd := by
  simp only [target?, sends, Table.find, List.find?_map, Option.map_map, Function.comp_def]

theorem sentCount_eq (x : Run) : x.sentCount = x.sends.countP fun p => p.2.counted := by
  simp only [sentCount, sends, List.countP_map]
  rfl

/-- Sequence numbers of targets of a kind are at most its targets. -/
theorem card_le_countP {S : Finset ℕ} {p : Target → Bool}
    (h : ∀ s ∈ S, ∃ t, x.target? s = some t ∧ p t = true) : S.card ≤ x.targets.countP p := by
  have hsub : S ⊆ ((x.targets.filter p).map Target.seq).toFinset := by
    intro s hs
    obtain ⟨t, ht, hp⟩ := h s hs
    refine List.mem_toFinset.mpr (List.mem_map.mpr ⟨t, List.mem_filter.mpr ?_, seq_of_target? ht⟩)
    exact ⟨mem_of_target? ht, hp⟩
  refine (Finset.card_le_card hsub).trans ((List.toFinset_card_le _).trans ?_)
  rw [List.length_map, List.countP_eq_length_filter]

theorem target?_of_sends {t : Target} (h : x'.sends = x.sends) (ht : x'.target? seq = some t) :
    ∃ t', x.target? seq = some t' ∧ t'.sends = t.sends := by
  have hsame : (x.target? seq).map Target.sends = (x'.target? seq).map Target.sends := by
    rw [target?_sends, target?_sends, h]
  rw [ht] at hsame
  exact Option.map_eq_some_iff.mp hsame

theorem sends_setPhase {source : List Phase} {target : Phase} {haltReason : Option HaltReason} :
    (x.setPhase source target haltReason).sends = x.sends := by
  unfold setPhase
  split <;> rfl

theorem sends_recordFailed {error : TargetError} {via : Option AttachedConnection} :
    (x.recordFailed seq error via).sends = x.sends := by
  unfold recordFailed
  split
  · exact sends_editTarget (x := x.noteFirst via) fun _ => rfl
  · rfl

theorem sends_resumed {p : ResumeParams} {writing : ℕ} {maxTargets : Option ℕ} :
    ((RunEdit.resumed p writing maxTargets).apply x).sends = x.sends :=
  sends_mapTargets (TargetEdit.KeepsSends.under (fun _ => rfl) _)

end Run

/-- The writes that touch a column of a send. -/
def EffectCall.sends : EffectCall V → Bool
  | .markSent .. | .markRefused .. | .recordApplied .. => true
  | _ => false

theorem sends_onOwn {c : EffectCall V} (h : c.sends = false) (x : Run) :
    (c.onOwn D x).sends = x.sends := by
  cases c with
  | markSent | markRefused | recordApplied => cases h
  | releaseClaim runId seq =>
    exact Run.sends_editTarget (TargetEdit.KeepsSends.under (fun _ => rfl) _)
  | recordFailed runId seq error via => exact Run.sends_recordFailed
  | recordUnrecordedSettled runId seq now =>
    exact Run.sends_editTarget (TargetEdit.KeepsSends.under (fun _ => rfl) _)
  | recordRolledBack run seq now =>
    exact Run.sends_editTarget (TargetEdit.KeepsSends.under (fun _ => rfl) _)
  | setWriting runId => exact Run.sends_setPhase
  | setAborted runId reason => exact Run.sends_setPhase
  | halt runId reason => rfl
  | finish run => exact Run.sends_setPhase

theorem sends_onSource (c : EffectCall V) (own : Option Run) (x : Run) :
    (c.onSource own x).sends = x.sends := by
  rcases onSource_cases c own x with hx | ⟨s, u, hx⟩ | hx <;> rw [hx]
  · exact Run.sends_editTarget fun _ => rfl
  · unfold Run.setUndone
    split <;> rfl

/-- Whether an operation of a pass over `p` may touch a send column of the run `id`. -/
def EffectOp.sends (p id : String) : EffectOp V → Bool
  | .call c => p = id && c.sends
  | _ => false

theorem sends_onRow {own : Option Run} {p id : String} {o : EffectOp V}
    (h : o.sends p id = false) (x : Run) : (o.onRow D own p id x).sends = x.sends := by
  cases o with
  | call c =>
    simp only [EffectOp.onRow]
    split
    · next hid =>
      subst hid
      exact sends_onOwn (by simpa [EffectOp.sends] using h) x
    · split
      · exact sends_onSource c own x
      · rfl
  | claimTarget runId seq time =>
    simp only [EffectOp.onRow]
    split
    · exact Run.sends_editTarget (TargetEdit.KeepsSends.under (fun _ => rfl) _)
    · rfl
  | _ => rfl

end Lynox.Bulk
