import Lynox.Bulk.World
import Lynox.Data.Constrained
import Mathlib.Data.List.ReduceOption

/-!
# The connections of a target

`noteConnection` merges a connection into the pair of a side with one `UPDATE`, in the row as it was. A
side with no send recorded before its first connection ends with `mergeConnections` of all that were noted
(`pair_noteConnection`), and a grant that was lost stays lost. The two sides are `Target.noteRead` and
`Target.noteWrite`.
-/

namespace Lynox.Bulk

/-- The side of a target a connection is noted for. -/
inductive TargetSide where
  | read
  | write
  deriving DecidableEq, Repr

namespace TargetSide

/-- `read_connection_id` or `write_connection_id`. -/
def id : TargetSide → Target → Option String
  | read, t => t.readConnectionId
  | write, t => t.writeConnectionId

/-- `read_grant_id` or `write_grant_id`. -/
def grant : TargetSide → Target → Option String
  | read, t => t.readGrantId
  | write, t => t.writeGrantId

/-- The condition of a send that nobody recorded, `0` or `write_sent = 1`. -/
def unrecordedSend : TargetSide → Target → Option Bool
  | read, _ => some false
  | write, t => some t.writeSent

/-- The two columns of a side. -/
def pair (side : TargetSide) (t : Target) : Option String × Option String :=
  (side.id t, side.grant t)

/-- `SET` both columns of a side. -/
def set : TargetSide → Option String → Option String → Target → Target
  | read, id, grant, t => { t with readConnectionId := id, readGrantId := grant }
  | write, id, grant, t => { t with writeConnectionId := id, writeGrantId := grant }

end TargetSide

/-- The `UPDATE` of `bulk_targets`. -/
def TargetEdit.noteConnection (side : TargetSide) (via : AttachedConnection) : TargetEdit where
  apply t := side.set (Sql.coalesce (side.id t) (some via.id))
    (Sql.case (Sql.isNull (side.id t)) (Sql.case (side.unrecordedSend t) none via.grantId)
      (Sql.case (Sql.and (Sql.eq (side.id t) (some via.id)) (Sql.is (side.grant t) via.grantId))
        (side.grant t) none)) t
  keeps t := by cases side <;> rfl

/-- The `UPDATE` of `bulk_runs` : the run's first connection, once. -/
def RunEdit.noteConnection (via : AttachedConnection) : RunEdit :=
  RunEdit.under (fun r => r.firstConnectionId.isNone)
    { apply := fun r => { r with firstConnectionId := some via.id, firstGrantId := via.grantId } }

/-- Merge `via` into a target's pair of a side. -/
def Ledger.noteConnection (L : Ledger) (runId : String) (seq : ℕ) (side : TargetSide) :
    Option AttachedConnection → Ledger
  | none => L
  | some via =>
    (L.editTarget runId seq (.noteConnection side via)).editRun runId (.noteConnection via)

/-- The connections noted for a side of a target from one ledger to another. Whatever else is done to the
target in between leaves the pair of the side, and records no send while the pair is empty. -/
inductive Notes (runId : String) (seq : ℕ) (side : TargetSide) (L : Ledger) :
    List (Option AttachedConnection) → Ledger → Prop
  | start : Notes runId seq side L [] L
  | note {seen L'} (via : Option AttachedConnection) : Notes runId seq side L seen L' →
      Notes runId seq side L (seen ++ [via]) (L'.noteConnection runId seq side via)
  | other {seen L' L'' t t'} : Notes runId seq side L seen L' → L'.row runId seq = some t →
      L''.row runId seq = some t' → side.pair t' = side.pair t →
      (side.id t = none → side.unrecordedSend t' = side.unrecordedSend t) → Notes runId seq side L seen L''

/-- The columns of a merged connection. -/
def columns (merged : Option AttachedConnection) : Option String × Option String :=
  (merged.map AttachedConnection.id, merged.bind AttachedConnection.grantId)

/-! ## One update -/

section Update

variable {side : TargetSide} {via : AttachedConnection} {t : Target} {id grant : Option String}

@[simp] theorem TargetSide.pair_set : side.pair (side.set id grant t) = (id, grant) := by
  cases side <;> rfl

/-- The statement is the merge of the pair with the connection. -/
theorem pair_noteConnection_apply (side : TargetSide) (via : AttachedConnection) (t : Target) :
    side.pair ((TargetEdit.noteConnection side via).apply t) =
    mergeInto (side.unrecordedSend t = some true) (some via) (side.id t) (side.grant t) := by
  rw [TargetEdit.noteConnection, TargetSide.pair_set]
  cases hid : side.id t with
  | none => simp [mergeInto, Sql.coalesce, Sql.case]
  | some i => simp [mergeInto, Sql.coalesce, Sql.case]

end Update

/-! ## All of them -/

section All

variable {runId : String} {seq : ℕ} {side : TargetSide} {L L' : Ledger} {t : Target}
  {seen : List (Option AttachedConnection)} {via : Option AttachedConnection}

theorem row_noteConnection {via : AttachedConnection} :
    (L.noteConnection runId seq side (some via)).row runId seq =
      (L.row runId seq).map (TargetEdit.noteConnection side via).apply := by
  unfold Ledger.noteConnection Ledger.row Ledger.editTarget
  rw [Ledger.runRow_editRun_self, Ledger.runRow_editRun_self]
  cases L.runRow runId with
  | none => rfl
  | some r =>
    simp only [Option.map_some, Option.bind_some, RunEdit.noteConnection, RunEdit.under]
    rw [← Run.target?_editTarget_self]
    split <;> rfl

theorem mergeConnections_append_none : mergeConnections (seen ++ [none]) = mergeConnections seen := by
  simp [mergeConnections, List.reduceOption_append]

theorem columns_merged {m via : AttachedConnection} :
    columns (some (if m.id = via.id && m.grantId = via.grantId then m else ⟨m.id, none⟩)) =
      mergeInto false (some via) (some m.id) m.grantId := by
  unfold columns mergeInto
  by_cases h : (m.id = via.id && m.grantId = via.grantId : Bool) = true
  · simp only [if_pos h, Option.map_some, Option.bind_some]
  · simp only [if_neg h, Option.map_some, Option.bind_some]

/-- One more connection is merged into the columns of those before it. -/
theorem columns_mergeConnections_append {via : AttachedConnection} :
    columns (mergeConnections (seen ++ [some via])) =
      mergeInto false (some via) (columns (mergeConnections seen)).1
        (columns (mergeConnections seen)).2 := by
  have hfold : mergeConnections (seen ++ [some via]) = match mergeConnections seen with
      | none => some via
      | some m => some (if m.id = via.id && m.grantId = via.grantId then m else ⟨m.id, none⟩) := by
    rw [mergeConnections, List.reduceOption_append, List.foldl_append]
    rfl
  rw [hfold]
  cases mergeConnections seen with
  | none => rfl
  | some m => exact columns_merged

/-- Every note keeps the columns those of the merge, and the side free of an unrecorded send until the
first. -/
theorem Notes.pair (h : Notes runId seq side L seen L') (hrow : L.row runId seq = some t)
    (hnull : side.pair t = (none, none)) (hunsent : side.unrecordedSend t = some false) :
    ∃ t', L'.row runId seq = some t' ∧ side.pair t' = columns (mergeConnections seen) ∧
      (side.id t' = none → side.unrecordedSend t' = some false) := by
  induction h with
  | start => exact ⟨t, hrow, hnull, fun _ => hunsent⟩
  | note via _ ih =>
    obtain ⟨t', hrow', hpair, hfree⟩ := ih
    cases via with
    | none => exact ⟨t', hrow', hpair.trans (congrArg columns mergeConnections_append_none).symm, hfree⟩
    | some via =>
      refine ⟨_, row_noteConnection.trans (congrArg _ hrow'), ?_, fun hid => ?_⟩
      · rw [pair_noteConnection_apply, columns_mergeConnections_append, ← hpair]
        unfold TargetSide.pair
        cases hid : side.id t' with
        | none => rw [hfree hid]; rfl
        | some i => rfl
      · have hset := congrArg Prod.fst (pair_noteConnection_apply side via t')
        rw [show (side.pair _).1 = side.id _ from rfl, hid] at hset
        unfold mergeInto at hset
        cases hold : side.id t' with
        | none => rw [hold] at hset; exact absurd hset (by simp)
        | some i => rw [hold] at hset; exact absurd hset (by simp)
  | other _ hmid hend hsame hsent ih =>
    obtain ⟨t', hrow', hpair, hfree⟩ := ih
    obtain rfl := Option.some.inj (hmid.symm.trans hrow')
    refine ⟨_, hend, hsame.trans hpair, fun hid => ?_⟩
    have hid' := (congrArg Prod.fst hsame).symm.trans hid
    exact (hsent hid').trans (hfree hid')

/-- A grant that was lost never comes back. -/
theorem Notes.grant_lost (h : Notes runId seq side L seen L') (hrow : L.row runId seq = some t)
    (hid : (side.id t).isSome) (hlost : side.grant t = none) :
    ∃ t', L'.row runId seq = some t' ∧ (side.id t').isSome ∧ side.grant t' = none := by
  induction h with
  | start => exact ⟨t, hrow, hid, hlost⟩
  | note via _ ih =>
    obtain ⟨t', hrow', hid', hlost'⟩ := ih
    cases via with
    | none => exact ⟨t', hrow', hid', hlost'⟩
    | some via =>
      refine ⟨_, row_noteConnection.trans (congrArg _ hrow'), ?_⟩
      obtain ⟨i, hi⟩ := Option.isSome_iff_exists.1 hid'
      have hset := pair_noteConnection_apply side via t'
      rw [hi, hlost'] at hset
      simp only [mergeInto, ite_self, TargetSide.pair, Prod.mk.injEq] at hset
      exact ⟨by rw [hset.1]; rfl, hset.2⟩
  | other _ hmid hend hsame _ ih =>
    obtain ⟨t', hrow', hid', hlost'⟩ := ih
    obtain rfl := Option.some.inj (hmid.symm.trans hrow')
    simp only [TargetSide.pair, Prod.mk.injEq] at hsame
    exact ⟨_, hend, hsame.1 ▸ hid', hsame.2.trans hlost'⟩

end All

/-- The connections noted for one side of a target leave their merge in its columns, and a grant that
became unknown stays so, whatever is noted after. -/
theorem pair_noteConnection {runId : String} {seq : ℕ} {side : TargetSide} {L L' : Ledger} {t : Target}
    {seen : List (Option AttachedConnection)} (hrow : L.row runId seq = some t)
    (hnull : side.pair t = (none, none)) (hunsent : side.unrecordedSend t = some false)
    (h : Notes runId seq side L seen L') :
    ∃ t', L'.row runId seq = some t' ∧ side.pair t' = columns (mergeConnections seen) ∧
      ((side.id t').isSome → side.grant t' = none → ∀ more L'', Notes runId seq side L' more L'' →
        ∃ t'', L''.row runId seq = some t'' ∧ side.grant t'' = none) := by
  obtain ⟨t', hrow', hpair, -⟩ := h.pair hrow hnull hunsent
  refine ⟨t', hrow', hpair, fun hid hlost more L'' hmore => ?_⟩
  obtain ⟨t'', hrow'', -, hlost''⟩ := hmore.grant_lost hrow' hid hlost
  exact ⟨t'', hrow'', hlost''⟩

theorem seq_nodup_oneTarget : ([plainTarget 0 "/items/1"].map Target.seq).Nodup :=
  List.nodup_singleton _

/-- A run with one target. -/
def notedLedger : Ledger where
  runs := [plainRun "http:host" false [plainTarget 0 "/items/1"] seq_nodup_oneTarget]
  id_nodup := List.nodup_singleton _

/-- A write under two grants holds data of both. -/
theorem pair_noteConnection_two_grants :
    ∃ t', ((notedLedger.noteConnection "r" 0 .write (some ⟨"shop", some "g1"⟩)).noteConnection "r" 0 .write
        (some ⟨"shop", some "g2"⟩)).row "r" 0 = some t' ∧
      TargetSide.write.pair t' =
        columns (mergeConnections [some ⟨"shop", some "g1"⟩, some ⟨"shop", some "g2"⟩]) ∧
      ((TargetSide.write.id t').isSome → TargetSide.write.grant t' = none → ∀ more L'',
        Notes "r" 0 .write ((notedLedger.noteConnection "r" 0 .write
          (some ⟨"shop", some "g1"⟩)).noteConnection
          "r" 0 .write (some ⟨"shop", some "g2"⟩)) more L'' →
        ∃ t'', L''.row "r" 0 = some t'' ∧ TargetSide.write.grant t'' = none) :=
  pair_noteConnection (L := notedLedger) (t := plainTarget 0 "/items/1") rfl rfl rfl
    (.note (some ⟨"shop", some "g2"⟩) (.note (some ⟨"shop", some "g1"⟩) .start))

example : columns (mergeConnections [some ⟨"shop", some "g1"⟩, none, some ⟨"shop", some "g2"⟩]) =
    (some "shop", none) := by
  decide

end Lynox.Bulk
