import Lynox.Backup.Restore

/-!
# What a restore may put in place

The staging and the swapping of a restore, whatever it is answered. `carefulOr_restoreFrom` : where each
source loads only what may be written under its target, no temp is written with anything else, and nothing is
renamed unless the paths of both sets passed the checks of the staging (`Accepted`). `Kept` is what then holds
of the disk wherever the restore ends or dies : a target is as it was, or has what may be put there.
-/

namespace Lynox.Backup

open Text Program Throwing

variable {β : Type}

/-! ## Programs -/

section Careful

variable {G : Op β → Prop}

theorem carefulOr_orFail {α : Type} {r : Except JsString α} {Q : α → Prop} (h : ∀ a, r = .ok a → Q a) :
    CarefulOr G Q (orFail r : Step β α) := by
  cases r with
  | ok a => exact carefulOr_pure (h a rfl)
  | error e => exact carefulOr_fail

theorem carefulOr_attempt {α : Type} {o : Op β} (ho : Ans o = Except JsString α) (h : G o) :
    CarefulOr G (fun _ => True) (attempt o ho) :=
  (carefulOr_ask h).bind fun _ _ => carefulOr_orFail fun _ _ => trivial

theorem careful_removeTemps (h : ∀ id, G (.unlinkTemp id)) : ∀ staged : List Staged,
    Careful G (fun _ => True) (removeTemps staged)
  | [] => trivial
  | s :: staged => (careful_issue (h s.id)).bind fun _ _ => careful_removeTemps h staged

theorem carefulOr_commit (hrename : ∀ id, G (.rename id)) (hunlink : ∀ id, G (.unlinkTemp id))
    (byName : Bool) (total : Nat) : ∀ staged : List Staged,
      CarefulOr G (fun _ => True) (commit byName total staged)
  | [] => carefulOr_pure trivial
  | s :: rest => by
    refine (carefulOr_ask (hrename s.id)).bind fun answer _ => ?_
    cases answer with
    | ok _ => exact carefulOr_commit hrename hunlink byName total rest
    | error _ => exact CarefulOr.onThrow carefulOr_fail (careful_removeTemps hunlink _)

/-- The entries are staged only where each passed its `check`. -/
theorem carefulOr_stageEach {κ : Type} {one : κ → Path → Step β β → Step β (κ × Staged)}
    (check : κ → Path → Except JsString κ) (hunlink : ∀ id, G (.unlinkTemp id)) :
    ∀ {source : List (Path × Step β β)},
      (∀ e ∈ source, ∀ keys, CarefulOr G (fun r => check keys e.1 = .ok r.1) (one keys e.1 e.2)) →
        ∀ (keys : κ) (staged : List Staged), CarefulOr G
          (fun _ => ∃ keys', (source.map Prod.fst).foldlM check keys = .ok keys')
          (stageEach one keys staged source)
  | [], _, keys, _ => carefulOr_pure ⟨keys, rfl⟩
  | (rel, load) :: source, h, keys, staged => by
    refine ((h (rel, load) List.mem_cons_self keys).onThrow
      (careful_removeTemps hunlink staged)).bind fun r hr => ?_
    refine (carefulOr_stageEach check hunlink (fun e he => h e (List.mem_cons_of_mem _ he)) r.1
      (staged ++ [r.2])).mono ?_
    rintro _ ⟨keys', hkeys⟩
    refine ⟨keys', ?_⟩
    rw [List.map_cons, List.foldlM_cons, hr]
    exact hkeys

/-- The paths pass the checks of `stageIn`, one after the other. -/
def Stageable (paths : List Path) : Prop :=
  ∃ keys, paths.foldlM stagePath ⟨[], []⟩ = .ok keys

theorem carefulOr_stageIn {root : Root} {source : List (Path × Step β β)}
    (hunlink : ∀ id, G (.unlinkTemp id))
    (h : ∀ e ∈ source, CarefulOr G (fun data => G (.writeTemp ⟨root, e.1⟩ data)) e.2) :
    CarefulOr G (fun _ => Stageable (source.map Prod.fst)) (stageIn root source) := by
  refine carefulOr_stageEach stagePath hunlink (fun e he keys => ?_) _ _
  refine (h e he).bind fun data hdata => ?_
  refine (carefulOr_orFail fun _ h => h).bind fun keys hkeys => ?_
  exact (carefulOr_attempt rfl hdata).bind fun id _ => carefulOr_pure hkeys

/-- What is noted of the folder of a path that is staged by name. -/
def noteDir (swept : List Path) (rel : Path) : Except JsString (List Path) :=
  .ok (if swept.contains (dirOf rel) then swept else dirOf rel :: swept)

theorem carefulOr_stageByName {source : List (Path × Step β β)} (hunlink : ∀ id, G (.unlinkTemp id))
    (hsweep : ∀ dir, G (.removeStagingTemps dir))
    (h : ∀ e ∈ source, CarefulOr G (fun data => G (.writeTemp ⟨.dataDir, e.1⟩ data)) e.2) :
    CarefulOr G (fun _ => True) (stageByName source) := by
  refine (carefulOr_stageEach noteDir hunlink (fun e he swept => ?_) _ _).mono
    fun _ _ => trivial
  refine (h e he).bind fun data hdata => ?_
  unfold noteDir
  dsimp only
  split
  · exact (carefulOr_attempt rfl hdata).bind fun id _ => carefulOr_pure rfl
  · refine (carefulOr_attempt rfl (hsweep _)).bind fun _ _ => ?_
    exact (carefulOr_attempt rfl hdata).bind fun id _ => carefulOr_pure rfl

theorem carefulOr_checkTargets (htarget : ∀ path, G (.liveTargetProblem path)) : ∀ paths : List Path,
    CarefulOr G (fun _ => True) (checkTargets paths : Step β Unit)
  | [] => carefulOr_pure trivial
  | path :: paths => by
    refine (carefulOr_attempt rfl (htarget path)).bind fun problem _ => ?_
    cases problem with
    | none => exact carefulOr_checkTargets htarget paths
    | some problem => exact carefulOr_fail

theorem carefulOr_sweepDirs (hsweep : ∀ dir, G (.removeStagingTemps dir)) : ∀ paths swept : List Path,
    CarefulOr G (fun _ => True) (sweepDirs swept paths : Step β Unit)
  | [], _ => carefulOr_pure trivial
  | path :: paths, swept => by
    change CarefulOr G _ (if swept.contains (dirOf path) then sweepDirs swept paths
      else do
        attempt (.removeStagingTemps (dirOf path)) rfl
        sweepDirs (dirOf path :: swept) paths : Step β Unit)
    split
    · exact carefulOr_sweepDirs hsweep paths swept
    · exact (carefulOr_attempt rfl (hsweep _)).bind fun _ _ => carefulOr_sweepDirs hsweep paths _

/-- Both sets get past the staging : the paths pass its checks, and no workspace is staged in sidecar
mode. -/
structure Accepted (byHandle : Bool) (sidecar : Option JsString) (dataPaths workspacePaths : List Path) :
    Prop where
  data : byHandle = true → Stageable dataPaths
  workspace : workspacePaths = [] ∨ sidecar = none ∧ Stageable workspacePaths

/-- Both sets, where an operation that neither writes a temp nor renames one may always be issued, and a
rename where both sets are accepted. -/
theorem carefulOr_restoreFrom {byHandle : Bool} {sidecar : Option JsString}
    {dataSource workspaceSource : List (Path × Step β β)}
    (hG : ∀ o, (∀ target data, o ≠ .writeTemp target data) → (∀ id, o ≠ .rename id) → G o)
    (hrename : Accepted byHandle sidecar (dataSource.map Prod.fst) (workspaceSource.map Prod.fst) →
      ∀ id, G (.rename id))
    (hdata : ∀ e ∈ dataSource, CarefulOr G (fun data => G (.writeTemp ⟨.dataDir, e.1⟩ data)) e.2)
    (hworkspace : ∀ e ∈ workspaceSource,
      CarefulOr G (fun data => G (.writeTemp ⟨.workspace, e.1⟩ data)) e.2) :
    CarefulOr G (fun _ => True) (restoreFrom byHandle sidecar dataSource workspaceSource) := by
  have hunlink : ∀ id, G (.unlinkTemp id) := fun id => hG _ (by simp) (by simp)
  have hsweep : ∀ dir, G (.removeStagingTemps dir) := fun dir => hG _ (by simp) (by simp)
  have hstage : CarefulOr G (fun _ => byHandle = true → Stageable (dataSource.map Prod.fst))
      (stageData byHandle dataSource) := by
    cases byHandle with
    | true =>
      exact (carefulOr_sweepDirs hsweep _ []).bind fun _ _ =>
        (carefulOr_stageIn hunlink hdata).mono fun _ h _ => h
    | false => exact (carefulOr_stageByName hunlink hsweep hdata).mono fun _ _ h => nomatch h
  have hstageWorkspace : CarefulOr G (fun _ => workspaceSource.map Prod.fst = [] ∨
      sidecar = none ∧ Stageable (workspaceSource.map Prod.fst))
      (stageWorkspace sidecar workspaceSource) := by
    unfold stageWorkspace stageWorkspaceIn
    split
    next hempty => exact carefulOr_pure (.inl (by rw [List.isEmpty_iff.1 hempty]; rfl))
    · cases sidecar with
      | some refusal => exact carefulOr_fail
      | none =>
        refine (carefulOr_attempt rfl (hG _ (by simp) (by simp))).bind fun _ _ => ?_
        refine (carefulOr_attempt rfl (hG _ (by simp) (by simp))).bind fun _ _ => ?_
        exact (carefulOr_stageIn hunlink hworkspace).mono fun _ h => .inr ⟨rfl, h⟩
  refine (carefulOr_checkTargets (fun path => hG _ (by simp) (by simp)) _).bind fun _ _ => ?_
  refine hstage.bind fun dataStaged hdataStaged => ?_
  refine (hstageWorkspace.onThrow (careful_removeTemps hunlink _)).bind fun workspaceStaged hws => ?_
  have hrename := hrename ⟨hdataStaged, hws⟩
  refine ((carefulOr_commit hrename hunlink _ _ _).onThrow
    (careful_removeTemps hunlink _)).bind fun _ _ => ?_
  exact (carefulOr_commit hrename hunlink _ _ _).bind fun _ _ => carefulOr_pure trivial

end Careful

/-! ## The disk -/

/-- What is kept while a restore goes on, where `P` says what may be put where : its temps may be
put in place, what was swapped in might be, and a target that nothing was swapped in for is as it
was, unless its name is reserved. -/
structure Kept (P : Target → β → Prop) (live : Target → Option β) (d : Disk β) : Prop where
  temps : ∀ e ∈ d.temps, P e.2.target e.2.data
  swapped : ∀ e ∈ d.swapped, P e.1 e.2
  live : ∀ target, isReserved target = false → d.live target = live target ∨
    ∃ data, (target, data) ∈ d.swapped ∧ d.live target = some data

section Kept

variable {P : Target → β → Prop} {live : Target → Option β} {d : Disk β}

theorem kept_start (P : Target → β → Prop) (live : Target → Option β) : Kept P live (Disk.start live) where
  temps _ he := absurd he List.not_mem_nil
  swapped _ he := absurd he List.not_mem_nil
  live _ _ := .inl rfl

theorem live_sweep {target : Target} (ht : isReserved target = false) (reserved : Target → Option β) :
    (d.sweep reserved).live target = d.live target := by
  simp [Disk.sweep, ht]

theorem Kept.sweep (h : Kept P live d) (reserved : Target → Option β) :
    Kept P live (d.sweep reserved) where
  temps := h.temps
  swapped := h.swapped
  live target ht := by
    rw [live_sweep ht]
    exact h.live target ht

theorem Kept.swap (h : Kept P live d) {id : Nat} {temp : Temp β} (htemp : d.tempOf id = some temp) :
    Kept P live (d.swap id temp) where
  temps e he := h.temps e (List.mem_of_mem_filter he)
  swapped e he := by
    obtain ⟨e', he', rfl⟩ := Option.map_eq_some_iff.1 htemp
    rcases List.mem_append.1 he with he | he
    · exact h.swapped e he
    · rw [List.mem_singleton.1 he]
      exact h.temps e' (List.mem_of_find?_eq_some he')
  live target ht := by
    by_cases htarget : target = temp.target
    · refine .inr ⟨temp.data, ?_, ?_⟩
      · rw [htarget]
        exact List.mem_append_right _ List.mem_cons_self
      · rw [htarget]
        exact Function.update_self ..
    · have hsame : (d.swap id temp).live target = d.live target := Function.update_of_ne htarget ..
      rw [hsame]
      rcases h.live target ht with hlive | ⟨data, hmem, hlive⟩
      · exact .inl hlive
      · exact .inr ⟨data, List.mem_append_left _ hmem, hlive⟩

/-- Every operation keeps it, where a temp is written with what may be put in place. -/
theorem Kept.perform (h : Kept P live d) {o : Op β}
    (ho : ∀ target data, o = .writeTemp target data → P target data)
    (c : Choice β) : Kept P live (perform d o c).2 := by
  cases o with
  | namesFold root dir => exact h.sweep _
  | removeStagingTemps dir => exact h.sweep _
  | removeStaleStages => exact h.sweep _
  | writeTemp target data =>
    unfold Backup.perform
    dsimp only
    split
    · refine ⟨fun e he => ?_, h.swapped, h.live⟩
      rcases List.mem_cons.1 he with rfl | he
      · exact ho target data rfl
      · exact h.temps e he
    · exact h
  | unlinkTemp id =>
    unfold Backup.perform
    dsimp only
    split
    · exact ⟨fun e he => h.temps e (List.mem_of_mem_filter he), h.swapped, h.live⟩
    · exact h
  | rename id =>
    unfold Backup.perform
    dsimp only
    split
    next htemp => exact h.swap htemp
    · exact h
    · exact h
  | _ => exact h

end Kept

end Lynox.Backup
