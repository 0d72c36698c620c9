import Lynox.Backup.Placed
import Lynox.Data.Throws

/-!
# Databases across an interrupted restore

A database is its file and the write-ahead log beside it at the same path; opening it replays the
log onto the file. A restore renames a file of the backup over the live one and leaves the log where
it is, so from that rename on the log of the old file is replayed onto the new one. `Harmless` says
that this changes nothing. The databases are whole at every point a restore may stop at exactly
where every log beside a database that is swapped in is harmless
(`restore_keeps_databases_whole_iff`).

How a log is replayed is a parameter, except for the failing input, where it puts pages over pages.
-/

namespace Lynox.Backup

open Text Program Throwing

variable {β : Type}

/-- The files of a backup, as they are read from it : the data directory's and the workspace's. The
manifest was checked : each path is one of the inventory, and none is named twice. -/
structure Archive (β : Type) where
  dataDir : List (Path × β)
  workspace : List (Path × β)
  backedUp : ∀ e ∈ dataDir, isBackedUpEntryPath e.1 = true
  distinct : (dataDir.map Prod.fst).Nodup

/-- Files that are read as they were when the backup was made. -/
def sourceOf (files : List (Path × β)) : List (Path × Step β β) :=
  files.map fun e => (e.1, Throwing.ret e.2)

theorem map_fst_sourceOf (files : List (Path × β)) :
    (sourceOf files).map Prod.fst = files.map Prod.fst := by
  rw [sourceOf, List.map_map]
  rfl

/-- The log beside a database. -/
def logPath (name : Path) : Path :=
  name ++ utf16 "-wal"

/-- What a database is opened with : its file with its log replayed onto it. -/
def reopened (replay : β → β → β) (live : Target → Option β) (name : Path) : Option β :=
  (live ⟨.dataDir, name⟩).map fun file =>
    match live ⟨.dataDir, logPath name⟩ with
    | none => file
    | some log => replay log file

/-- Each database is as it was before, or as the backup has it. -/
def Whole (replay : β → β → β) (backup : Archive β) (live live' : Target → Option β) : Prop :=
  ∀ name ∈ BACKUP_SQLITE_DBS, reopened replay live' name = reopened replay live name ∨
    ∃ data, (name, data) ∈ backup.dataDir ∧ reopened replay live' name = some data

/-- The log of the live database, replayed onto the file of the backup, gives the backup's content,
or the one before the restore. -/
def Harmless (replay : β → β → β) (backup : Archive β) (live : Target → Option β) : Prop :=
  ∀ name ∈ BACKUP_SQLITE_DBS, ∀ data, (name, data) ∈ backup.dataDir → ∀ log,
    live ⟨.dataDir, logPath name⟩ = some log →
      replay log data = data ∨ some (replay log data) = reopened replay live name

/-- The staging and the swap of a backup. -/
def restoreArchive (byHandle : Bool) (sidecar : Option JsString) (backup : Archive β) : Step β Nat :=
  restoreFrom byHandle sidecar (sourceOf backup.dataDir) (sourceOf backup.workspace)

/-- Both sets of a backup get past the staging. -/
def Archive.Accepted (backup : Archive β) (byHandle : Bool) (sidecar : Option JsString) : Prop :=
  Backup.Accepted byHandle sidecar (backup.dataDir.map Prod.fst) (backup.workspace.map Prod.fst)

/-! ## Databases and their logs -/

theorem not_reserved_database : ∀ name ∈ BACKUP_SQLITE_DBS, isReserved ⟨.dataDir, name⟩ = false ∧
    isReserved ⟨.dataDir, logPath name⟩ = false ∧ isBackedUpEntryPath (logPath name) = false := by
  decide

/-! ## Harmless logs are enough -/

section Enough

variable {replay : β → β → β} {backup : Archive β} {live : Target → Option β} {d : Disk β}

/-- A file of the data directory is put in place as the backup has it. -/
def FromBackup (backup : Archive β) (target : Target) (data : β) : Prop :=
  target.root = .dataDir → (target.rel, data) ∈ backup.dataDir

/-- A log is never put in place. -/
theorem live_log (h : Kept (FromBackup backup) live d) {name : Path} (hname : name ∈ BACKUP_SQLITE_DBS) :
    d.live ⟨.dataDir, logPath name⟩ = live ⟨.dataDir, logPath name⟩ := by
  obtain ⟨-, hreserved, hnot⟩ := not_reserved_database name hname
  rcases h.live _ hreserved with hsame | ⟨data, hmem, -⟩
  · exact hsame
  · have hbacked := backup.backedUp _ (h.swapped _ hmem rfl)
    rw [hnot] at hbacked
    exact absurd hbacked (by decide)

/-- A database is as it was, or its file is the backup's. -/
theorem reopened_cases (h : Kept (FromBackup backup) live d) {name : Path}
    (hname : name ∈ BACKUP_SQLITE_DBS) : reopened replay d.live name = reopened replay live name ∨
      ∃ data, (name, data) ∈ backup.dataDir ∧ d.swapped ≠ [] ∧ d.live ⟨.dataDir, name⟩ = some data := by
  rcases h.live _ (not_reserved_database name hname).1 with hsame | ⟨data, hmem, hdata⟩
  · refine .inl ?_
    rw [reopened, reopened, hsame, live_log h hname]
  · exact .inr ⟨data, h.swapped _ hmem rfl, List.ne_nil_of_mem hmem, hdata⟩

theorem whole_of_harmless (h : Kept (FromBackup backup) live d)
    (hharmless : d.swapped ≠ [] → Harmless replay backup live) : Whole replay backup live d.live := by
  intro name hname
  rcases reopened_cases h hname with hsame | ⟨data, hmem, hswapped, hdata⟩
  · exact .inl hsame
  · have hreopened : reopened replay d.live name = some (match live ⟨.dataDir, logPath name⟩ with
        | none => data
        | some log => replay log data) := by
      rw [reopened, hdata, live_log h hname]
      rfl
    rcases hlog : live ⟨.dataDir, logPath name⟩ with _ | log
    · rw [hlog] at hreopened
      exact .inr ⟨data, hmem, hreopened⟩
    · rw [hlog] at hreopened
      rcases hharmless hswapped name hname data hmem log hlog with hback | hbefore
      · exact .inr ⟨data, hmem, hreopened.trans (congrArg some hback)⟩
      · exact .inl (hreopened.trans hbefore)

/-- A rename is issued only where both sets were accepted, and a temp is written as the backup has it. -/
def Guarded (backup : Archive β) (accepted : Prop) : Op β → Prop
  | .writeTemp target data => FromBackup backup target data
  | .rename _ => accepted
  | _ => True

theorem careful_restoreArchive (byHandle : Bool) (sidecar : Option JsString) (backup : Archive β) :
    CarefulOr (Guarded backup (backup.Accepted byHandle sidecar)) (fun _ => True)
      (restoreArchive byHandle sidecar backup) := by
  refine carefulOr_restoreFrom (fun o hwrite hrename => ?_) (fun haccepted _ => ?_) (fun e he => ?_)
    fun e he => ?_
  · cases o with
    | writeTemp target data => exact absurd rfl (hwrite target data)
    | rename id => exact absurd rfl (hrename id)
    | _ => trivial
  · rwa [map_fst_sourceOf, map_fst_sourceOf] at haccepted
  · obtain ⟨file, hfile, rfl⟩ := List.mem_map.1 he
    exact carefulOr_pure fun _ => hfile
  · obtain ⟨file, hfile, rfl⟩ := List.mem_map.1 he
    exact carefulOr_pure fun hroot => nomatch hroot

/-- What holds wherever a restore stops. -/
theorem kept_restoreArchive (byHandle : Bool) (sidecar : Option JsString) (backup : Archive β)
    (live : Target → Option β) (choices : List (Choice β)) :
    let d := (stopped perform choices (restoreArchive byHandle sidecar backup) (Disk.start live)).2
    Kept (FromBackup backup) live d ∧ (d.swapped ≠ [] → backup.Accepted byHandle sidecar) := by
  refine Careful.stopped (I := fun d => Kept (FromBackup backup) live d ∧
    (d.swapped ≠ [] → backup.Accepted byHandle sidecar)) (fun d o c hI ho => ?_)
    (careful_restoreArchive byHandle sidecar backup)
    ⟨kept_start _ live, fun hne => absurd rfl hne⟩
  refine ⟨hI.1.perform (fun _ _ hwrite => by subst hwrite; exact ho) c, fun hne => ?_⟩
  by_cases hbefore : d.swapped = []
  · cases o with
    | rename id => exact ho
    | writeTemp target data =>
      unfold perform at hne
      dsimp only at hne
      split at hne <;> exact absurd hbefore hne
    | unlinkTemp id =>
      unfold perform at hne
      dsimp only at hne
      split at hne <;> exact absurd hbefore hne
    | _ => exact absurd hbefore hne
  · exact hI.2 hbefore

end Enough

/-! ## A restore that nothing stops -/

section Good

variable {root : Root} {rel : Path} {data : β} {d d' d'' : Disk β} {files : List (Path × β)}
  {staged : List Staged} {κ : Type}

/-- A temp was written, and nothing else was changed that is not reserved. -/
structure Wrote (root : Root) (rel : Path) (data : β) (d d' : Disk β) : Prop where
  next : d'.next = d.next + 1
  temp : d'.tempOf d.next = some ⟨⟨root, rel⟩, data⟩
  others : ∀ id, id ≠ d.next → d'.tempOf id = d.tempOf id
  live : ∀ target, isReserved target = false → d'.live target = d.live target

theorem performed_writeTemp (root : Root) (rel : Path) (data : β) (d : Disk β) :
    ∃ d', performed perform Choice.good (attempt (.writeTemp ⟨root, rel⟩ data) rfl : Step β Nat) d =
      (.ok d.next, d') ∧ Wrote root rel data d d' := by
  refine ⟨{ d with temps := (d.next, ⟨⟨root, rel⟩, data⟩) :: d.temps, next := d.next + 1 }, rfl, rfl, ?_,
    fun id hid => ?_, fun _ _ => rfl⟩
  · simp [Disk.tempOf]
  · simp [Disk.tempOf, Ne.symm hid]

theorem performed_stageInOne {keys keys' : StageKeys} (h : stagePath keys rel = .ok keys') :
    ∃ d', performed perform Choice.good (stageInOne root keys rel (Throwing.ret data)) d =
      (.ok (keys', ⟨rel, d.next⟩), d') ∧ Wrote root rel data d d' := by
  obtain ⟨d', hwrite, hwrote⟩ := performed_writeTemp root rel data d
  refine ⟨d', ?_, hwrote⟩
  unfold stageInOne
  rw [performed_bind_ok (a := data) (t := d) rfl, h, performed_bind_ok (a := keys') (t := d) rfl,
    performed_bind_ok hwrite]
  rfl

theorem performed_stageByNameOne {swept swept' : List Path} (h : noteDir swept rel = .ok swept') :
    ∃ d', performed perform Choice.good (stageByNameOne swept rel (Throwing.ret data)) d =
      (.ok (swept', ⟨rel, d.next⟩), d') ∧ Wrote .dataDir rel data d d' := by
  obtain rfl := Except.ok.inj h
  unfold stageByNameOne
  rw [performed_bind_ok (a := data) (t := d) rfl]
  dsimp only
  by_cases hdir : swept.contains (dirOf rel)
  · rw [if_pos hdir, if_pos hdir]
    obtain ⟨d', hwrite, hwrote⟩ := performed_writeTemp .dataDir rel data d
    refine ⟨d', ?_, hwrote⟩
    rw [performed_bind_ok hwrite]
    rfl
  · rw [if_neg hdir, if_neg hdir]
    obtain ⟨d', hwrite, hwrote⟩ := performed_writeTemp .dataDir rel data (d.sweep fun _ => none)
    refine ⟨d', ?_, hwrote.next, hwrote.temp, hwrote.others, fun target ht => ?_⟩
    · rw [performed_bind_ok (a := ()) (t := d.sweep fun _ => none) rfl, performed_bind_ok hwrite]
      rfl
    · rw [hwrote.live target ht, live_sweep ht]

/-- The temps of staged files. -/
def Disk.Holds (d : Disk β) (root : Root) (staged : List Staged) (files : List (Path × β)) : Prop :=
  List.Forall₂ (fun s e => d.tempOf s.id = some ⟨⟨root, e.1⟩, e.2⟩) staged files

theorem Disk.Holds.keep (h : d.Holds root staged files)
    (hkeep : ∀ s ∈ staged, d'.tempOf s.id = d.tempOf s.id) : d'.Holds root staged files := by
  unfold Disk.Holds at *
  induction h with
  | nil => exact .nil
  | cons hse _ ih =>
    refine .cons ((hkeep _ List.mem_cons_self).trans hse) (ih fun s hs => ?_)
    exact hkeep s (List.mem_cons_of_mem _ hs)

/-- Files were staged, and nothing else was changed that is not reserved. -/
structure StagedAs (root : Root) (files : List (Path × β)) (staged : List Staged) (d d' : Disk β) :
    Prop where
  temps : d'.Holds root staged files
  ids : ∀ s ∈ staged, d.next ≤ s.id ∧ s.id < d'.next
  nodup : (staged.map (·.id)).Nodup
  next : d.next ≤ d'.next
  others : ∀ id < d.next, d'.tempOf id = d.tempOf id
  live : ∀ target, isReserved target = false → d'.live target = d.live target

theorem stagedAs_nil : StagedAs root [] [] d d where
  temps := .nil
  ids _ hs := absurd hs List.not_mem_nil
  nodup := List.nodup_nil
  next := le_rfl
  others _ _ := rfl
  live _ _ := rfl

theorem StagedAs.cons (h : StagedAs root files staged d' d'') (hwrote : Wrote root rel data d d') :
    StagedAs root ((rel, data) :: files) (⟨rel, d.next⟩ :: staged) d d'' where
  temps := by
    refine .cons ?_ h.temps
    rw [h.others d.next (by rw [hwrote.next]; exact Nat.lt_succ_self _)]
    exact hwrote.temp
  ids s hs := by
    have hnext := hwrote.next
    have hle := h.next
    rcases List.mem_cons.1 hs with rfl | hs
    · refine ⟨le_rfl, ?_⟩
      dsimp only
      omega
    · have hids := h.ids s hs
      omega
  nodup := by
    rw [List.map_cons, List.nodup_cons]
    refine ⟨fun hmem => ?_, h.nodup⟩
    obtain ⟨s, hs, hid⟩ := List.mem_map.1 hmem
    have hids := (h.ids s hs).1
    rw [hwrote.next] at hids
    dsimp only at hid
    omega
  next := by
    have hnext := hwrote.next
    have hle := h.next
    omega
  others id hid := by
    rw [h.others id (by rw [hwrote.next]; exact Nat.lt_succ_of_lt hid)]
    exact hwrote.others id (Nat.ne_of_lt hid)
  live target ht := (h.live target ht).trans (hwrote.live target ht)

/-- All the files are staged, where their paths pass the checks. -/
theorem performed_stageEach {one : κ → Path → Step β β → Step β (κ × Staged)}
    {check : κ → Path → Except JsString κ}
    (hone : ∀ keys rel data (d : Disk β) keys', check keys rel = .ok keys' →
      ∃ d', performed perform Choice.good (one keys rel (Throwing.ret data)) d =
        (.ok (keys', ⟨rel, d.next⟩), d') ∧ Wrote root rel data d d') :
    ∀ {files : List (Path × β)} {keys keys' : κ} (staged : List Staged) (d : Disk β),
      (files.map Prod.fst).foldlM check keys = .ok keys' →
        ∃ new d', performed perform Choice.good (stageEach one keys staged (sourceOf files)) d =
          (.ok (staged ++ new), d') ∧ StagedAs root files new d d'
  | [], _, _, staged, d, _ => ⟨[], d, by rw [List.append_nil]; rfl, stagedAs_nil⟩
  | (rel, data) :: files, keys, keys', staged, d, h => by
    rw [List.map_cons, List.foldlM_cons] at h
    obtain ⟨keys₁, hcheck, h⟩ := Throws.ok_of_bind h
    obtain ⟨d₁, hperformed, hwrote⟩ := hone keys rel data d keys₁ hcheck
    obtain ⟨new, d', hrest, hstaged⟩ := performed_stageEach hone (staged ++ [⟨rel, d.next⟩]) d₁ h
    refine ⟨⟨rel, d.next⟩ :: new, d', ?_, hstaged.cons hwrote⟩
    rw [List.append_assoc] at hrest
    exact (performed_bind_ok (performed_onThrow_ok hperformed)).trans hrest

theorem tempOf_swap {id id' : Nat} {temp : Temp β} (h : id' ≠ id) :
    (d.swap id temp).tempOf id' = d.tempOf id' := by
  unfold Disk.tempOf Disk.swap
  rw [List.find?_filter]
  congr 2
  funext e
  by_cases he : e.1 = id'
  · simp [he, h]
  · simp [he]

/-- The temps are all renamed. -/
theorem performed_commit (byName : Bool) (total : Nat) : ∀ {staged : List Staged} {files : List (Path × β)}
    {d : Disk β}, d.Holds root staged files → (staged.map (·.id)).Nodup →
      ∃ d', performed perform Choice.good (commit byName total staged) d = (.ok (), d') ∧
          (∀ id, id ∉ staged.map (·.id) → d'.tempOf id = d.tempOf id) ∧
          (∀ target, (∀ e ∈ files, target ≠ ⟨root, e.1⟩) → d'.live target = d.live target) ∧
          ((files.map Prod.fst).Nodup → ∀ e ∈ files, d'.live ⟨root, e.1⟩ = some e.2)
  | [], [], d, _, _ => ⟨d, rfl, fun _ _ => rfl, fun _ _ => rfl, fun _ _ he => absurd he List.not_mem_nil⟩
  | s :: staged, e :: files, d, htemps, hnodup => by
    obtain ⟨htemp, hrest⟩ := List.forall₂_cons.1 htemps
    rw [List.map_cons, List.nodup_cons] at hnodup
    have hswap : perform d (.rename s.id) Choice.good = (.ok (), d.swap s.id ⟨⟨root, e.1⟩, e.2⟩) := by
      unfold perform
      dsimp only
      rw [htemp]
      rfl
    have hrest' : (d.swap s.id ⟨⟨root, e.1⟩, e.2⟩).Holds root staged files := by
      refine Disk.Holds.keep hrest fun s' hs' => tempOf_swap fun hid => hnodup.1 ?_
      rw [← hid]
      exact List.mem_map_of_mem hs'
    obtain ⟨d', hperformed, hothers, hlive, hfiles⟩ := performed_commit byName total hrest' hnodup.2
    refine ⟨d', ?_, fun id hid => ?_, fun target ht => ?_, fun hdistinct f hf => ?_⟩
    · have hask := performed_ask perform JsString Choice.good (Op.rename s.id) d
      rw [hswap] at hask
      exact (performed_bind_ok hask).trans hperformed
    · rw [List.map_cons, List.mem_cons, not_or] at hid
      rw [hothers id hid.2, tempOf_swap hid.1]
    · rw [hlive target fun f hf => ht f (List.mem_cons_of_mem _ hf)]
      exact Function.update_of_ne (ht e List.mem_cons_self) ..
    · rw [List.map_cons, List.nodup_cons] at hdistinct
      rcases List.mem_cons.1 hf with rfl | hf
      · rw [hlive _ fun f' hf' heq => hdistinct.1 ?_]
        · exact Function.update_self ..
        · rw [(Target.mk.inj heq).2]
          exact List.mem_map_of_mem hf'
      · exact hfiles hdistinct.2 f hf

/-- Nothing was changed but what is reserved. -/
structure Swept (d d' : Disk β) : Prop where
  temps : ∀ id, d'.tempOf id = d.tempOf id
  next : d'.next = d.next
  live : ∀ target, isReserved target = false → d'.live target = d.live target

theorem swept_sweep (reserved : Target → Option β) : Swept d (d.sweep reserved) :=
  ⟨fun _ => rfl, rfl, fun _ ht => live_sweep ht reserved⟩

theorem Swept.trans (h : Swept d d') (h' : Swept d' d'') : Swept d d'' where
  temps id := (h'.temps id).trans (h.temps id)
  next := h'.next.trans h.next
  live target ht := (h'.live target ht).trans (h.live target ht)

theorem StagedAs.after (h : StagedAs root files staged d' d'') (hswept : Swept d d') :
    StagedAs root files staged d d'' where
  temps := h.temps
  ids s hs := hswept.next ▸ h.ids s hs
  nodup := h.nodup
  next := hswept.next ▸ h.next
  others id hid := (h.others id (hswept.next ▸ hid)).trans (hswept.temps id)
  live target ht := (h.live target ht).trans (hswept.live target ht)

theorem performed_checkTargets (d : Disk β) : ∀ paths : List Path,
    performed perform Choice.good (checkTargets paths : Step β Unit) d = (.ok (), d)
  | [] => rfl
  | path :: paths => by
    have hproblem : performed perform Choice.good
        (attempt (.liveTargetProblem path) rfl : Step β (Option JsString)) d = (.ok none, d) := rfl
    exact (performed_bind_ok hproblem).trans (performed_checkTargets d paths)

theorem performed_sweepDirs : ∀ (paths swept : List Path) (d : Disk β),
    ∃ d', performed perform Choice.good (sweepDirs swept paths : Step β Unit) d = (.ok (), d') ∧ Swept d d'
  | [], _, d => ⟨d, rfl, fun _ => rfl, rfl, fun _ _ => rfl⟩
  | path :: paths, swept, d => by
    change ∃ d', performed perform Choice.good (if swept.contains (dirOf path) then sweepDirs swept paths
      else do
        attempt (.removeStagingTemps (dirOf path)) rfl
        sweepDirs (dirOf path :: swept) paths : Step β Unit) d = (.ok (), d') ∧ Swept d d'
    split
    · exact performed_sweepDirs paths swept d
    · have hsweep : performed perform Choice.good
          (attempt (.removeStagingTemps (dirOf path)) rfl : Step β Unit) d =
            (.ok (), d.sweep fun _ => none) := rfl
      obtain ⟨d', hrest, hswept⟩ := performed_sweepDirs paths (dirOf path :: swept) (d.sweep fun _ => none)
      exact ⟨d', (performed_bind_ok hsweep).trans hrest, (swept_sweep _).trans hswept⟩

theorem performed_stageIn (root : Root) (h : Stageable (files.map Prod.fst)) (d : Disk β) :
    ∃ staged d', performed perform Choice.good (stageIn root (sourceOf files)) d = (.ok staged, d') ∧
      StagedAs root files staged d d' := by
  obtain ⟨keys, hkeys⟩ := h
  obtain ⟨new, d', hperformed, hstaged⟩ :=
    performed_stageEach (fun _ _ _ _ _ h => @performed_stageInOne _ root _ _ _ _ _ h) [] d hkeys
  exact ⟨new, d', hperformed, hstaged⟩

/-- The folder of a path is always noted. -/
theorem exists_noteDirs : ∀ (paths swept : List Path), ∃ swept', paths.foldlM noteDir swept = .ok swept'
  | [], swept => ⟨swept, rfl⟩
  | _ :: paths, _ => exists_noteDirs paths _

theorem performed_stageData {byHandle : Bool} (h : byHandle = true → Stageable (files.map Prod.fst))
    (d : Disk β) : ∃ staged d', performed perform Choice.good (stageData byHandle (sourceOf files)) d =
      (.ok staged, d') ∧ StagedAs .dataDir files staged d d' := by
  cases byHandle with
  | true =>
    obtain ⟨d₁, hsweep, hswept⟩ := performed_sweepDirs ((sourceOf files).map Prod.fst) [] d
    obtain ⟨staged, d', hperformed, hstaged⟩ := performed_stageIn .dataDir (h rfl) d₁
    exact ⟨staged, d', (performed_bind_ok hsweep).trans hperformed, hstaged.after hswept⟩
  | false =>
    obtain ⟨swept, hswept⟩ := exists_noteDirs (files.map Prod.fst) []
    obtain ⟨new, d', hperformed, hstaged⟩ :=
      performed_stageEach (fun _ _ _ _ _ h => performed_stageByNameOne h) [] d hswept
    exact ⟨new, d', hperformed, hstaged⟩

theorem performed_stageWorkspace {sidecar : Option JsString}
    (h : files.map Prod.fst = [] ∨ sidecar = none ∧ Stageable (files.map Prod.fst)) (d : Disk β) :
    ∃ staged d', performed perform Choice.good (stageWorkspace sidecar (sourceOf files)) d =
      (.ok staged, d') ∧ StagedAs .workspace files staged d d' := by
  unfold stageWorkspace
  rcases h with hempty | ⟨rfl, hstageable⟩
  · obtain rfl := List.map_eq_nil_iff.1 hempty
    exact ⟨[], d, rfl, stagedAs_nil⟩
  · split
    next hempty =>
      obtain rfl := List.map_eq_nil_iff.1 (List.isEmpty_iff.1 hempty)
      exact ⟨[], d, rfl, stagedAs_nil⟩
    · have hlease : performed perform Choice.good (attempt .leaseWorkspace rfl : Step β Unit) d =
          (.ok (), d) := rfl
      have hstale : performed perform Choice.good (attempt .removeStaleStages rfl : Step β Unit) d =
          (.ok (), d.sweep fun _ => none) := rfl
      obtain ⟨staged, d', hperformed, hstaged⟩ :=
        performed_stageIn .workspace hstageable (d.sweep fun _ => none)
      refine ⟨staged, d', ?_, hstaged.after (swept_sweep _)⟩
      exact (performed_bind_ok hlease).trans ((performed_bind_ok hstale).trans hperformed)

/-- A restore that is accepted puts every file of the data directory in place, if nothing stops it. -/
theorem performed_restoreArchive {byHandle : Bool} {sidecar : Option JsString} {backup : Archive β}
    (h : backup.Accepted byHandle sidecar) (d : Disk β) :
    ∀ e ∈ backup.dataDir, (performed perform Choice.good (restoreArchive byHandle sidecar backup) d).2.live
      ⟨.dataDir, e.1⟩ = some e.2 := by
  obtain ⟨dataStaged, d₁, hdata, hdataStaged⟩ := performed_stageData h.data d
  obtain ⟨workspaceStaged, d₂, hworkspace, hworkspaceStaged⟩ := performed_stageWorkspace h.workspace d₁
  have htemps : d₂.Holds .dataDir dataStaged backup.dataDir :=
    hdataStaged.temps.keep fun s hs => hworkspaceStaged.others s.id (hdataStaged.ids s hs).2
  obtain ⟨d₃, hcommit, hothers, -, hfiles⟩ :=
    performed_commit (!byHandle) dataStaged.length htemps hdataStaged.nodup
  have htemps' : d₃.Holds .workspace workspaceStaged backup.workspace := by
    refine hworkspaceStaged.temps.keep fun s hs => hothers s.id fun hmem => ?_
    obtain ⟨s', hs', hid⟩ := List.mem_map.1 hmem
    have hbefore := (hdataStaged.ids s' hs').2
    have hafter := (hworkspaceStaged.ids s hs).1
    omega
  obtain ⟨d₄, hcommit', -, hlive, -⟩ :=
    performed_commit false workspaceStaged.length htemps' hworkspaceStaged.nodup
  have hperformed : performed perform Choice.good (restoreArchive byHandle sidecar backup) d =
      (.ok (dataStaged.length + workspaceStaged.length), d₄) := by
    refine (performed_bind_ok (performed_checkTargets d _)).trans ?_
    refine (performed_bind_ok hdata).trans ?_
    refine (performed_bind_ok (performed_onThrow_ok hworkspace)).trans ?_
    refine (performed_bind_ok (performed_onThrow_ok hcommit)).trans ?_
    exact performed_bind_ok hcommit'
  intro e he
  rw [hperformed]
  refine (hlive _ fun f _ heq => ?_).trans (hfiles backup.distinct e he)
  exact absurd (Target.mk.inj heq).1 (by decide)

end Good

/-! ## Exactly the harmless logs -/

/-- Wherever a restore stops, the databases are whole, if and only if the staging refuses the backup
or every log beside a database that it swaps in is harmless. -/
theorem restore_keeps_databases_whole_iff (byHandle : Bool) (sidecar : Option JsString) (backup : Archive β)
    (replay : β → β → β) (live : Target → Option β) :
    (∀ choices : List (Choice β), Whole replay backup live
      (stopped perform choices (restoreArchive byHandle sidecar backup) (Disk.start live)).2.live) ↔
    (backup.Accepted byHandle sidecar → Harmless replay backup live) := by
  constructor
  · intro hwhole haccepted name hname data hmem log hlog
    obtain ⟨choices, hstopped⟩ := exists_stopped perform Choice.good
      (restoreArchive byHandle sidecar backup) (Disk.start live)
    have hkept := (kept_restoreArchive byHandle sidecar backup live choices).1
    have hlive := performed_restoreArchive haccepted (Disk.start live) (name, data) hmem
    have hcases := hwhole choices name hname
    have hlog' := live_log hkept hname
    rw [hstopped] at hcases hlog'
    have hreopened : reopened replay (performed perform Choice.good
        (restoreArchive byHandle sidecar backup) (Disk.start live)).2.live name =
          some (replay log data) := by
      rw [reopened, hlive, hlog', hlog]
      rfl
    rw [hreopened] at hcases
    rcases hcases with hbefore | ⟨data', hmem', hback⟩
    · exact .inr hbefore
    · have hsame := List.inj_on_of_nodup_map backup.distinct hmem' hmem rfl
      exact .inl ((Option.some.inj hback).trans (Prod.mk.inj hsame).2)
  · intro hharmless choices
    obtain ⟨hkept, haccepted⟩ := kept_restoreArchive byHandle sidecar backup live choices
    exact whole_of_harmless hkept fun hswapped => hharmless (haccepted hswapped)

/-- Pages with their content, as a file has them and as a log has them. -/
abbrev Pages := List (Nat × Nat)

/-- The pages of a log in place of those of the file. -/
def putPages (log file : Pages) : Pages :=
  log ++ file.filter fun page => (log.map Prod.fst).all (· ≠ page.1)

/-- A running instance wrote its second page to the log. -/
def liveWithLog (target : Target) : Option Pages :=
  if target = ⟨.dataDir, utf16 "engine.db"⟩ then some [(1, 10), (2, 20)]
  else if target = ⟨.dataDir, utf16 "engine.db-wal"⟩ then some [(2, 21)]
  else none

def backupOfEngine : Archive Pages where
  dataDir := [(utf16 "engine.db", [(1, 30), (2, 40)])]
  workspace := []
  backedUp := by decide
  distinct := by decide

/-- After the rename the second page is the one of the log, and the first is the backup's. -/
theorem log_is_replayed_onto_backup : ¬Whole putPages backupOfEngine liveWithLog
    (stopped perform (List.replicate 4 Choice.good) (restoreArchive true none backupOfEngine)
      (Disk.start liveWithLog)).2.live := by
  intro h
  rcases h (utf16 "engine.db") (by decide) with hbefore | ⟨data, hmem, hback⟩
  · exact absurd hbefore (by decide)
  · obtain rfl := (Prod.mk.inj (List.mem_singleton.1 hmem)).2
    exact absurd hback (by decide)

end Lynox.Backup
