import Lynox.Changeset.Manager

/-!
# A rollback restores and destroys nothing else

What a manager knows of a path (`look`) is what one step for the path put there : its entry at the first
backup, its bytes then, the identity the run last left. It agrees with the disk's history (`Sound`), so a
rollback leaves at each path what it held before, and removes a file only where the run's own is still
there (`rollback_restores`).
-/

namespace Lynox.Changeset

open Text

variable {sha256 : Bytes → JsString} {m : ChangesetManager} {env : Env} {disk : Disk} {abs p : Path}

/-! ## Identities -/

/-- No two files have one digest, and a digest is hexadecimal. -/
structure IdealHash (sha256 : Bytes → JsString) : Prop where
  injective : Function.Injective sha256
  hex : ∀ bytes, ∀ u ∈ sha256 bytes, (hexVal u).isSome = true

/-- The same inode, as far as numbers of the language tell, with the same bytes. -/
def File.SameAs (file file' : File) : Prop :=
  asNumber file.dev = asNumber file'.dev ∧ asNumber file.ino = asNumber file'.ino ∧
    file.bytes = file'.bytes

/-- One identity is that of one file, where a time is that of one change. -/
theorem File.sameAs_of_identity (h : IdealHash sha256) {file file' : File}
    (hid : file.identity sha256 = file'.identity sha256)
    (htime : file.ctimeNs = file'.ctimeNs → file = file') : file.SameAs file' := by
  obtain ⟨hdev, hino, hhash⟩ := Identity.mk.inj hid
  have hbytes : file.bytes = file'.bytes := by
    have hcap : ∀ bytes size time, sha256 bytes ≠
        utf16 "over-cap:" ++ shownDigits size ++ utf16 ":" ++ shownDigits time := by
      intro bytes size time heq
      have hhex := h.hex bytes 0x6F (heq ▸ List.mem_cons_self)
      exact absurd hhex (by decide)
    by_cases hlarge : FILE_TOOL_READ_CAP_BYTES < file.bytes.length
    · by_cases hlarge' : FILE_TOOL_READ_CAP_BYTES < file'.bytes.length
      · rw [if_pos hlarge, if_pos hlarge'] at hhash
        have hcolon : shownDigits file.bytes.length ++ 0x3A :: shownDigits file.ctimeNs =
            shownDigits file'.bytes.length ++ 0x3A :: shownDigits file'.ctimeNs := by
          rw [List.append_assoc, List.append_assoc, List.append_assoc, List.append_assoc] at hhash
          exact List.append_cancel_left hhash
        have htimes := (append_colon_inj (bare_digits _) (bare_digits _) hcolon).2
        rw [htime (shownDigits_inj htimes)]
      · rw [if_pos hlarge, if_neg hlarge'] at hhash
        exact absurd hhash.symm (hcap _ _ _)
    · by_cases hlarge' : FILE_TOOL_READ_CAP_BYTES < file'.bytes.length
      · rw [if_neg hlarge, if_pos hlarge'] at hhash
        exact absurd hhash (hcap _ _ _)
      · rw [if_neg hlarge, if_neg hlarge'] at hhash
        exact h.injective hhash
  exact ⟨hdev, hino, hbytes⟩

/-! ## What the manager knows of a path -/

@[ext] structure Look where
  entry : Option ChangesetEntry
  original : Option Bytes
  written : Option Identity

namespace ChangesetManager

def look (m : ChangesetManager) (p : Path) : Look :=
  { entry := Assoc.get m.entries p
    original := Assoc.get m.originalBytes p
    written := Assoc.get m.written p }

theorem withTracked_eq_none (h : m.withTracked env disk abs = none) (file : File) :
    disk.files abs = some file → (∃ ws, env.held abs ws = false) ∨ env.confined abs = false ∨
      env.opens abs = false := by
  intro hfile
  unfold withTracked at h
  split at h
  · next ws _ =>
    cases hheld : env.held abs ws with
    | false => exact .inl ⟨ws, hheld⟩
    | true =>
      cases hopens : env.opens abs with
      | false => exact .inr (.inr rfl)
      | true =>
        rw [hheld, hopens] at h
        cases h.symm.trans hfile
  · cases hconfined : env.confined abs with
    | false => exact .inr (.inl rfl)
    | true =>
      cases hopens : env.opens abs with
      | false => exact .inr (.inr rfl)
      | true =>
        rw [hconfined, hopens] at h
        cases h.symm.trans hfile

theorem files_of_withTracked {file : File} (h : m.withTracked env disk abs = some file) :
    disk.files abs = some file := by
  unfold withTracked at h
  split at h
  · split at h
    · exact h
    · cases h
  · split at h
    · exact h
    · cases h

/-- What a path is after its first backup. -/
inductive Backed (env : Env) (disk : Disk) (p : Path) (ws : Option Workspace) (before : Look) :
    Look → Prop
  | added (h : (ws.isSome → disk.files p = none) ∧ (ws = none → env.existsSync p = false)) :
      Backed env disk p ws before { before with entry := some ⟨none, .added⟩ }
  | unreadable (h : (ws.isSome → env.statFails p = true ∨ disk.files p ≠ none) ∧
      (ws = none → env.existsSync p = true))
      (hunread : ∀ file, disk.files p = some file → (∃ ws, env.held p ws = false) ∨
        env.confined p = false ∨ env.opens p = false) :
      Backed env disk p ws before { before with entry := some ⟨none, .modified⟩ }
  | saved (file : File) (h : disk.files p = some file) :
      Backed env disk p ws before
        { before with
          entry := some ⟨some (decode file.bytes), .modified⟩
          original := some file.bytes }

theorem look_track (m : ChangesetManager) (abs p : Path) (entry : ChangesetEntry) :
    (m.track abs entry).look p =
      if p = abs then { m.look p with entry := some entry } else m.look p := by
  by_cases hp : p = abs
  · simp [look, track, hp]
  · simp [look, track, hp, Assoc.get_set_of_ne]

theorem presentAnchored_spec {m : ChangesetManager} {ws : Workspace}
    (hanchored : Assoc.get m.anchored abs = some ws) {present : Bool}
    (h : m.presentAnchored env disk abs = some present) :
    if present then env.statFails abs = true ∨ disk.files abs ≠ none else disk.files abs = none := by
  unfold presentAnchored at h
  rw [hanchored] at h
  dsimp only at h
  split at h
  · exact nomatch h
  · split at h
    · next hstat =>
      obtain rfl := Option.some.inj h
      exact .inl hstat
    · obtain rfl := Option.some.inj h
      cases hfile : disk.files abs with
      | none => simp
      | some file => simp

/-- Whether a path is there, where its backup asks. -/
theorem present_spec {m : ChangesetManager} {ws : Option Workspace} {present : Bool}
    (h : (match ws with
      | some _ => presentAnchored
          { m with anchored := ws.elim m.anchored (Assoc.set m.anchored abs) } env disk abs
      | none => some (env.existsSync abs)) = some present) :
    (ws.isSome → if present then env.statFails abs = true ∨ disk.files abs ≠ none
      else disk.files abs = none) ∧ (ws = none → env.existsSync abs = present) := by
  cases ws with
  | none => exact ⟨fun hsome => (nomatch hsome), fun _ => Option.some.inj h⟩
  | some ws => exact ⟨fun _ => presentAnchored_spec Assoc.get_set_self h, fun hnone => nomatch hnone⟩

theorem look_backup (m : ChangesetManager) (env : Env) (disk : Disk) (filePath p : Path) :
    (m.backupBeforeWrite env disk filePath).2.look p = m.look p ∨
      ((m.look p).entry = none ∧ ∃ ws, env.locate filePath = .tracked p ws ∧
        Backed env disk p ws (m.look p) ((m.backupBeforeWrite env disk filePath).2.look p)) := by
  unfold backupBeforeWrite
  dsimp only
  split
  · exact .inl rfl
  · exact .inl rfl
  · next abs ws hlocate =>
    split
    · exact .inl rfl
    · next hfresh =>
      have hnone : Assoc.get m.entries abs = none := by simpa using hfresh
      split
      · exact .inl rfl
      · next hpresent =>
        rw [look_track]
        split
        · next hp =>
          subst hp
          exact .inr ⟨hnone, ws, hlocate, .added (present_spec hpresent)⟩
        · exact .inl rfl
      · next hpresent =>
        split
        · next hread =>
          rw [look_track]
          split
          · next hp =>
            subst hp
            exact .inr ⟨hnone, ws, hlocate, .unreadable (present_spec hpresent)
              (withTracked_eq_none hread)⟩
          · exact .inl rfl
        · next file hread =>
          split
          · exact .inl rfl
          · by_cases hp : p = abs
            · subst hp
              refine .inr ⟨hnone, ws, hlocate, ?_⟩
              have hsaved : Backed env disk p ws (m.look p) _ :=
                .saved file (files_of_withTracked hread)
              convert hsaved using 1
              simp [look, track]
            · refine .inl ?_
              simp [look, track, hp, Assoc.get_set_of_ne]

/-- Recording a path changes what is known of it alone, where it was added. -/
theorem look_record (m : ChangesetManager) (env : Env) (disk : Disk) (filePath p : Path) :
    ((m.recordWritten sha256 env disk filePath).look p = m.look p ∧
      ∀ ws, env.locate filePath = .tracked p ws → ∀ e, (m.look p).entry = some e → e.status ≠ .added) ∨
    ((∃ ws, env.locate filePath = .tracked p ws) ∧
      (m.recordWritten sha256 env disk filePath).look p =
        { m.look p with written := m.identityOf sha256 env disk p } ∧
      ∃ e, (m.look p).entry = some e ∧ e.status = .added) := by
  unfold recordWritten
  split
  · next abs ws hlocate =>
    have hsame : ∀ ws', env.locate filePath = .tracked p ws' → p = abs := by
      intro ws' hlocate'
      exact (Location.tracked.inj (hlocate'.symm.trans hlocate)).1
    split
    · next content hentry =>
      by_cases hp : p = abs
      · subst hp
        refine .inr ⟨⟨ws, hlocate⟩, ?_, _, hentry, rfl⟩
        split
        · next hid => simp [look, hid, Assoc.get_erase]
        · next id hid => simp [look, hid]
      · refine .inl ⟨?_, fun ws' hlocate' => absurd (hsame ws' hlocate') hp⟩
        split
        · simp [look, hp, Assoc.get_erase]
        · simp [look, hp, Assoc.get_set_of_ne]
    · next hnot =>
      refine .inl ⟨rfl, fun ws' hlocate' e he hadded => ?_⟩
      obtain ⟨content, status⟩ := e
      obtain rfl : status = .added := hadded
      exact hnot content ((hsame ws' hlocate') ▸ he)
  · next hnot => exact .inl ⟨rfl, fun ws hlocate => absurd hlocate (hnot p ws)⟩

/-- Nothing is known of a path. -/
def blank : Look :=
  { entry := none
    original := none
    written := none }

theorem look_forget (m : ChangesetManager) (abs p : Path) :
    (m.forget abs).look p = if p = abs then blank else m.look p := by
  by_cases hp : p = abs
  · simp [look, forget, blank, hp, Assoc.get_erase]
  · simp [look, forget, hp, Assoc.get_erase]

theorem look_settle (m : ChangesetManager) (env : Env) (disk : Disk) (p : Path) :
    (m.settle env disk).look p = m.look p ∨ (m.settle env disk).look p = blank := by
  have hfold : ∀ (changed : List Path) (l : List (Path × ChangesetEntry)) (m : ChangesetManager),
      (l.foldl (settleOne env disk changed) m).look p = m.look p ∨
        (l.foldl (settleOne env disk changed) m).look p = blank := by
    intro changed l
    induction l with
    | nil => exact fun m => .inl rfl
    | cons e l ih =>
      intro m
      have hone : (settleOne env disk changed m e).look p = m.look p ∨
          (settleOne env disk changed m e).look p = blank := by
        unfold settleOne
        split
        · exact .inl rfl
        · split
          · exact .inl rfl
          · split
            · exact .inl rfl
            · rw [look_forget]
              split
              · exact .inr rfl
              · exact .inl rfl
      rw [List.foldl_cons]
      rcases ih (settleOne env disk changed m e) with h | h
      · rw [h]
        exact hone
      · exact .inr h
  unfold settle
  dsimp only
  split
  · exact .inr rfl
  · exact hfold _ _ _

/-- The tracked paths. -/
def keys (m : ChangesetManager) : List Path :=
  m.entries.map Prod.fst

theorem nodup_track (h : m.keys.Nodup) (abs : Path) (entry : ChangesetEntry) :
    (m.track abs entry).keys.Nodup := by
  unfold keys track
  by_cases hmem : abs ∈ m.entries.map Prod.fst
  · rw [Assoc.keys_set_of_mem hmem]
    exact h
  · rw [Assoc.keys_set_of_notMem hmem, ← List.concat_eq_append]
    exact (List.nodup_concat _ _).2 ⟨hmem, h⟩

theorem nodup_backup (h : m.keys.Nodup) (env : Env) (disk : Disk) (filePath : Path) :
    (m.backupBeforeWrite env disk filePath).2.keys.Nodup := by
  unfold backupBeforeWrite
  dsimp only
  split
  · exact h
  · exact h
  · split
    · exact h
    · split
      · exact h
      · exact nodup_track h _ _
      · split
        · exact nodup_track h _ _
        · split
          · exact h
          · exact nodup_track h _ _

theorem keys_record (m : ChangesetManager) (env : Env) (disk : Disk) (filePath : Path) :
    (m.recordWritten sha256 env disk filePath).keys = m.keys := by
  unfold recordWritten
  split
  · split
    · split <;> rfl
    · rfl
  · rfl

theorem nodup_forget (h : m.keys.Nodup) (abs : Path) : (m.forget abs).keys.Nodup :=
  h.sublist (List.Sublist.map _ List.filter_sublist)

theorem nodup_settle (h : m.keys.Nodup) (env : Env) (disk : Disk) : (m.settle env disk).keys.Nodup := by
  have hfold : ∀ (changed : List Path) (l : List (Path × ChangesetEntry)) (m : ChangesetManager),
      m.keys.Nodup → (l.foldl (settleOne env disk changed) m).keys.Nodup := by
    intro changed l
    induction l with
    | nil => exact fun m h => h
    | cons e l ih =>
      refine fun m h => ih _ ?_
      unfold settleOne
      split
      · exact h
      · split
        · exact h
        · split
          · exact h
          · exact nodup_forget h e.1
  unfold settle
  dsimp only
  split
  · exact List.nodup_nil
  · exact hfold _ _ _ h

end ChangesetManager

/-! ## What the manager knows is what was there -/

/-- What is known of a path fits what it held first and what the run last recorded there. -/
structure Known (sha256 : Bytes → JsString) (first : Option Bytes) (last : Option File) (look : Look) :
    Prop where
  added : ∀ e, look.entry = some e → e.status = .added → first = none
  modified : ∀ e content, look.entry = some e → e.status = .modified →
    e.originalContent = some content → ∃ bytes, look.original = some bytes ∧ first = some bytes
  written : ∀ id, look.written = some id → (∃ e, look.entry = some e ∧ e.status = .added) ∧
    ∃ file, last = some file ∧ id = file.identity sha256

/-- The file at a path is the one that was recorded there if it has its time. -/
structure Timed (disk : Disk) (p : Path) (last : Option File) : Prop where
  older : ∀ file, last = some file → file.ctimeNs < disk.now
  same : ∀ file file', last = some file → disk.files p = some file' →
    file'.ctimeNs = file.ctimeNs → file' = file

structure Sound (sha256 : Bytes → JsString) (s : System) : Prop where
  nodup : s.manager.keys.Nodup
  known : ∀ p, Known sha256 (s.first p) (s.last p) (s.manager.look p)
  timed : ∀ p, Timed s.disk p (s.last p)

/-- A lookup by name at a backup tells whether the file is there. -/
def Sees (s : System) : Op → Prop
  | .backupBeforeWrite env filePath => ∀ abs, env.locate filePath = .tracked abs none →
    env.existsSync abs = (s.disk.files abs).isSome
  | _ => True

variable {s : System} {first : Option Bytes} {last : Option File} {look : Look}

theorem System.last_record {filePath : Path} {ws : Option Workspace}
    (h : env.locate filePath = .tracked p ws) :
    (s.step sha256 (.recordWritten env filePath)).last p = s.disk.files p := by
  simp [System.step, h]

theorem System.last_record_of_ne {filePath : Path} (h : ∀ ws, env.locate filePath ≠ .tracked p ws) :
    (s.step sha256 (.recordWritten env filePath)).last p = s.last p := by
  simp only [System.step]
  split
  · next abs ws hlocate => exact if_neg fun hp : p = abs => h ws (hp ▸ hlocate)
  · rfl

theorem System.due_record_of_ne {filePath : Path} (h : ∀ ws, env.locate filePath ≠ .tracked p ws)
    (hdue : p ∈ s.due) : p ∈ (s.step sha256 (.recordWritten env filePath)).due := by
  refine List.mem_filter.2 ⟨hdue, ?_⟩
  split
  · next abs ws hlocate => exact decide_eq_true fun hp : p = abs => h ws (hp ▸ hlocate)
  · rfl

theorem Known.blank : Known sha256 first last ChangesetManager.blank :=
  ⟨fun _ h => (nomatch h), fun _ _ h => (nomatch h), fun _ h => (nomatch h)⟩

theorem Timed.put (h : Timed disk p last) (abs : Path) (dev ino : ℕ) (bytes : Bytes) :
    Timed (disk.put abs dev ino bytes) p last := by
  refine ⟨fun file hlast => Nat.lt_succ_of_lt (h.older file hlast), fun file file' hlast hfile htime => ?_⟩
  change (if p = abs then some (⟨dev, ino, bytes, disk.now⟩ : File) else disk.files p) = some file' at hfile
  split at hfile
  · obtain rfl := Option.some.inj hfile
    exact absurd htime (h.older file hlast).ne'
  · exact h.same file file' hlast hfile htime

theorem Timed.remove (h : Timed disk p last) (abs : Path) : Timed (disk.remove abs) p last := by
  refine ⟨fun file hlast => Nat.lt_succ_of_lt (h.older file hlast), fun file file' hlast hfile htime => ?_⟩
  change (if p = abs then none else disk.files p) = some file' at hfile
  split at hfile
  · cases hfile
  · exact h.same file file' hlast hfile htime

/-- The first backup of a path notes what it holds. -/
theorem Known.backed {ws : Option Workspace} {look' : Look} (h : Known sha256 first last look)
    (hfresh : look.entry = none) (hsees : ws = none → env.existsSync p = (disk.files p).isSome)
    (hbacked : ChangesetManager.Backed env disk p ws look look') :
    Known sha256 ((disk.files p).map File.bytes) last look' := by
  have hunwritten : ∀ id, look.written ≠ some id := by
    intro id hid
    obtain ⟨⟨e, he, -⟩, -⟩ := h.written id hid
    exact nomatch hfresh.symm.trans he
  cases hbacked with
  | added hnone =>
    have hmissing : disk.files p = none := by
      cases ws with
      | none => simpa [hsees rfl] using hnone.2 rfl
      | some ws => exact hnone.1 rfl
    refine ⟨fun _ _ _ => by rw [hmissing]; rfl, fun e _ he hstatus => ?_,
      fun id hid => absurd hid (hunwritten id)⟩
    obtain rfl := Option.some.inj he
    exact nomatch hstatus
  | unreadable =>
    refine ⟨fun e he hstatus => ?_, fun e _ he _ hcontent => ?_, fun id hid => absurd hid (hunwritten id)⟩
    · obtain rfl := Option.some.inj he
      exact nomatch hstatus
    · obtain rfl := Option.some.inj he
      exact nomatch hcontent
  | saved file hfile =>
    refine ⟨fun e he hstatus => ?_, fun e _ _ _ _ => ⟨file.bytes, rfl, by rw [hfile]; rfl⟩,
      fun id hid => absurd hid (hunwritten id)⟩
    obtain rfl := Option.some.inj he
    exact nomatch hstatus

theorem Sound.step (h : Sound sha256 s) {op : Op} (hsees : Sees s op) :
    Sound sha256 (s.step sha256 op) := by
  cases op with
  | backupBeforeWrite env filePath =>
    refine ⟨ChangesetManager.nodup_backup h.nodup env s.disk filePath, fun p => ?_, h.timed⟩
    show Known sha256 (if (s.tracked p).isSome then s.first p else s.bytesAt p) (s.last p) _
    rcases s.manager.look_backup env s.disk filePath p with hlook | ⟨hfresh, ws, hlocate, hbacked⟩
    · change Known sha256 _ _ ((s.manager.backupBeforeWrite env s.disk filePath).2.look p)
      rw [hlook]
      split
      · exact h.known p
      · next hnone =>
        have hentry : (s.manager.look p).entry = none := Option.not_isSome_iff_eq_none.1 hnone
        refine ⟨fun e he => (nomatch hentry.symm.trans he), fun e _ he => (nomatch hentry.symm.trans he),
          (h.known p).written⟩
    · have hnone : s.tracked p = none := hfresh
      rw [hnone]
      exact (h.known p).backed hfresh (fun hws => hsees p (hws ▸ hlocate)) hbacked
  | recordWritten env filePath =>
    refine ⟨?_, fun p => ?_, fun p => ?_⟩
    · show (s.manager.recordWritten sha256 env s.disk filePath).keys.Nodup
      rw [ChangesetManager.keys_record]
      exact h.nodup
    · show Known sha256 (s.first p) ((s.step sha256 (.recordWritten env filePath)).last p)
        ((s.manager.recordWritten sha256 env s.disk filePath).look p)
      have hknown := h.known p
      rcases s.manager.look_record env s.disk filePath p with ⟨hlook, hnot⟩ | ⟨⟨ws, hlocate⟩, hlook, hadded⟩
      · rw [hlook]
        refine ⟨hknown.added, hknown.modified, fun id hid => ?_⟩
        obtain ⟨⟨e, he, hstatus⟩, hlast⟩ := hknown.written id hid
        have hother : ∀ ws, env.locate filePath ≠ .tracked p ws :=
          fun ws hlocate => hnot ws hlocate e he hstatus
        rw [System.last_record_of_ne hother]
        exact ⟨⟨e, he, hstatus⟩, hlast⟩
      · rw [hlook, System.last_record hlocate]
        refine ⟨hknown.added, hknown.modified, fun id hid => ⟨hadded, ?_⟩⟩
        obtain ⟨file, hread, rfl⟩ := Option.map_eq_some_iff.1 hid
        exact ⟨file, ChangesetManager.files_of_withTracked hread, rfl⟩
    · by_cases hlocate : ∃ ws, env.locate filePath = .tracked p ws
      · obtain ⟨ws, hlocate⟩ := hlocate
        rw [System.last_record hlocate]
        exact ⟨fun file hfile => s.disk.older p file hfile, fun file file' hfile hfile' _ =>
          Option.some.inj (hfile'.symm.trans hfile)⟩
      · rw [System.last_record_of_ne fun ws h => hlocate ⟨ws, h⟩]
        exact h.timed p
  | settle env =>
    refine ⟨ChangesetManager.nodup_settle h.nodup env s.disk, fun p => ?_, h.timed⟩
    show Known sha256 (s.first p) (s.last p) ((s.manager.settle env s.disk).look p)
    rcases s.manager.look_settle env s.disk p with hlook | hlook
    · rw [hlook]
      exact h.known p
    · rw [hlook]
      exact .blank
  | write abs dev ino bytes => exact ⟨h.nodup, h.known, fun p => (h.timed p).put abs dev ino bytes⟩
  | foreignWrite abs dev ino bytes =>
    exact ⟨h.nodup, h.known, fun p => (h.timed p).put abs dev ino bytes⟩
  | foreignDelete abs => exact ⟨h.nodup, h.known, fun p => (h.timed p).remove abs⟩

/-! ## Rolling back -/

namespace ChangesetManager

/-- What a rollback of one file does. -/
structure Rolled (sha256 : Bytes → JsString) (m : ChangesetManager) (env : Env) (disk : Disk)
    (abs : Path) (entry : ChangesetEntry) (restored : Bool) (after : Disk) : Prop where
  frame : ∀ p, p ≠ abs → after.files p = disk.files p
  added : restored = true → entry.status = .added → after.files abs = none
  modified : restored = true → entry.status = .modified → ∃ content, entry.originalContent = some content ∧
    (after.files abs).map File.bytes = some (m.restoredBytes abs content)
  removed : disk.files abs ≠ none → after.files abs = none → m.isRunsOwn sha256 env disk abs = true

variable {entry : ChangesetEntry}

theorem rolled_left : Rolled sha256 m env disk abs entry false disk :=
  ⟨fun _ _ => rfl, fun h => (nomatch h), fun h => (nomatch h), fun hsome hnone => absurd hnone hsome⟩

theorem rolled_missing (hstatus : entry.status = .added) {restored : Bool}
    (h : restored = true → disk.files abs = none) : Rolled sha256 m env disk abs entry restored disk :=
  ⟨fun _ _ => rfl, fun hrestored _ => h hrestored, fun _ hmodified =>
    (nomatch hstatus.symm.trans hmodified),
    fun hsome hnone => absurd hnone hsome⟩

theorem files_remove (disk : Disk) (abs p : Path) :
    (disk.remove abs).files p = if p = abs then none else disk.files p :=
  rfl

theorem files_put (disk : Disk) (abs : Path) (dev ino : ℕ) (bytes : Bytes) (p : Path) :
    (disk.put abs dev ino bytes).files p =
      if p = abs then some ⟨dev, ino, bytes, disk.now⟩ else disk.files p :=
  rfl

theorem rolled_unlink (hstatus : entry.status = .added)
    (hown : m.isRunsOwn sha256 env disk abs = true) :
    Rolled sha256 m env disk abs entry (unlink env disk abs).1 (unlink env disk abs).2 := by
  unfold unlink
  split
  · refine ⟨fun p hp => ?_, fun _ _ => ?_, fun _ hmodified => (nomatch hstatus.symm.trans hmodified),
      fun _ _ => hown⟩
    · rw [files_remove, if_neg hp]
    · rw [files_remove, if_pos rfl]
  · exact rolled_left

theorem rolled_writeBack {content : JsString} (hstatus : entry.status = .modified)
    (hcontent : entry.originalContent = some content) :
    Rolled sha256 m env disk abs entry (writeBack env disk abs (m.restoredBytes abs content)).1
      (writeBack env disk abs (m.restoredBytes abs content)).2 := by
  unfold writeBack
  dsimp only
  split
  · exact rolled_left
  · refine ⟨fun p hp => ?_, fun h => (nomatch h), fun h => (nomatch h), fun _ hnone => ?_⟩
    · rw [files_put, if_neg hp]
    · rw [files_put, if_pos rfl] at hnone
      exact nomatch hnone
  · refine ⟨fun p hp => ?_, fun _ hadded => (nomatch hstatus.symm.trans hadded),
      fun _ _ => ⟨content, hcontent, ?_⟩, fun _ hnone => ?_⟩
    · rw [files_put, if_neg hp]
    · rw [files_put, if_pos rfl]
      rfl
    · rw [files_put, if_pos rfl] at hnone
      exact nomatch hnone

theorem rolled_one (m : ChangesetManager) (env : Env) (disk : Disk) (abs : Path)
    (entry : ChangesetEntry) :
    Rolled sha256 m env disk abs entry (m.rollbackOne sha256 env disk abs entry).1
      (m.rollbackOne sha256 env disk abs entry).2 := by
  unfold rollbackOne
  split
  · next ws hanchored =>
    unfold rollbackAnchored
    split
    · exact rolled_left
    · split
      · next hstatus =>
        split
        · refine rolled_missing hstatus fun hmissing => ?_
          simpa using presentAnchored_spec hanchored (of_decide_eq_true hmissing)
        · next hown => exact rolled_unlink hstatus (by simpa using hown)
      · exact rolled_left
      · next hstatus hcontent => exact rolled_writeBack hstatus hcontent
  · split
    · exact rolled_left
    · split
      · next hstatus =>
        split
        · refine rolled_missing hstatus fun hmissing => ?_
          unfold isMissing at hmissing
          simpa using (Bool.and_eq_true_iff.1 hmissing).2
        · next hown => exact rolled_unlink hstatus (by simpa using hown)
      · exact rolled_left
      · next hstatus hcontent => exact rolled_writeBack hstatus hcontent

/-- A rollback of all files leaves each to its own. -/
structure RolledAll (sha256 : Bytes → JsString) (m : ChangesetManager) (env : Env)
    (l : List (Path × ChangesetEntry)) (acc acc' : List Path × Disk) : Prop where
  frame : ∀ p, p ∉ l.map Prod.fst → acc'.2.files p = acc.2.files p ∧ (p ∈ acc'.1 ↔ p ∈ acc.1)
  each : ∀ e ∈ l, ∃ disk, disk.files e.1 = acc.2.files e.1 ∧
    acc'.2.files e.1 = (m.rollbackOne sha256 env disk e.1 e.2).2.files e.1 ∧
    (e.1 ∈ acc'.1 ↔ e.1 ∈ acc.1 ∨ (m.rollbackOne sha256 env disk e.1 e.2).1 = false)

theorem rolledAll (m : ChangesetManager) (env : Env) : ∀ (l : List (Path × ChangesetEntry))
    (acc : List Path × Disk), (l.map Prod.fst).Nodup →
      RolledAll sha256 m env l acc (l.foldl (m.rollbackNext sha256 env) acc)
  | [], acc, _ => ⟨fun _ _ => ⟨rfl, Iff.rfl⟩, fun _ he => nomatch he⟩
  | e :: l, acc, hnodup => by
    rw [List.map_cons, List.nodup_cons] at hnodup
    have hrest := rolledAll m env l (m.rollbackNext sha256 env acc e) hnodup.2
    have hone : Rolled sha256 m env acc.2 e.1 e.2 _ _ := rolled_one m env acc.2 e.1 e.2
    have hmem : ∀ p, p ∈ (m.rollbackNext sha256 env acc e).1 ↔
        p ∈ acc.1 ∨ p = e.1 ∧ (m.rollbackOne sha256 env acc.2 e.1 e.2).1 = false := by
      intro p
      unfold rollbackNext
      cases hrolled : (m.rollbackOne sha256 env acc.2 e.1 e.2).1 <;> simp [hrolled]
    rw [List.foldl_cons]
    refine ⟨fun p hp => ?_, fun e' he' => ?_⟩
    · rw [List.map_cons, List.mem_cons, not_or] at hp
      obtain ⟨hfiles, hlist⟩ := hrest.frame p hp.2
      refine ⟨hfiles.trans (hone.frame p hp.1), hlist.trans ((hmem p).trans ?_)⟩
      simp [hp.1]
    · rcases List.mem_cons.1 he' with rfl | he'
      · obtain ⟨hfiles, hlist⟩ := hrest.frame e'.1 hnodup.1
        refine ⟨acc.2, rfl, hfiles, hlist.trans ((hmem e'.1).trans ?_)⟩
        simp
      · have hne : e'.1 ≠ e.1 := fun heq => hnodup.1 (heq ▸ List.mem_map_of_mem he')
        obtain ⟨disk, hdisk, hfiles, hlist⟩ := hrest.each e' he'
        refine ⟨disk, hdisk.trans (hone.frame e'.1 hne), hfiles, hlist.trans ?_⟩
        rw [hmem]
        simp [hne]

/-- What the run's own file is depends on the path alone. -/
theorem isRunsOwn_congr {disk' : Disk} (h : disk.files abs = disk'.files abs) :
    m.isRunsOwn sha256 env disk abs = m.isRunsOwn sha256 env disk' abs := by
  unfold isRunsOwn identityOf withTracked
  rw [h]

theorem written_of_isRunsOwn {file : File} (h : m.isRunsOwn sha256 env disk abs = true)
    (hfile : disk.files abs = some file) : (m.look abs).written = some (file.identity sha256) := by
  unfold isRunsOwn at h
  split at h
  · next rec now hrec hnow =>
    obtain ⟨file', hread, rfl⟩ := Option.map_eq_some_iff.1 hnow
    obtain rfl := Option.some.inj (hfile.symm.trans (files_of_withTracked hread))
    obtain rfl := of_decide_eq_true h
    exact hrec
  · exact nomatch h

end ChangesetManager

/-! ## Runs without others -/

/-- Nothing fails. -/
structure Env.Healthy (env : Env) : Prop where
  held : ∀ abs ws, env.held abs ws = true
  confined : ∀ abs, env.confined abs = true
  statFails : ∀ abs, env.statFails abs = false
  opens : ∀ abs, env.opens abs = true
  puts : ∀ abs, env.puts abs = .done
  unlinks : ∀ abs, env.unlinks abs = true

/-- A step of the run alone, where nothing fails. -/
def Op.Undisturbed : Op → Prop
  | .backupBeforeWrite env _ | .recordWritten env _ | .settle env => env.Healthy
  | .write .. => True
  | .foreignWrite .. | .foreignDelete .. => False

/-- An added file is the one that was recorded, or is still to be; a modified one was saved. -/
structure Recorded (sha256 : Bytes → JsString) (due : List Path) (file : Option File) (p : Path)
    (look : Look) : Prop where
  added : ∀ e f, look.entry = some e → e.status = .added → file = some f →
    p ∈ due ∨ look.written = some (f.identity sha256)
  modified : ∀ e, look.entry = some e → e.status = .modified → e.originalContent ≠ none

theorem Env.Healthy.withTracked (h : env.Healthy) (m : ChangesetManager) (disk : Disk) (abs : Path) :
    m.withTracked env disk abs = disk.files abs := by
  unfold ChangesetManager.withTracked
  split
  · rw [h.held, h.opens]
    rfl
  · rw [h.confined, h.opens]
    rfl

theorem Recorded.step (h : ∀ p, Recorded sha256 s.due (s.disk.files p) p (s.manager.look p)) {op : Op}
    (hsees : Sees s op) (hop : op.Undisturbed) :
    ∀ p, Recorded sha256 (s.step sha256 op).due ((s.step sha256 op).disk.files p) p
      ((s.step sha256 op).manager.look p) := by
  intro p
  cases op with
  | backupBeforeWrite env filePath =>
    have hhealthy : env.Healthy := hop
    show Recorded sha256 s.due (s.disk.files p) p
      ((s.manager.backupBeforeWrite env s.disk filePath).2.look p)
    rcases s.manager.look_backup env s.disk filePath p with hlook | ⟨hfresh, ws, hlocate, hbacked⟩
    · rw [hlook]
      exact h p
    · have hexists : ws = none → env.existsSync p = (s.disk.files p).isSome :=
        fun hws => hsees p (hws ▸ hlocate)
      generalize (s.manager.backupBeforeWrite env s.disk filePath).2.look p = look' at hbacked
      cases hbacked with
      | added hnone =>
        have hmissing : s.disk.files p = none := by
          cases ws with
          | none => simpa [hexists rfl] using hnone.2 rfl
          | some ws => exact hnone.1 rfl
        refine ⟨fun _ f _ _ hf => absurd (hmissing.symm.trans hf) (by simp), fun e he hstatus => ?_⟩
        obtain rfl := Option.some.inj he
        cases hstatus
      | unreadable hthere hunread =>
        exfalso
        have hsome : s.disk.files p ≠ none := by
          cases ws with
          | none =>
            have hseen := hthere.2 rfl
            rw [hexists rfl] at hseen
            exact Option.isSome_iff_ne_none.1 hseen
          | some ws =>
            rcases hthere.1 rfl with hstat | hsome
            · rw [hhealthy.statFails] at hstat
              cases hstat
            · exact hsome
        obtain ⟨file, hfile⟩ := Option.ne_none_iff_exists'.1 hsome
        rcases hunread file hfile with ⟨ws, hheld⟩ | hconfined | hopens
        · cases (hhealthy.held p ws).symm.trans hheld
        · cases (hhealthy.confined p).symm.trans hconfined
        · cases (hhealthy.opens p).symm.trans hopens
      | saved file hfile =>
        refine ⟨fun e _ he hstatus => ?_, fun e he _ => ?_⟩
        · obtain rfl := Option.some.inj he
          cases hstatus
        · obtain rfl := Option.some.inj he
          exact Option.some_ne_none _
  | recordWritten env filePath =>
    have hhealthy : env.Healthy := hop
    show Recorded sha256 ((s.step sha256 (.recordWritten env filePath)).due) (s.disk.files p) p
      ((s.manager.recordWritten sha256 env s.disk filePath).look p)
    rcases s.manager.look_record env s.disk filePath p with ⟨hlook, hnot⟩ | ⟨⟨ws, hlocate⟩, hlook, -⟩
    · rw [hlook]
      refine ⟨fun e f he hstatus hf => ?_, (h p).modified⟩
      have hother : ∀ ws, env.locate filePath ≠ .tracked p ws :=
        fun ws hlocate => hnot ws hlocate e he hstatus
      exact ((h p).added e f he hstatus hf).imp_left (System.due_record_of_ne hother)
    · rw [hlook]
      refine ⟨fun _ f _ _ hf => .inr ?_, (h p).modified⟩
      show s.manager.identityOf sha256 env s.disk p = _
      rw [ChangesetManager.identityOf, hhealthy.withTracked, hf, Option.map_some]
  | settle env =>
    show Recorded sha256 s.due (s.disk.files p) p ((s.manager.settle env s.disk).look p)
    rcases s.manager.look_settle env s.disk p with hlook | hlook
    · rw [hlook]
      exact h p
    · rw [hlook]
      exact ⟨fun _ _ he => (by cases he), fun _ he => (by cases he)⟩
  | write abs dev ino bytes =>
    show Recorded sha256 (abs :: s.due) ((s.disk.put abs dev ino bytes).files p) p (s.manager.look p)
    refine ⟨fun e f he hstatus hf => ?_, (h p).modified⟩
    rw [ChangesetManager.files_put] at hf
    split at hf
    · next hp => exact .inl (hp ▸ List.mem_cons_self)
    · exact ((h p).added e f he hstatus hf).imp_left (List.mem_cons_of_mem _)
  | foreignWrite => exact hop.elim
  | foreignDelete => exact hop.elim

theorem recorded_after : ∀ (ops : List Op) {s : System}, Run.Obeys (System.step sha256) Sees s ops →
    (∀ op ∈ ops, op.Undisturbed) →
    (∀ p, Recorded sha256 s.due (s.disk.files p) p (s.manager.look p)) →
    ∀ p, Recorded sha256 (Run.after (System.step sha256) s ops).due
      ((Run.after (System.step sha256) s ops).disk.files p) p
      ((Run.after (System.step sha256) s ops).manager.look p)
  | [], _, _, _, h => h
  | op :: ops, _, hsees, hops, h => recorded_after ops hsees.2
      (fun op' hop' => hops op' (List.mem_cons_of_mem _ hop'))
      (Recorded.step h hsees.1 (hops op List.mem_cons_self))

/-- Where nothing fails, a rollback restores a path whose entry is recorded. -/
theorem rollbackOne_healthy {entry : ChangesetEntry} {due : List Path} (henv : env.Healthy)
    (hentry : (m.look p).entry = some entry)
    (h : Recorded sha256 due (disk.files p) p (m.look p)) (hdue : entry.status = .added → p ∉ due) :
    (m.rollbackOne sha256 env disk p entry).1 = true := by
  have hadded : entry.status = .added → m.isRunsOwn sha256 env disk p = false → disk.files p = none := by
    intro hstatus hown
    by_contra hsome
    obtain ⟨f, hf⟩ := Option.ne_none_iff_exists'.1 hsome
    rcases h.added entry f hentry hstatus hf with hmem | hwritten
    · exact hdue hstatus hmem
    · have hrec : Assoc.get m.written p = some (f.identity sha256) := hwritten
      rw [ChangesetManager.isRunsOwn, ChangesetManager.identityOf, henv.withTracked, hrec, hf] at hown
      simp at hown
  have hunlink : (ChangesetManager.unlink env disk p).1 = true := by
    rw [ChangesetManager.unlink, henv.unlinks, if_pos rfl]
  have hwrite : ∀ bytes, (ChangesetManager.writeBack env disk p bytes).1 = true := by
    intro bytes
    rw [ChangesetManager.writeBack, henv.puts]
  unfold ChangesetManager.rollbackOne
  split
  · next ws hanchored =>
    unfold ChangesetManager.rollbackAnchored
    rw [henv.held, if_neg (by simp)]
    split
    · next hstatus =>
      split
      · next hown =>
        have hnone := hadded hstatus (by simpa using hown)
        simp [ChangesetManager.presentAnchored, hanchored, henv.held, henv.statFails, hnone]
      · exact hunlink
    · next hstatus hcontent => exact absurd hcontent (h.modified entry hentry hstatus)
    · exact hwrite _
  · rw [henv.confined, if_neg (by simp)]
    split
    · next hstatus =>
      split
      · next hown =>
        have hnone := hadded hstatus (by simpa using hown)
        simp [ChangesetManager.isMissing, henv.statFails, hnone]
      · exact hunlink
    · next hstatus hcontent => exact absurd hcontent (h.modified entry hentry hstatus)
    · exact hwrite _

/-! ## The rollback -/

theorem sound_start (disk : Disk) : Sound sha256 (System.start disk) :=
  ⟨List.nodup_nil, fun _ => .blank, fun _ => ⟨fun _ h => (nomatch h), fun _ _ h => (nomatch h)⟩⟩

/-- A tracked path has an entry in the order they were made. -/
theorem mem_entries {e : ChangesetEntry} (h : s.tracked p = some e) : (p, e) ∈ s.manager.entries :=
  Assoc.mem_of_get h

/-- After a rollback a tracked path that is not listed holds what it held when it came to be tracked, a
path that is not tracked is as before the rollback, and a file at an added path is removed only if it is
the one the run last recorded there. -/
structure Restores (s : System) (notRestored : List Path) (after : Disk) : Prop where
  restored : ∀ p e, s.tracked p = some e → p ∉ notRestored →
    (after.files p).map File.bytes = s.first p
  untouched : ∀ p, s.tracked p = none → after.files p = s.disk.files p
  removed : ∀ p e file, s.tracked p = some e → e.status = .added → s.disk.files p = some file →
    after.files p = none → ∃ file', s.last p = some file' ∧ file.SameAs file'

/-- Over every sequence of backups, writes, records and settlements of a run, with writes, replacements
and deletions of others in between, where a backup's lookup by name tells whether the file is there : a
rollback restores, and where nothing fails, there are no others and every write of an added file was
recorded, nothing is listed. -/
theorem rollback_restores (h : IdealHash sha256) (disk : Disk) (ops : List Op)
    (hsees : Run.Obeys (System.step sha256) Sees (System.start disk) ops) (env : Env) :
    let s := Run.after (System.step sha256) (System.start disk) ops
    let rolled := s.manager.rollbackAll sha256 env s.disk
    Restores s rolled.1 rolled.2 ∧ ((∀ op ∈ ops, op.Undisturbed) → env.Healthy →
      (∀ p e, s.tracked p = some e → e.status = .added → p ∉ s.due) → rolled.1 = []) := by
  intro s rolled
  have hsound : Sound sha256 s :=
    Run.invariant_of (fun _ _ hs hsees => hs.step hsees) (sound_start disk) hsees
  have hall : s.manager.RolledAll sha256 env s.manager.entries ([], s.disk) rolled :=
    s.manager.rolledAll env s.manager.entries ([], s.disk) hsound.nodup
  refine ⟨⟨fun p e he hlist => ?_, fun p hp => ?_, fun p e file he hstatus hfile hnone => ?_⟩,
    fun hops henv hdue => ?_⟩
  · obtain ⟨d, -, hfiles, hiff⟩ := hall.each (p, e) (mem_entries he)
    have hrolled : s.manager.Rolled sha256 env d p e _ _ := s.manager.rolled_one env d p e
    have hrestored : (s.manager.rollbackOne sha256 env d p e).1 = true := by
      by_contra hfalse
      exact hlist (hiff.2 (.inr (by simpa using hfalse)))
    rw [hfiles]
    have hknown := hsound.known p
    cases hstatus : e.status with
    | added =>
      rw [hrolled.added hrestored hstatus, hknown.added e he hstatus]
      rfl
    | modified =>
      obtain ⟨content, hcontent, hbytes⟩ := hrolled.modified hrestored hstatus
      obtain ⟨bytes, horiginal, hfirst⟩ := hknown.modified e content he hstatus hcontent
      have hget : Assoc.get s.manager.originalBytes p = some bytes := horiginal
      rw [hbytes, hfirst, ChangesetManager.restoredBytes, hget]
      rfl
  · have hp' : p ∉ s.manager.entries.map Prod.fst := Assoc.get_eq_none.1 hp
    exact (hall.frame p hp').1
  · obtain ⟨d, hd, hfiles, -⟩ := hall.each (p, e) (mem_entries he)
    have hrolled : s.manager.Rolled sha256 env d p e _ _ := s.manager.rolled_one env d p e
    have hthere : d.files p ≠ none := by
      rw [hd]
      exact fun h => nomatch hfile.symm.trans h
    have hown := hrolled.removed hthere (hfiles ▸ hnone)
    rw [ChangesetManager.isRunsOwn_congr hd] at hown
    have hwritten := ChangesetManager.written_of_isRunsOwn hown hfile
    obtain ⟨-, file', hlast, hid⟩ := (hsound.known p).written _ hwritten
    exact ⟨file', hlast, File.sameAs_of_identity h hid ((hsound.timed p).same file' file hlast hfile)⟩
  · have hrecorded : ∀ p, Recorded sha256 s.due (s.disk.files p) p (s.manager.look p) :=
      recorded_after ops hsees hops fun _ => ⟨fun _ _ he => (nomatch he), fun _ he => (nomatch he)⟩
    refine List.eq_nil_iff_forall_not_mem.2 fun p hp => ?_
    by_cases hmem : p ∈ s.manager.entries.map Prod.fst
    · obtain ⟨e, he⟩ := Assoc.exists_get.2 hmem
      obtain ⟨d, hd, -, hiff⟩ := hall.each (p, e) (mem_entries he)
      have hrestored : (s.manager.rollbackOne sha256 env d p e).1 = true :=
        rollbackOne_healthy henv he (hd ▸ hrecorded p) (hdue p e he)
      rcases hiff.1 hp with hnil | hfalse
      · exact nomatch hnil
      · exact nomatch hrestored.symm.trans hfalse
    · exact nomatch (hall.frame p hmem).2.1 hp

/-! ## A file that a run adds -/

def sampleBytes : Bytes :=
  utf8 (utf16 "draft")

def sampleDigest : JsString :=
  utf16 "7743ce348d9284d677a185f33295b92266cc435a5b5f775029b300066d26693a"

def hexText (bytes : Bytes) : JsString :=
  bytes.flatMap fun b => [hexDigit (b.toNat / 16), hexDigit (b.toNat % 16)]

/-- The digest of the file, and a text of its own for each other content. -/
def sampleHash (bytes : Bytes) : JsString :=
  if bytes = sampleBytes then sampleDigest else 0x61 :: hexText bytes

theorem hexDigit_inj {i j : ℕ} (hi : i < 16) (hj : j < 16) (h : hexDigit i = hexDigit j) : i = j := by
  have hval := hexVal_hexDigit hi
  rw [h, hexVal_hexDigit hj] at hval
  exact (Option.some.inj hval).symm

theorem hexText_inj : ∀ {bytes bytes' : Bytes}, hexText bytes = hexText bytes' → bytes = bytes'
  | [], [], _ => rfl
  | [], _ :: _, h => nomatch h
  | _ :: _, [], h => nomatch h
  | b :: bytes, b' :: bytes', h => by
    obtain ⟨hhigh, htail⟩ := List.cons.inj (h : hexDigit _ :: hexDigit _ :: hexText bytes =
      hexDigit _ :: hexDigit _ :: hexText bytes')
    obtain ⟨hlow, hrest⟩ := List.cons.inj htail
    have hlt : ∀ b : UInt8, b.toNat / 16 < 16 := fun b => Nat.div_lt_of_lt_mul b.toNat_lt
    have hq := hexDigit_inj (hlt b) (hlt b') hhigh
    have hr := hexDigit_inj (Nat.mod_lt _ (by decide)) (Nat.mod_lt _ (by decide)) hlow
    have hb : b.toNat = b'.toNat := by
      rw [← Nat.div_add_mod b.toNat 16, hq, hr, Nat.div_add_mod]
    rw [UInt8.toNat_inj.1 hb, hexText_inj hrest]

theorem length_hexText (bytes : Bytes) : (hexText bytes).length = 2 * bytes.length := by
  rw [hexText, List.length_flatMap]
  induction bytes with
  | nil => rfl
  | cons b bytes ih =>
    rw [List.map_cons, List.sum_cons, ih, List.length_cons]
    simp only [List.length_cons, List.length_nil]
    omega

theorem sampleHash_ideal : IdealHash sampleHash := by
  have hother : ∀ bytes, 0x61 :: hexText bytes ≠ sampleDigest := by
    intro bytes h
    have hlength : (0x61 :: hexText bytes).length = 64 := by rw [h]; decide
    rw [List.length_cons, length_hexText] at hlength
    omega
  refine ⟨fun bytes bytes' h => ?_, fun bytes u hu => ?_⟩
  · unfold sampleHash at h
    split at h
    · next heq =>
      split at h
      · next heq' => rw [heq, heq']
      · exact absurd h.symm (hother _)
    · split at h
      · exact absurd h (hother _)
      · exact hexText_inj (List.cons.inj h).2
  · unfold sampleHash at hu
    split at hu
    · exact List.all_eq_true.mp (by decide : sampleDigest.all fun u => (hexVal u).isSome) u hu
    · rcases List.mem_cons.1 hu with rfl | hu
      · decide
      · obtain ⟨b, -, hb⟩ := List.mem_flatMap.1 hu
        rcases List.mem_cons.1 hb with rfl | hb
        · rw [hexVal_hexDigit (Nat.div_lt_of_lt_mul b.toNat_lt)]
          rfl
        · rw [List.mem_singleton.1 hb, hexVal_hexDigit (Nat.mod_lt _ (by decide))]
          rfl

def samplePath : Path :=
  utf16 "/workspace/draft.txt"

/-- A directory that holds nothing yet, tracked by name. -/
def sampleEnv : Env :=
  { locate := fun p => .tracked p none
    held := fun _ _ => true
    confined := fun _ => true
    existsSync := fun _ => false
    statFails := fun _ => false
    opens := fun _ => true
    puts := fun _ => .done
    created := fun _ => (1, 8)
    unlinks := fun _ => true }

theorem sampleEnv_healthy : sampleEnv.Healthy :=
  ⟨fun _ _ => rfl, fun _ => rfl, fun _ => rfl, fun _ => rfl, fun _ => rfl, fun _ => rfl⟩

def emptyDisk : Disk :=
  { files := fun _ => none
    now := 0
    older := fun _ _ h => nomatch h }

/-- A file is added, and noted. -/
def sampleOps : List Op :=
  [.backupBeforeWrite sampleEnv samplePath, .write samplePath 1 7 sampleBytes,
    .recordWritten sampleEnv samplePath]

def sampleSystem (ops : List Op) : System :=
  Run.after (System.step sampleHash) (System.start emptyDisk) ops

def sampleRollback (ops : List Op) : List Path × Disk :=
  (sampleSystem ops).manager.rollbackAll sampleHash sampleEnv (sampleSystem ops).disk

theorem sample_is_restored :
    Restores (sampleSystem sampleOps) (sampleRollback sampleOps).1 (sampleRollback sampleOps).2 ∧
      (sampleRollback sampleOps).1 = [] := by
  have hsees : Run.Obeys (System.step sampleHash) Sees (System.start emptyDisk) sampleOps :=
    ⟨fun _ _ => rfl, trivial, trivial, trivial⟩
  obtain ⟨hrestores, hnone⟩ := rollback_restores sampleHash_ideal emptyDisk sampleOps hsees sampleEnv
  refine ⟨hrestores, hnone (fun op hop => ?_) sampleEnv_healthy fun p e _ _ hdue => ?_⟩
  · rcases List.mem_cons.1 hop with rfl | hop
    · exact sampleEnv_healthy
    · rcases List.mem_cons.1 hop with rfl | hop
      · trivial
      · obtain rfl := List.mem_singleton.1 hop
        exact sampleEnv_healthy
  · have hempty : (sampleSystem sampleOps).due = [] := by decide
    exact nomatch hempty ▸ hdue

/-- Without the note the file is left and listed, though nobody else wrote and nothing failed. -/
theorem sample_is_listed :
    (∀ op ∈ sampleOps.take 2, op.Undisturbed) ∧ sampleEnv.Healthy ∧
      Run.Obeys (System.step sampleHash) Sees (System.start emptyDisk) (sampleOps.take 2) ∧
      (sampleRollback (sampleOps.take 2)).1 ≠ [] := by
  refine ⟨fun op hop => ?_, sampleEnv_healthy, ⟨fun _ _ => rfl, trivial, trivial⟩, by decide⟩
  rcases List.mem_cons.1 hop with rfl | hop
  · exact sampleEnv_healthy
  · obtain rfl := List.mem_singleton.1 hop
    trivial

end Lynox.Changeset
