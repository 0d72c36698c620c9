import Lynox.Data.Assoc
import Lynox.Process.Run
import Lynox.Text.Json

/-!
# The changeset of a run

Before a run writes a file the manager holds its bytes, and after the write it notes which file the run
left there. A rollback writes the held bytes back and removes the files the run added. A disk is paths
with files, each with its inode and its bytes; every change stamps a file with a time that no earlier
change had. Where a path lies and what fails is looked up in an `Env` : any answers, new ones for each
call.
-/

namespace Lynox.Changeset

open Text

/-! ## Files -/

abbrev Path := JsString
abbrev Workspace := JsString

structure File where
  dev : ℕ
  ino : ℕ
  bytes : Bytes
  ctimeNs : ℕ
  deriving DecidableEq

/-- Files by path, all of them older than the next change. -/
structure Disk where
  files : Path → Option File
  now : ℕ
  older : ∀ p file, files p = some file → file.ctimeNs < now

namespace Disk

/-- The disk with a file at a path. -/
def put (disk : Disk) (abs : Path) (dev ino : ℕ) (bytes : Bytes) : Disk :=
  { files := fun p => if p = abs then some ⟨dev, ino, bytes, disk.now⟩ else disk.files p
    now := disk.now + 1
    older := fun p file h => by
      split at h
      · exact Option.some.inj h ▸ Nat.lt_succ_self _
      · exact Nat.lt_succ_of_lt (disk.older p file h) }

def remove (disk : Disk) (abs : Path) : Disk :=
  { files := fun p => if p = abs then none else disk.files p
    now := disk.now + 1
    older := fun p file h => by
      split at h
      · exact nomatch h
      · exact Nat.lt_succ_of_lt (disk.older p file h) }

end Disk

/-- Where a write is tracked : through a workspace's open directory, or by name. -/
inductive Location
  | unreachable
  | untracked
  | tracked (abs : Path) (ws : Option Workspace)

/-- How far writing bytes to a path comes : it is not opened, it fails after some bytes, it is done. -/
inductive Put
  | refused
  | cut (written : ℕ)
  | done
  deriving DecidableEq

/-- The answers to one call : `held` is whether `_at` gives an open directory for a path that was
backed up in a workspace, `confined` whether `_confine` gives the path itself, `statFails` whether a
lookup fails with something else than a missing name. -/
structure Env where
  locate : Path → Location
  held : Path → Workspace → Bool
  confined : Path → Bool
  existsSync : Path → Bool
  statFails : Path → Bool
  opens : Path → Bool
  puts : Path → Put
  created : Path → ℕ × ℕ
  unlinks : Path → Bool

/-! ## Identities -/

def FILE_TOOL_READ_CAP_BYTES : ℕ := 5 * 1024 * 1024

/-- `Number` of a `bigint` : the nearest number of 53 significant bits, the even one of two. -/
def asNumber (n : ℕ) : ℕ :=
  let step := 2 ^ (Nat.log2 n - 52)
  let quotient := n / step
  let rest := n % step
  if step < 2 * rest ∨ (2 * rest = step ∧ quotient % 2 = 1) then (quotient + 1) * step else quotient * step

/-- Which file is at a path. -/
structure Identity where
  dev : ℕ
  ino : ℕ
  hash : JsString
  deriving DecidableEq

/-- A file over the cap is known by its size and its time. -/
def File.identity (sha256 : Bytes → JsString) (file : File) : Identity :=
  { dev := asNumber file.dev
    ino := asNumber file.ino
    hash :=
      if FILE_TOOL_READ_CAP_BYTES < file.bytes.length then
        utf16 "over-cap:" ++ shownDigits file.bytes.length ++ utf16 ":" ++ shownDigits file.ctimeNs
      else sha256 file.bytes }

/-! ## The manager -/

inductive Status
  | added | modified
  deriving DecidableEq, Repr

structure ChangesetEntry where
  originalContent : Option JsString
  status : Status

structure ChangesetManager where
  entries : List (Path × ChangesetEntry)
  originalBytes : List (Path × Bytes)
  anchored : List (Path × Workspace)
  written : List (Path × Identity)
  refusedTooLarge : Bool

/-- What reading a tracked file gives. -/
inductive Current
  | bytes (bytes : Bytes)
  | overCap (size : ℕ)
  deriving DecidableEq

namespace ChangesetManager

def empty : ChangesetManager :=
  { entries := []
    originalBytes := []
    anchored := []
    written := []
    refusedTooLarge := false }

variable (sha256 : Bytes → JsString) (m : ChangesetManager) (env : Env) (disk : Disk)

/-- Whether a file that is tracked through a workspace is there; none where it is not reached. -/
def presentAnchored (abs : Path) : Option Bool :=
  match Assoc.get m.anchored abs with
  | none => none
  | some ws =>
    if !env.held abs ws then none
    else if env.statFails abs then some true
    else some (disk.files abs).isSome

/-- The open file of a tracked path. -/
def withTracked (abs : Path) : Option File :=
  match Assoc.get m.anchored abs with
  | some ws => if env.held abs ws && env.opens abs then disk.files abs else none
  | none => if env.confined abs && env.opens abs then disk.files abs else none

def readTracked (abs : Path) : Option Current :=
  (m.withTracked env disk abs).map fun file =>
    if FILE_TOOL_READ_CAP_BYTES < file.bytes.length then .overCap file.bytes.length
    else .bytes file.bytes

def identityOf (abs : Path) : Option Identity :=
  (m.withTracked env disk abs).map (File.identity sha256)

def track (abs : Path) (entry : ChangesetEntry) : ChangesetManager :=
  { m with entries := Assoc.set m.entries abs entry }

/-- Before a write; false where the write must not go ahead. -/
def backupBeforeWrite (filePath : Path) : Bool × ChangesetManager :=
  let m := { m with refusedTooLarge := false }
  match env.locate filePath with
  | .unreachable => (false, m)
  | .untracked => (true, m)
  | .tracked abs ws =>
    if (Assoc.get m.entries abs).isSome then (true, m)
    else
      let m := { m with anchored := ws.elim m.anchored (Assoc.set m.anchored abs) }
      let present :=
        match ws with
        | some _ => m.presentAnchored env disk abs
        | none => some (env.existsSync abs)
      match present with
      | none => (true, { m with anchored := Assoc.erase m.anchored abs })
      | some false => (true, m.track abs ⟨none, .added⟩)
      | some true =>
        match m.withTracked env disk abs with
        | none => (true, m.track abs ⟨none, .modified⟩)
        | some file =>
          if FILE_TOOL_READ_CAP_BYTES < file.bytes.length then
            (false, { m with anchored := Assoc.erase m.anchored abs, refusedTooLarge := true })
          else
            (true, { m.track abs ⟨some (decode file.bytes), .modified⟩ with
              originalBytes := Assoc.set m.originalBytes abs file.bytes })

/-- After a write : the file the run left at an added path. -/
def recordWritten (filePath : Path) : ChangesetManager :=
  match env.locate filePath with
  | .tracked abs _ =>
    match Assoc.get m.entries abs with
    | some ⟨_, .added⟩ =>
      match m.identityOf sha256 env disk abs with
      | none => { m with written := Assoc.erase m.written abs }
      | some id => { m with written := Assoc.set m.written abs id }
    | _ => m
  | _ => m

/-- The file at an added path is the one the run last wrote there. -/
def isRunsOwn (abs : Path) : Bool :=
  match Assoc.get m.written abs, m.identityOf sha256 env disk abs with
  | some rec, some now => now = rec
  | _, _ => false

/-- The tracked files that differ from before the run. -/
def changed : List (Path × ChangesetEntry × Current) :=
  m.entries.filterMap fun e =>
    match m.readTracked env disk e.1 with
    | none => none
    | some current =>
      if e.2.status = .modified ∧ (Assoc.get m.originalBytes e.1).map Current.bytes = some current then none
      else some (e.1, e.2, current)

def isUnchanged (abs : Path) : Bool :=
  match Assoc.get m.originalBytes abs with
  | none => false
  | some before => m.readTracked env disk abs = some (.bytes before)

def cleanup : ChangesetManager :=
  { m with entries := [], originalBytes := [], anchored := [], written := [] }

/-- The manager without a path. -/
def forget (abs : Path) : ChangesetManager :=
  { m with
    entries := Assoc.erase m.entries abs
    originalBytes := Assoc.erase m.originalBytes abs
    anchored := Assoc.erase m.anchored abs
    written := Assoc.erase m.written abs }

/-- An entry at the end of the run : dropped where its file did not change. -/
def settleOne (changed : List Path) (m : ChangesetManager) (e : Path × ChangesetEntry) :
    ChangesetManager :=
  if e.1 ∈ changed then m
  else if e.2.status = .modified ∧ !m.isUnchanged env disk e.1 then m
  else if e.2.status = .added ∧ (m.readTracked env disk e.1).isSome then m
  else m.forget e.1

def settle : ChangesetManager :=
  let changed := (m.changed env disk).map Prod.fst
  let settled := m.entries.foldl (settleOne env disk changed) m
  if settled.entries.length = 0 then settled.cleanup else settled

/-! ### Rolling back -/

/-- Bytes written in place. -/
def writeBack (abs : Path) (bytes : Bytes) : Bool × Disk :=
  let file := (disk.files abs).elim (env.created abs) fun file => (file.dev, file.ino)
  match env.puts abs with
  | .refused => (false, disk)
  | .cut written => (false, disk.put abs file.1 file.2 (bytes.take written))
  | .done => (true, disk.put abs file.1 file.2 bytes)

/-- The bytes of a `modified` entry before the run. -/
def restoredBytes (abs : Path) (originalContent : JsString) : Bytes :=
  (Assoc.get m.originalBytes abs).getD (utf8 originalContent)

def unlink (abs : Path) : Bool × Disk :=
  if env.unlinks abs then (true, disk.remove abs) else (false, disk)

/-- A rollback of a file that is tracked through a workspace. -/
def rollbackAnchored (ws : Workspace) (abs : Path) (entry : ChangesetEntry) : Bool × Disk :=
  if !env.held abs ws then (false, disk)
  else
    match entry.status, entry.originalContent with
    | .added, _ =>
      if !m.isRunsOwn sha256 env disk abs then (m.presentAnchored env disk abs = some false, disk)
      else unlink env disk abs
    | .modified, none => (false, disk)
    | .modified, some content => writeBack env disk abs (m.restoredBytes abs content)

def isMissing (abs : Path) : Bool :=
  !env.statFails abs && (disk.files abs).isNone

/-- A rollback of one file; false where it was left as it is. -/
def rollbackOne (abs : Path) (entry : ChangesetEntry) : Bool × Disk :=
  match Assoc.get m.anchored abs with
  | some ws => m.rollbackAnchored sha256 env disk ws abs entry
  | none =>
    if !env.confined abs then (false, disk)
    else
      match entry.status, entry.originalContent with
      | .added, _ =>
        if !m.isRunsOwn sha256 env disk abs then (isMissing env disk abs, disk)
        else unlink env disk abs
      | .modified, none => (false, disk)
      | .modified, some content => writeBack env disk abs (m.restoredBytes abs content)

/-- A rollback's next file, after those it left and the disk so far. -/
def rollbackNext (acc : List Path × Disk) (e : Path × ChangesetEntry) : List Path × Disk :=
  let rolled := m.rollbackOne sha256 env acc.2 e.1 e.2
  (if rolled.1 then acc.1 else acc.1 ++ [e.1], rolled.2)

/-- A rollback of all files : those it left as they are, and the disk. -/
def rollbackAll : List Path × Disk :=
  m.entries.foldl (m.rollbackNext sha256 env) ([], disk)

end ChangesetManager

/-! ## Runs -/

/-- What happens before a rollback. -/
inductive Op
  | backupBeforeWrite (env : Env) (filePath : Path)
  | recordWritten (env : Env) (filePath : Path)
  | settle (env : Env)
  /-- A write of the run, in place or by another file in its place. -/
  | write (abs : Path) (dev ino : ℕ) (bytes : Bytes)
  /-- A write or a replacement by another. -/
  | foreignWrite (abs : Path) (dev ino : ℕ) (bytes : Bytes)
  | foreignDelete (abs : Path)

/-- The manager on its disk. `first` is what a path held at the backup since which it is tracked, `last`
the file at a path when the run last recorded it, `due` the paths the run wrote and has not recorded
since. -/
structure System where
  disk : Disk
  manager : ChangesetManager
  first : Path → Option Bytes
  last : Path → Option File
  due : List Path

namespace System

def bytesAt (s : System) (abs : Path) : Option Bytes :=
  (s.disk.files abs).map File.bytes

def tracked (s : System) (abs : Path) : Option ChangesetEntry :=
  Assoc.get s.manager.entries abs

variable (sha256 : Bytes → JsString)

def step (s : System) : Op → System
  | .backupBeforeWrite env filePath =>
    { s with
      manager := (s.manager.backupBeforeWrite env s.disk filePath).2
      first := fun abs => if (s.tracked abs).isSome then s.first abs else s.bytesAt abs }
  | .recordWritten env filePath =>
    { s with
      manager := s.manager.recordWritten sha256 env s.disk filePath
      last := fun p =>
        match env.locate filePath with
        | .tracked abs _ => if p = abs then s.disk.files p else s.last p
        | _ => s.last p
      due := s.due.filter fun p =>
        match env.locate filePath with
        | .tracked abs _ => p ≠ abs
        | _ => true }
  | .settle env => { s with manager := s.manager.settle env s.disk }
  | .write abs dev ino bytes => { s with disk := s.disk.put abs dev ino bytes, due := abs :: s.due }
  | .foreignWrite abs dev ino bytes => { s with disk := s.disk.put abs dev ino bytes }
  | .foreignDelete abs => { s with disk := s.disk.remove abs }

/-- A new manager on a disk. -/
def start (disk : Disk) : System :=
  { disk := disk
    manager := .empty
    first := fun _ => none
    last := fun _ => none
    due := [] }

end System

end Lynox.Changeset
