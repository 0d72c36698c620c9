import Lynox.Backup.Manifest
import Lynox.Process.Careful

/-!
# Staging and swapping

A restore writes every file to a temp beside its target first, and only then renames the temps over the
targets, one after the other. The disk is what is under each path of the data directory and of the
workspace, the temps of this restore, and, for the record, what was swapped in where.

The operations that a restore issues are answered by their surroundings (`Choice`). A file of the backup is
read as anything, since another writer may have changed it, any operation may fail, and what is under the
reserved names of temps and probes may be anything after a sweep.
-/

namespace Lynox.Backup

open Text Program

/-- The two sets of files a restore writes. -/
inductive Root
  | dataDir | workspace
deriving DecidableEq

structure Target where
  root : Root
  rel : Path
deriving DecidableEq

/-- A temp beside its target. -/
structure Temp (β : Type) where
  target : Target
  data : β

structure Disk (β : Type) where
  live : Target → Option β
  temps : List (Nat × Temp β)
  next : Nat
  swapped : List (Target × β)

/-- The disk before a restore. -/
def Disk.start {β : Type} (live : Target → Option β) : Disk β :=
  ⟨live, [], 0, []⟩

/-- Whether the filesystem takes two names for one, or could not be asked. -/
inductive FoldAnswer
  | apart | folds
  | unknown (code : Option JsString)

/-- What a restore asks and does. -/
inductive Op (β : Type)
  | manifestExists
  | readManifest
  | verifyBackup (entries : List Json)
  | isEncryptedFile (path : Path)
  | decryptProbe (path : Path)
  | namesFold (root : Root) (dir : Path)
  | liveTargetProblem (path : Path)
  | createBackup
  | openAnchor
  | leaseWorkspace
  | removeStagingTemps (dir : Path)
  | removeStaleStages
  | readEntry (path : Path)
  | writeTemp (target : Target) (data : β)
  | unlinkTemp (id : Nat)
  | rename (id : Nat)

variable {β : Type}

abbrev Ans : Op β → Type
  | .manifestExists => Bool
  | .readManifest => Option JsString
  | .verifyBackup _ => List JsString
  | .isEncryptedFile _ => Bool
  | .decryptProbe _ => Bool
  | .namesFold _ _ => FoldAnswer
  | .liveTargetProblem _ => Except JsString (Option JsString)
  | .createBackup => Option JsString
  | .openAnchor => Except JsString Bool
  | .leaseWorkspace => Except JsString Unit
  | .removeStagingTemps _ => Except JsString Unit
  | .removeStaleStages => Except JsString Unit
  | .readEntry _ => Option β
  | .writeTemp _ _ => Except JsString Nat
  | .unlinkTemp _ => Unit
  | .rename _ => Except JsString Unit

/-- How the surroundings answer an operation. -/
structure Choice (β : Type) where
  yes : Bool
  text : Option JsString
  texts : List JsString
  fold : FoldAnswer
  problem : Option JsString
  content : Option β
  /-- What the operation throws. -/
  throws : Option JsString
  /-- What is under the reserved names afterwards. -/
  reserved : Target → Option β

/-- Every operation succeeds, and nothing is under a reserved name. -/
def Choice.good : Choice β where
  yes := true
  text := none
  texts := []
  fold := .apart
  problem := none
  content := none
  throws := none
  reserved := fun _ => none

/-- A name of a temp or of a probe, which a restore sweeps. -/
def isReserved (target : Target) : Bool :=
  isTempName target.rel || isFoldProbeName (leafOf target.rel)

/-- What an operation returns unless it throws. -/
def Choice.orThrow {α : Type} (c : Choice β) (a : α) : Except JsString α :=
  match c.throws with
  | none => .ok a
  | some e => .error e

def Disk.sweep (d : Disk β) (reserved : Target → Option β) : Disk β :=
  { d with live := fun target => if isReserved target then reserved target else d.live target }

/-- The temp moved over its target. -/
def Disk.swap (d : Disk β) (id : Nat) (temp : Temp β) : Disk β where
  live := Function.update d.live temp.target (some temp.data)
  temps := d.temps.filter fun e => e.1 ≠ id
  next := d.next
  swapped := d.swapped ++ [(temp.target, temp.data)]

def Disk.tempOf (d : Disk β) (id : Nat) : Option (Temp β) :=
  (d.temps.find? fun e => e.1 = id).map Prod.snd

def perform (d : Disk β) (o : Op β) (c : Choice β) : Ans o × Disk β :=
  match o with
  | .manifestExists => (c.yes, d)
  | .readManifest => (c.text, d)
  | .verifyBackup _ => (c.texts, d)
  | .isEncryptedFile _ => (c.yes, d)
  | .decryptProbe _ => (c.yes, d)
  | .namesFold _ _ => (c.fold, d.sweep c.reserved)
  | .liveTargetProblem _ => (c.orThrow c.problem, d)
  | .createBackup => (c.text, d)
  | .openAnchor => (c.orThrow c.yes, d)
  | .leaseWorkspace => (c.orThrow (), d)
  | .removeStagingTemps _ => (c.orThrow (), d.sweep c.reserved)
  | .removeStaleStages => (c.orThrow (), d.sweep c.reserved)
  | .readEntry _ => (c.content, d)
  | .writeTemp target data =>
    match c.throws with
    | none => (.ok d.next, { d with temps := (d.next, ⟨target, data⟩) :: d.temps, next := d.next + 1 })
    | some e => (.error e, d)
  | .unlinkTemp id =>
    ((), if c.yes then { d with temps := d.temps.filter fun e => e.1 ≠ id } else d)
  | .rename id =>
    match c.throws, d.tempOf id with
    | none, some temp => (.ok (), d.swap id temp)
    | some e, _ => (.error e, d)
    | none, none => (.error (utf16 "ENOENT: no such file or directory"), d)

/-- A program of a restore, which may throw a message. -/
abbrev Step (β α : Type) : Type := Throwing (Op β) Ans JsString α

/-- A result that was handed over, or what was thrown in its place. -/
def orFail {α : Type} : Except JsString α → Step β α
  | .ok a => Throwing.ret a
  | .error e => Throwing.fail e

/-- An operation that may throw. -/
def attempt {α : Type} (o : Op β) (h : Ans o = Except JsString α) : Step β α :=
  Throwing.ask o >>= fun answer => orFail (h ▸ answer)

/-! ## Staging -/

/-- A file that is staged : its key, and its temp. -/
structure Staged where
  key : Path
  id : Nat

/-- The paths staged so far as files, and as directories of files. -/
structure StageKeys where
  fileKeys : List Path
  dirKeys : List Path

def badPath (path : Path) (text : String) : JsString :=
  path ++ utf16 text

/-- The directories on the way to a path, the outermost first. -/
def dirsOf (path : Path) : List Path :=
  let parts := path.splitOn 0x2F
  (List.range (parts.length - 1)).map fun i => ((parts.take (i + 1)).intersperse [0x2F]).flatten

/-- The checks on the path of one entry, after those before it. -/
def stagePath (keys : StageKeys) (key : Path) : Except JsString StageKeys :=
  if !isRestorableEntryPath key then .error (badPath key " refused")
  else if keys.fileKeys.contains key then .error (badPath key " staged twice")
  else if keys.dirKeys.contains key then
    .error (badPath key " is staged as a file and as a directory")
  else
    match (dirsOf key).find? fun dir => keys.fileKeys.contains dir with
    | some dir => .error (badPath dir " is staged as a file and as a directory")
    | none => .ok ⟨key :: keys.fileKeys, dirsOf key ++ keys.dirKeys⟩

def removeTemps : List Staged → Program (Op β) Ans PUnit
  | [] => pure ⟨⟩
  | s :: staged => issue (.unlinkTemp s.id) >>= fun _ => removeTemps staged

/-- Stage one entry after the other. Where one fails, what was staged before it is removed. -/
def stageEach {κ : Type} (one : κ → Path → Step β β → Step β (κ × Staged)) :
    κ → List Staged → List (Path × Step β β) → Step β (List Staged)
  | _, staged, [] => pure staged
  | keys, staged, (rel, load) :: source => do
    let (keys, s) ← Throwing.onThrow (one keys rel load) (removeTemps staged)
    stageEach one keys (staged ++ [s]) source

/-- One entry of `stageIn`. -/
def stageInOne (root : Root) (keys : StageKeys) (rel : Path) (load : Step β β) :
    Step β (StageKeys × Staged) := do
  let data ← load
  let keys ← orFail (stagePath keys rel)
  let id ← attempt (.writeTemp ⟨root, rel⟩ data) rfl
  pure (keys, ⟨rel, id⟩)

def stageIn (root : Root) (source : List (Path × Step β β)) : Step β (List Staged) :=
  stageEach (stageInOne root) ⟨[], []⟩ [] source

/-- One entry of `stageByName`, which sweeps each folder once. -/
def stageByNameOne (swept : List Path) (rel : Path) (load : Step β β) :
    Step β (List Path × Staged) := do
  let data ← load
  let dir := dirOf rel
  if swept.contains dir then
    let id ← attempt (.writeTemp ⟨.dataDir, rel⟩ data) rfl
    pure (swept, ⟨rel, id⟩)
  else do
    attempt (.removeStagingTemps dir) rfl
    let id ← attempt (.writeTemp ⟨.dataDir, rel⟩ data) rfl
    pure (dir :: swept, ⟨rel, id⟩)

/-- Where the platform has no handles. -/
def stageByName (source : List (Path × Step β β)) : Step β (List Staged) :=
  stageEach stageByNameOne [] [] source

/-! ## Swapping -/

/-- What is said of a swap that failed : `PARTIAL` names how far it got. -/
def swapFailed (byName : Bool) (total : Nat) (rest : List Staged) (key : Path) (cause : JsString) :
    JsString :=
  if byName then cause
  else
    let done := total - rest.length
    utf16 s!"committed {done} of {total}; " ++ key ++ utf16 " failed (" ++ cause ++
      utf16 "); the rest was not written"

/-- Rename the temps over their targets. Where one fails, the temps from it on are removed. -/
def commit (byName : Bool) (total : Nat) : List Staged → Step β Unit
  | [] => pure ()
  | s :: rest => do
    let answer : Except JsString Unit ← Throwing.ask (Op.rename (β := β) s.id)
    match answer with
    | .ok () => commit byName total rest
    | .error cause =>
      Throwing.onThrow (Throwing.fail (swapFailed byName total (s :: rest) s.key cause))
        (removeTemps (s :: rest))

end Lynox.Backup
