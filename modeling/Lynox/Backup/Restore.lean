import Lynox.Backup.Staging

/-!
# Restoring a backup

`restoreBackup` first reads the manifest and checks it, then the files of the backup and the targets on
the disk, and refuses with a reason where something is wrong. Only then it makes a safety backup, stages
both sets of files and swaps them in.
-/

namespace Lynox.Backup

open Text Program

variable {β : Type}

/-! ## Staging and swapping both sets -/

def refusingText (problem : JsString) : JsString :=
  utf16 "Refusing to restore: " ++ problem ++ utf16 ". Nothing was replaced."

/-- The targets of the data directory, checked again. -/
def checkTargets : List Path → Step β Unit
  | [] => pure ()
  | path :: paths => do
    let problem ← attempt (.liveTargetProblem path) rfl
    match problem with
    | some problem => Throwing.fail (refusingText problem)
    | none => checkTargets paths

/-- The folders of the targets, each swept once. -/
def sweepDirs (swept : List Path) : List Path → Step β Unit
  | [] => pure ()
  | path :: paths =>
    if swept.contains (dirOf path) then sweepDirs swept paths
    else do
      attempt (.removeStagingTemps (dirOf path)) rfl
      sweepDirs (dirOf path :: swept) paths

def stageData (byHandle : Bool) (source : List (Path × Step β β)) : Step β (List Staged) :=
  if byHandle then do
    sweepDirs [] (source.map Prod.fst)
    stageIn .dataDir source
  else stageByName source

/-- In shell sidecar mode, which has a refusal of its own, nothing is staged into the shared tree. -/
def stageWorkspaceIn (sidecar : Option JsString) (source : List (Path × Step β β)) :
    Step β (List Staged) :=
  match sidecar with
  | some refusal => Throwing.fail refusal
  | none => do
    attempt .leaseWorkspace rfl
    attempt .removeStaleStages rfl
    stageIn .workspace source

def stageWorkspace (sidecar : Option JsString) (source : List (Path × Step β β)) :
    Step β (List Staged) :=
  if source.isEmpty then pure [] else stageWorkspaceIn sidecar source

/-- Both sets are staged, then the data directory's is swapped in, then the workspace's. -/
def restoreFrom (byHandle : Bool) (sidecar : Option JsString)
    (dataSource workspaceSource : List (Path × Step β β)) : Step β Nat := do
  checkTargets (dataSource.map Prod.fst)
  let dataStaged ← stageData byHandle dataSource
  let workspaceStaged ←
    Throwing.onThrow (stageWorkspace sidecar workspaceSource) (removeTemps dataStaged)
  Throwing.onThrow (commit (!byHandle) dataStaged.length dataStaged) (removeTemps workspaceStaged)
  commit false workspaceStaged.length workspaceStaged
  pure (dataStaged.length + workspaceStaged.length)

/-- Files are written through handles where the platform has them, and by name where it has not. -/
def restoreSets (sidecar : Option JsString) (dataSource workspaceSource : List (Path × Step β β)) :
    Step β Nat := do
  let byHandle ← attempt .openAnchor rfl
  restoreFrom byHandle sidecar dataSource workspaceSource

/-! ## Refusals -/

inductive RestoreCode
  | unverifiedBackup | workspaceSidecarMode | restoreInProgress

structure RestoreResult where
  success : Bool
  preRestoreBackupPath : JsString
  filesRestored : Nat
  error : Option JsString
  code : Option RestoreCode
  provenance : Option BackupProvenance
  skipped : List Path

/-- A failure before anything was made. -/
def failure (error : JsString) : RestoreResult :=
  ⟨false, [], 0, some error, none, none, []⟩

/-- Why a restore ends before it stages anything : it returns a failure, or it throws. -/
inductive Stop
  | refused (result : RestoreResult)
  | thrown (message : JsString)

/-- A restore that is checked : the entries it writes, and the key of the backup where it is
encrypted. -/
structure Plan where
  manifest : Json
  files : List Json
  written : List Json
  skipped : List Path
  key : Option Bytes

def UNVERIFIED_REASON : BackupProvenance → JsString
  | .verified => []
  | .none => utf16 ("This backup has no proof of origin: it was made before backups were signed, or its " ++
      "signature was removed.")
  | .mismatch => utf16 ("This backup's proof of origin does not match this vault key: the backup was " ++
      "changed, or it was made under another vault key.")
  | .noKey => utf16 "No vault key is available, so this backup's origin cannot be checked."

def unverified (provenance : BackupProvenance) : RestoreResult :=
  { failure (UNVERIFIED_REASON provenance ++ utf16 (" Restore it only if you know where it came from, " ++
      "and confirm the restore without proof of origin.")) with
    code := some .unverifiedBackup
    provenance := some provenance }

def outsideText (path : JsString) : JsString :=
  utf16 "Backup manifest names a path outside the backup — refusing to restore: " ++ path

/-- The path of an entry, whatever it is. -/
def shownPath (crypto : Crypto) (entry : Json) : JsString :=
  (entry.get "path").elim (utf16 "undefined") (canonicalJson crypto)

/-- The entries that are written and those that are not, with the key where the backup is encrypted. -/
def keyedPlan (crypto : Crypto) (vaultKey : Option JsString) (manifest : Json) (files : List Json) :
    Except RestoreResult Plan :=
  let written := files.filter isWritten
  let skipped := (files.filter fun e => !isDirectory e && !isWritten e && !isTempName (pathOf e)).map pathOf
  match encrypted crypto manifest, vaultKey with
  | true, none => .error (failure (utf16 ("Backup is encrypted but no vault key is available — " ++
      "refusing to restore (would overwrite live data with ciphertext).")))
  | true, some vaultKey => .ok ⟨manifest, files, written, skipped, some (deriveBackupKey crypto vaultKey)⟩
  | false, _ => .ok ⟨manifest, files, written, skipped, none⟩

/-- What is decided by the manifest alone. -/
def readPlan (crypto : Crypto) (vaultKey : Option JsString) (allowUnverified : Bool)
    (sidecar : Option JsString) (manifest : Json) : Except RestoreResult Plan :=
  match manifestFiles manifest with
  | none => .error (failure (outsideText (utf16 "(files is not a list)")))
  | some files =>
    match unrestorableEntry files with
    | some entry => .error (failure (outsideText (shownPath crypto entry)))
    | none =>
      let written := files.filter isWritten
      match duplicateEntry [] (written.map pathOf) with
      | some path =>
        .error (failure (utf16 "Backup manifest names a path twice — refusing to restore: " ++ quote path))
      | none =>
        let provenance := provenanceOf crypto vaultKey manifest
        if provenance ≠ .verified && !allowUnverified then .error (unverified provenance)
        else if sidecar.isSome && written.any isWorkspaceEntry then
          .error { failure (sidecar.getD []) with code := some .workspaceSidecarMode }
        else keyedPlan crypto vaultKey manifest files

/-- A JSON value `typeof` calls an object, other than `null`. -/
def isObject : Json → Bool
  | .array _ => true
  | .object _ => true
  | _ => false

/-- Questions before the staging, which may refuse or throw. -/
abbrev Check (α : Type) : Type := Throwing (Op Bytes) Ans Stop α

def refuse {α : Type} (result : RestoreResult) : Check α :=
  Throwing.fail (.refused result)

def loadManifest : Check Json := do
  let there : Bool ← Throwing.ask (Op.manifestExists (β := Bytes))
  if there then do
    let text : Option JsString ← Throwing.ask (Op.readManifest (β := Bytes))
    match text.bind parse with
    | some manifest =>
      if isObject manifest then pure manifest else refuse (failure (utf16 "Invalid manifest.json"))
    | none => refuse (failure (utf16 "Invalid manifest.json"))
  else refuse (failure (utf16 "Missing manifest.json"))

/-- One decryption in memory, of the first file that is there and encrypted. -/
def probeKey : List Path → Check Unit
  | [] => pure ()
  | path :: paths => do
    let probe : Bool ← Throwing.ask (Op.isEncryptedFile (β := Bytes) path)
    if probe then do
      let decrypts : Bool ← Throwing.ask (Op.decryptProbe (β := Bytes) path)
      if decrypts then pure ()
      else refuse (failure (utf16 ("Backup decryption failed — the vault key does not match this backup; " ++
        "refusing to restore (avoids partially overwriting live data).")))
    else probeKey paths

/-- The pairs of paths that are one name where `fold` is applied to names : two files, or a file and a
folder of another. -/
def foldedPairs (fold : Path → Path) (paths : List Path) : List (Path × Path) :=
  let first (path : Path) : Option Path := paths.find? fun p => fold p = fold path
  (paths.filterMap fun path =>
    match first path with
    | some other => if other = path then none else some (other, path)
    | none => none) ++
  paths.flatMap fun path => (dirsOf path).filterMap fun dir => (first dir).map fun file => (file, path)

/-- The name of a target as the manifest has it. -/
def shownName (root : Root) (path : Path) : JsString :=
  match root with
  | .dataDir => quote path
  | .workspace => quote (WORKSPACE_PREFIX ++ path)

def foldsText (a b : JsString) : JsString :=
  utf16 "This backup holds " ++ a ++ utf16 " and " ++ b ++
    utf16 (", and this machine's filesystem takes them for one name: it does not tell upper from lower " ++
      "case, or two ways of writing the same letter, apart. Restoring would fail halfway, so the restore " ++
      "was refused; nothing was replaced. To restore this backup, use a machine whose filesystem tells " ++
      "these names apart (Linux usually does), or rename one of the two where the backup was made and " ++
      "back up again.")

def notAskedText (a b : JsString) (code : Option JsString) : JsString :=
  utf16 "Could not check whether this machine's filesystem tells " ++ a ++ utf16 " and " ++ b ++
    utf16 " apart" ++ code.elim [] (fun code => utf16 " (" ++ code ++ utf16 ")") ++
    utf16 ", so the restore was refused; nothing was replaced. " ++
    utf16 "Check that lynox can create a file in the folder of " ++ a ++
    utf16 (" (a full disk or a missing permission are the usual causes), then start the restore again.")

/-- The pairs are asked about, each in the folder of its first path. A folder may be asked again. -/
def checkFolds (root : Root) : List (Path × Path) → Check Unit
  | [] => pure ()
  | (a, b) :: pairs => do
    let answer : FoldAnswer ← Throwing.ask (Op.namesFold (β := Bytes) root (dirOf a))
    match answer with
    | .apart => checkFolds root pairs
    | .folds => refuse (failure (foldsText (shownName root a) (shownName root b)))
    | .unknown code => refuse (failure (notAskedText (shownName root a) (shownName root b) code))

/-- The workspace is opened only where it has a pair to ask about. -/
def checkWorkspaceFolds : List (Path × Path) → Check Unit
  | [] => pure ()
  | (a, b) :: pairs => do
    let opened : Except JsString Unit ← Throwing.ask (Op.leaseWorkspace (β := Bytes))
    match opened with
    | .ok () => checkFolds .workspace ((a, b) :: pairs)
    | .error code =>
      refuse (failure (notAskedText (shownName .workspace a) (shownName .workspace b) (some code)))

def checkLive : List Path → Check Unit
  | [] => pure ()
  | path :: paths => do
    let answer : Except JsString (Option JsString) ← Throwing.ask (Op.liveTargetProblem (β := Bytes) path)
    match answer with
    | .ok none => checkLive paths
    | .ok (some problem) => refuse (failure (refusingText problem))
    | .error message => Throwing.fail (.thrown message)

def dataDirEntries (plan : Plan) : List Json :=
  plan.written.filter fun e => !isWorkspaceEntry e

def workspaceEntries (plan : Plan) : List Json :=
  plan.written.filter isWorkspaceEntry

/-- The path of an entry below the workspace root. -/
def workspaceRel (entry : Json) : Path :=
  (pathOf entry).drop WORKSPACE_PREFIX.length

def verifyFiles (files : List Json) : Check Unit := do
  let errors : List JsString ←
    Throwing.ask (Op.verifyBackup (β := Bytes) (files.filter fun e => !isDirectory e))
  if errors = [] then pure ()
  else refuse (failure (utf16 "Backup verification failed — refusing to restore: " ++
    ((errors.take 3).intersperse (utf16 "; ")).flatten))

def checkKey (plan : Plan) : Check Unit :=
  match plan.key with
  | some _ => probeKey ((plan.files.filter fun e => !isDirectory e).map pathOf)
  | none => pure ()

/-- Everything that is checked before the safety backup. -/
def checks (crypto : Crypto) (vaultKey : Option JsString) (allowUnverified : Bool)
    (sidecar : Option JsString) (fold : Path → Path) : Check Plan := do
  let manifest ← loadManifest
  match readPlan crypto vaultKey allowUnverified sidecar manifest with
  | .error result => refuse result
  | .ok plan => do
    verifyFiles plan.files
    checkKey plan
    checkFolds .dataDir (foldedPairs fold ((dataDirEntries plan).map pathOf))
    checkWorkspaceFolds (foldedPairs fold ((workspaceEntries plan).map workspaceRel))
    checkLive ((dataDirEntries plan).map pathOf)
    pure plan

/-! ## The restore -/

/-- The bytes of an entry, as they are to be written : read once, checked, decrypted in memory. -/
def loadEntry (crypto : Crypto) (key : Option Bytes) (encrypted : Bool) (entry : Json) :
    Step Bytes Bytes := do
  let raw : Option Bytes ← Throwing.ask (Op.readEntry (β := Bytes) (pathOf entry))
  let raw ← orFail (readEntryBytes crypto raw entry encrypted)
  match key with
  | some key => orFail (decryptBuffer crypto raw key (pathOf entry))
  | none => pure raw

def dataSource (crypto : Crypto) (plan : Plan) : List (Path × Step Bytes Bytes) :=
  (dataDirEntries plan).map fun entry =>
    (pathOf entry, loadEntry crypto plan.key (encryptedIsTrue plan.manifest) entry)

def workspaceSource (crypto : Crypto) (plan : Plan) : List (Path × Step Bytes Bytes) :=
  (workspaceEntries plan).map fun entry =>
    (workspaceRel entry, loadEntry crypto plan.key plan.key.isSome entry)

/-- What a restore came to, after its safety backup. -/
def restoreResult (plan : Plan) (safetyPath : JsString) : Except JsString Nat → RestoreResult
  | .ok filesRestored => ⟨true, safetyPath, filesRestored, none, none, none, plan.skipped⟩
  | .error error => { failure error with preRestoreBackupPath := safetyPath }

/-- `_restoreBackup` -/
def restoreChecked (crypto : Crypto) (vaultKey : Option JsString) (allowUnverified : Bool)
    (sidecar : Option JsString) (fold : Path → Path) :
    Program (Op Bytes) Ans (Except JsString RestoreResult) :=
  Program.bind (α := Except Stop Plan) (checks crypto vaultKey allowUnverified sidecar fold) fun checked =>
    match checked with
    | .error (.refused result) => .done (.ok result)
    | .error (.thrown message) => .done (.error message)
    | .ok plan =>
      Program.bind (issue (Op.createBackup (β := Bytes))) fun (safetyPath : Option JsString) =>
        Program.bind (α := Except JsString Nat)
          (restoreSets sidecar (dataSource crypto plan) (workspaceSource crypto plan)) fun restored =>
            .done (.ok (restoreResult plan (safetyPath.getD []) restored))

def RESTORE_RUNNING : JsString :=
  utf16 ("A restore is already running, so this one was not started. Wait for the running restore: when it " ++
    "succeeds, the instance restarts. If the instance does not restart, the running restore did not " ++
    "succeed, and you can start a restore again.")

/-- A second restore is refused while one runs. -/
def restoreBackup (crypto : Crypto) (vaultKey : Option JsString) (allowUnverified : Bool)
    (sidecar : Option JsString) (fold : Path → Path) (restoring : Bool) :
    Program (Op Bytes) Ans (Except JsString RestoreResult) :=
  if restoring then
    .done (.ok { failure RESTORE_RUNNING with code := some .restoreInProgress })
  else restoreChecked crypto vaultKey allowUnverified sidecar fold

end Lynox.Backup
