import Lynox.Text.Stringify
import Mathlib.Data.List.Sort

/-!
# The manifest of a backup

The manifest is a JSON object that names every file of the backup with its size and checksum.
`provenanceOf` checks its MAC, which covers everything in it but the MAC itself. `isWritten` says
which of its entries a restore writes : those under a name that `createBackup` writes, and no temp.

The hash, the MAC and the cipher are parameters (`Crypto`), and so is how a number of a text is read.
-/

namespace Lynox.Backup

open Text

/-- A path relative to its root. -/
abbrev Path := JsString

/-! ## Paths -/

def isRestorableEntryPath (path : Path) : Bool :=
  !path.contains 0 &&
    (path.splitOn 0x2F).all fun part => part ≠ [] && part ≠ utf16 "." && part ≠ utf16 ".."

def BACKUP_SQLITE_DBS : List Path :=
  ["engine.db", "history.db", "datastore.db", "agent-memory.db", "mail-state.db", "vault.db",
    "push-subscriptions.db"].map utf16

def BACKUP_COPY_DIRS : List Path :=
  ["memory", "artifacts", "apis", "workspace", "sweeps", "sessions"].map utf16

def BACKUP_COPY_FILES : List Path :=
  ["config.json", "vapid-keys.json"].map utf16

/-- `[0-9a-f]` -/
def isHex (u : UInt16) : Bool :=
  (0x30 ≤ u.toNat && u.toNat ≤ 0x39) || (0x61 ≤ u.toNat && u.toNat ≤ 0x66)

/-- `before`, then `n` hex digits, then `after`. -/
def isHexName (before : String) (n : Nat) (after : String) (name : JsString) : Bool :=
  let begun := utf16 before
  let rest := name.drop begun.length
  name.take begun.length = begun && (rest.take n).length = n && (rest.take n).all isHex &&
    rest.drop n = utf16 after

/-- `STAGING_TEMP`, which is looked for at the end. -/
def isStagingTemp (path : Path) : Bool :=
  33 ≤ path.length && isHexName "." 16 ".restore-staging" (path.drop (path.length - 33))

def isStageName (name : JsString) : Bool :=
  isHexName ".lynox-stage-" 24 "" name

/-- `FOLD_PROBE_NAME` -/
def isFoldProbeName (name : JsString) : Bool :=
  isHexName ".lynox-fold-probe-" 12 "-éa" name

/-- What follows the last slash. -/
def leafOf (path : Path) : JsString :=
  (path.splitOn 0x2F).getLastD []

/-- What comes before the last slash, nothing where there is none. -/
def dirOf (path : Path) : Path :=
  ((path.reverse.dropWhile (· ≠ 0x2F)).drop 1).reverse

def isTempName (path : Path) : Bool :=
  isStagingTemp path || isStageName (leafOf path)

def isBackedUpEntryPath (path : Path) : Bool :=
  !isTempName path &&
    if path.contains 0x2F then BACKUP_COPY_DIRS.contains (path.takeWhile (· ≠ 0x2F))
    else BACKUP_SQLITE_DBS.contains path || BACKUP_COPY_FILES.contains path

def WORKSPACE_PREFIX : Path := utf16 "workspace/"

/-- The first path that was named before. -/
def duplicateEntry : List Path → List Path → Option Path
  | _, [] => none
  | seen, path :: paths => if seen.contains path then some path else duplicateEntry (path :: seen) paths

/-! ## Entries -/

/-- The path an entry names, where it is a text. -/
def entryPath (entry : Json) : Option Path :=
  match entry.get "path" with
  | some (.string path) => some path
  | _ => none

/-- Its path, or nothing. -/
def pathOf (entry : Json) : Path :=
  (entryPath entry).getD []

def isDirectory (entry : Json) : Bool :=
  match entry.get "type" with
  | some (.string type) => type = utf16 "directory"
  | _ => false

def checksumIs (entry : Json) (digest : JsString) : Bool :=
  match entry.get "checksum_sha256" with
  | some (.string checksum) => digest = checksum
  | _ => false

def manifestFiles (manifest : Json) : Option (List Json) :=
  match manifest.get "files" with
  | some (.array files) => some files
  | _ => none

/-- An entry whose path a restore must not use. -/
def unrestorableEntry (files : List Json) : Option Json :=
  files.find? fun entry => !((entryPath entry).elim false isRestorableEntryPath)

def isWritten (entry : Json) : Bool :=
  !isDirectory entry && isBackedUpEntryPath (pathOf entry)

def isWorkspaceEntry (entry : Json) : Bool :=
  WORKSPACE_PREFIX.isPrefixOf (pathOf entry)

/-! ## Proof of origin -/

/-- What is not read here : the hash, the MAC, the key derivation and the cipher, and numbers. -/
structure Crypto where
  /-- SHA-256, in hex. -/
  sha256 : Bytes → JsString
  /-- HKDF of the vault key for a purpose. -/
  hkdf : JsString → String → Bytes
  /-- HMAC-SHA256 of a text, in hex. -/
  hmac : Bytes → JsString → JsString
  /-- AES-256-GCM with an initialization vector and a tag. -/
  gcmOpen : Bytes → Bytes → Bytes → Bytes → Option Bytes
  /-- What is written for a number that was read. -/
  writeNumber : Int → Int → JsString
  /-- A number that was read is this size. -/
  isSize : Int → Int → Nat → Bool

variable (crypto : Crypto)

def deriveBackupKey (vaultKey : JsString) : Bytes :=
  crypto.hkdf vaultKey "lynox-backup-encryption"

def deriveManifestKey (vaultKey : JsString) : Bytes :=
  crypto.hkdf vaultKey "lynox-backup-manifest-auth"

def sizeIs (entry : Json) (n : Nat) : Bool :=
  match entry.get "size_bytes" with
  | some (.number mantissa exponent) => crypto.isSize mantissa exponent n
  | _ => false

/-- The texts with commas between them. -/
def commaJoin (texts : List JsString) : JsString :=
  (texts.intersperse [0x2C]).flatten

mutual

/-- JSON with object keys sorted at every level. -/
def canonicalJson : Json → JsString
  | .null => utf16 "null"
  | .bool true => utf16 "true"
  | .bool false => utf16 "false"
  | .number mantissa exponent => crypto.writeNumber mantissa exponent
  | .string s => quote s
  | .array items => 0x5B :: commaJoin (canonicalItems items) ++ [0x5D]
  | .object fields =>
    let entries := (canonicalFields fields).insertionSort fun a b => a.1 ≤ b.1
    0x7B :: commaJoin (entries.map fun e => quote e.1 ++ 0x3A :: e.2) ++ [0x7D]

def canonicalItems : List Json → List JsString
  | [] => []
  | item :: items => canonicalJson item :: canonicalItems items

def canonicalFields : List (JsString × Json) → List (JsString × JsString)
  | [] => []
  | (name, value) :: fields => (name, canonicalJson value) :: canonicalFields fields

end

/-- The manifest without its `auth`. -/
def signedPart : Json → Json
  | .object fields => .object (fields.filter fun f => f.1 ≠ utf16 "auth")
  | manifest => manifest

def manifestMac (manifest : Json) (key : Bytes) : JsString :=
  crypto.hmac key (canonicalJson crypto (signedPart manifest))

inductive BackupProvenance
  | verified | none | mismatch | noKey
deriving DecidableEq

/-- `/^[0-9a-f]{64}$/` -/
def isMac (mac : JsString) : Bool :=
  mac.length = 64 && mac.all isHex

/-- The origin of a backup. There is no vault key where it is empty. -/
def provenanceOf (vaultKey : Option JsString) (manifest : Json) : BackupProvenance :=
  match vaultKey with
  | .none => .noKey
  | .some vaultKey =>
    match manifest.get "auth" with
    | .none => .none
    | .some auth =>
      match auth.get "alg", auth.get "mac" with
      | .some (.string alg), .some (.string mac) =>
        if alg = utf16 "hmac-sha256" && isMac mac then
          if manifestMac crypto manifest (deriveManifestKey crypto vaultKey) = mac then .verified
          else .mismatch
        else .mismatch
      | _, _ => .mismatch

/-- `manifest.encrypted`, as a condition. -/
def encrypted (manifest : Json) : Bool :=
  match manifest.get "encrypted" with
  | .none => false
  | .some .null => false
  | .some (.bool b) => b
  | .some (.number mantissa exponent) => !crypto.isSize mantissa exponent 0
  | .some (.string s) => s ≠ []
  | .some (.array _) => true
  | .some (.object _) => true

/-- `manifest.encrypted === true` -/
def encryptedIsTrue (manifest : Json) : Bool :=
  match manifest.get "encrypted" with
  | .some (.bool b) => b
  | _ => false

/-! ## Files of a backup -/

def FILE_MAGIC : Bytes := [0x4E, 0x42, 0x41, 0x4B]
def FILE_VERSION : UInt8 := 1
def CRYPTO_IV_LENGTH : Nat := 12
def CRYPTO_TAG_LENGTH : Nat := 16
def HEADER_LENGTH : Nat := FILE_MAGIC.length + 1 + CRYPTO_IV_LENGTH + CRYPTO_TAG_LENGTH

def isEncryptedBackupBuffer (data : Bytes) : Bool :=
  FILE_MAGIC.isPrefixOf data

/-- The plaintext of a file of the backup, under the key of the backup. -/
def decryptBuffer (data key : Bytes) (label : Path) : Except JsString Bytes :=
  if data.length < HEADER_LENGTH then .error (utf16 "Encrypted file too short: " ++ label)
  else if !isEncryptedBackupBuffer data then
    .error (utf16 "Invalid backup file (bad magic): " ++ label)
  else if data.getD FILE_MAGIC.length 0 ≠ FILE_VERSION then
    let version := (data.getD FILE_MAGIC.length 0).toNat
    .error (utf16 s!"Unsupported backup file version {version}: " ++ label)
  else
    let body := data.drop (FILE_MAGIC.length + 1)
    let iv := body.take CRYPTO_IV_LENGTH
    let authTag := (body.drop CRYPTO_IV_LENGTH).take CRYPTO_TAG_LENGTH
    match crypto.gcmOpen key iv authTag (data.drop HEADER_LENGTH) with
    | .some plain => .ok plain
    | .none => .error (utf16 "Unsupported state or unable to authenticate data")

def changedText (path : Path) : JsString :=
  utf16 "Backup file changed after it was verified — refusing to restore: " ++ path

/-- What a file of the backup was read as, checked against its entry. -/
def readEntryBytes (raw : Option Bytes) (entry : Json) (encrypted : Bool) : Except JsString Bytes :=
  match raw with
  | .none => .error (changedText (pathOf entry))
  | .some raw =>
    if !sizeIs crypto entry raw.length || !checksumIs entry (crypto.sha256 raw) then
      .error (changedText (pathOf entry))
    else if encrypted && !isEncryptedBackupBuffer raw then
      .error (utf16 "Backup is encrypted but holds a file that is not — refusing to restore: " ++
        pathOf entry)
    else .ok raw

end Lynox.Backup
