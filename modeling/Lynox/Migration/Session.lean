import Lynox.Data.Assoc
import Lynox.Text.Stringify
import Mathlib.Algebra.Order.Ring.Rat

/-!
# A migration session

The importer shakes hands, takes a manifest, receives encrypted chunks and restores them. A manifest
lists an entry for each chunk with its sequence number, type, name and checksum, and says how many
chunks there are. Numbers come from JSON and are rational. The cipher, the hash and the key agreement
are given.
-/

namespace Lynox.Migration

open Text

/-! ## Manifests and chunks -/

inductive MigrationChunkType
  | secrets | sqliteDb | artifacts | config | memory | sweeps | portableDir
  deriving DecidableEq, Repr

namespace MigrationChunkType

def text : MigrationChunkType → JsString
  | secrets => utf16 "secrets"
  | sqliteDb => utf16 "sqlite_db"
  | artifacts => utf16 "artifacts"
  | config => utf16 "config"
  | memory => utf16 "memory"
  | sweeps => utf16 "sweeps"
  | portableDir => utf16 "portable_dir"

def MIGRATION_CHUNK_TYPES : List MigrationChunkType :=
  [secrets, sqliteDb, artifacts, config, memory, sweeps, portableDir]

end MigrationChunkType

structure MigrationChunkMeta where
  seq : ℚ
  type : JsString
  name : JsString
  originalSize : ℚ
  checksum : JsString
  deriving DecidableEq

/-- A manifest without its hash. -/
structure ManifestBase where
  version : ℚ
  exportedAt : JsString
  lynoxVersion : JsString
  totalChunks : ℚ
  chunks : List MigrationChunkMeta

structure MigrationManifest extends ManifestBase where
  manifestHash : JsString

structure EncryptedChunk where
  seq : ℚ
  iv : JsString
  authTag : JsString
  data : JsString
  deriving DecidableEq

/-- The cryptography : key agreement, the cipher, the hash, and a manifest as canonical JSON. -/
structure MigrationCrypto (Key : Type) where
  deriveTransferKey : (privateKey challengeNonce : Bytes) → (clientPubKey : JsString) → Option Key
  decryptChunk : EncryptedChunk → Key → (manifestHash : JsString) → Option Bytes
  sha256 : Bytes → JsString
  canonical : ManifestBase → Bytes

/-- The bytes of hexadecimal digits, up to the first that is none. -/
def fromHex : JsString → Bytes
  | a :: b :: s =>
    match hexVal a, hexVal b with
    | some x, some y => .ofNat (16 * x + y) :: fromHex s
    | _, _ => []
  | _ => []

variable {Key : Type} (C : MigrationCrypto Key)

def MigrationCrypto.computeManifestHash (m : ManifestBase) : JsString :=
  C.sha256 (C.canonical m)

def MigrationCrypto.verifyManifestHash (m : MigrationManifest) : Bool :=
  fromHex m.manifestHash = fromHex (C.computeManifestHash m.toManifestBase)

def SESSION_TIMEOUT_MS : Int := 30 * 60 * 1000
def MAX_CHUNKS : ℚ := 64
def MAX_TOTAL_BYTES : ℚ := 500 * 1024 * 1024

/-- The databases the exporter ships and the importer accepts. -/
def MIGRATE_SQLITE_DBS : List JsString :=
  [utf16 "engine.db", utf16 "history.db", utf16 "datastore.db", utf16 "agent-memory.db"]

/-- The part of a name before its first colon. -/
def baseName (name : JsString) : JsString :=
  name.takeWhile (· ≠ 0x3A)

/-! ## The importer -/

inductive ImportError
  | active | noSession | handshakeCompleted | publicKey | noHandshake | manifestHash | tooManyChunks
  | totalSize | unknownType | disallowedDatabase | noManifest | duplicateChunk | invalidSeq | decryption
  | noManifestEntry | checksumMismatch | incomplete | malformed
  deriving DecidableEq, Repr

/-- `receivedChunks` are the plaintexts by sequence number. -/
structure MigrationSession (Key : Type) where
  privateKey : Bytes
  challengeNonce : Bytes
  transferKey : Option Key
  manifest : Option MigrationManifest
  receivedChunks : List (ℚ × Bytes)
  createdAt : Int

/-- The session, where there is one. -/
abbrev MigrationImporter (Key : Type) := Option (MigrationSession Key)

namespace MigrationManifest

variable (m : MigrationManifest)

def inRange (seq : ℚ) : Bool :=
  0 ≤ seq && seq < m.totalChunks

/-- The first entry of a sequence number. -/
def find (seq : ℚ) : Option MigrationChunkMeta :=
  m.chunks.find? (·.seq = seq)

/-- A manifest that cannot be taken, and why. -/
def refused : Option ImportError :=
  if !C.verifyManifestHash m then some .manifestHash
  else if MAX_CHUNKS < m.totalChunks then some .tooManyChunks
  else if MAX_TOTAL_BYTES < (m.chunks.map MigrationChunkMeta.originalSize).sum then some .totalSize
  else
    m.chunks.findSome? fun c =>
      if c.type ∉ MigrationChunkType.MIGRATION_CHUNK_TYPES.map MigrationChunkType.text then
        some .unknownType
      else if c.type = MigrationChunkType.sqliteDb.text ∧ baseName c.name ∉ MIGRATE_SQLITE_DBS then
        some .disallowedDatabase
      else none

end MigrationManifest

namespace MigrationImporter

def isActive (importer : MigrationImporter Key) (now : Int) : Bool :=
  importer.any fun s => !(SESSION_TIMEOUT_MS < now - s.createdAt)

def startHandshake (importer : MigrationImporter Key) (now : Int) (privateKey challengeNonce : Bytes) :
    Except ImportError Unit × MigrationImporter Key :=
  if importer.isActive now then (.error .active, importer)
  else
    (.ok (), some
      { privateKey := privateKey
        challengeNonce := challengeNonce
        transferKey := none
        manifest := none
        receivedChunks := []
        createdAt := now })

def completeHandshake (importer : MigrationImporter Key) (clientPubKey : JsString) :
    Except ImportError Unit × MigrationImporter Key :=
  match importer with
  | none => (.error .noSession, importer)
  | some s =>
    if s.transferKey.isSome then (.error .handshakeCompleted, importer)
    else
      match C.deriveTransferKey s.privateKey s.challengeNonce clientPubKey with
      | none => (.error .publicKey, importer)
      | some key => (.ok (), some { s with transferKey := some key })

def setManifest (importer : MigrationImporter Key) (m : MigrationManifest) :
    Except ImportError Unit × MigrationImporter Key :=
  match importer with
  | none => (.error .noHandshake, importer)
  | some s =>
    if s.transferKey.isNone then (.error .noHandshake, importer)
    else
      match m.refused C with
      | some error => (.error error, importer)
      | none => (.ok (), some { s with manifest := some m })

/-- A chunk, decrypted and verified against the manifest that is set. -/
def receiveChunk (importer : MigrationImporter Key) (chunk : EncryptedChunk) :
    Except ImportError (ℚ × JsString) × MigrationImporter Key :=
  match importer with
  | none => (.error .noManifest, importer)
  | some s =>
    match s.transferKey, s.manifest with
    | some key, some m =>
      if (Assoc.get s.receivedChunks chunk.seq).isSome then (.error .duplicateChunk, importer)
      else if !m.inRange chunk.seq then (.error .invalidSeq, importer)
      else
        match C.decryptChunk chunk key m.manifestHash with
        | none => (.error .decryption, importer)
        | some plaintext =>
          match m.find chunk.seq with
          | none => (.error .noManifestEntry, importer)
          | some expected =>
            if C.sha256 plaintext ≠ expected.checksum then (.error .checksumMismatch, importer)
            else
              (.ok (chunk.seq, expected.name),
                some { s with receivedChunks := s.receivedChunks ++ [(chunk.seq, plaintext)] })
    | _, _ => (.error .noManifest, importer)

end MigrationImporter

namespace MigrationSession

variable (s : MigrationSession Key)

/-- All chunks have been received. -/
def isComplete : Bool :=
  s.manifest.any fun m => (s.receivedChunks.length : ℚ) = m.totalChunks

end MigrationSession

/-- The entries of a type with their bytes, in the manifest's order. -/
def groupChunksByType (metas : List MigrationChunkMeta) (data : List (ℚ × Bytes))
    (type : MigrationChunkType) : List (MigrationChunkMeta × Bytes) :=
  (metas.filterMap fun c => (Assoc.get data c.seq).map fun buf => (c, buf)).filter fun c =>
    c.1.type = type.text

/-- A secrets payload is a JSON array. -/
def secretsDecode (data : Bytes) : Bool :=
  match parse (decode data) with
  | some (.array _) => true
  | _ => false

/-- What a restore hands on : every type's entries with their bytes. -/
abbrev Handed := MigrationChunkType → List (MigrationChunkMeta × Bytes)

namespace MigrationSession

/-- What a session hands on past its completeness check, where its secrets can be read. -/
def handsOn (s : MigrationSession Key) : Except ImportError Handed :=
  match s.manifest with
  | none => .error .incomplete
  | some m =>
    if !s.isComplete then .error .incomplete
    else
      let chunksByType := groupChunksByType m.chunks s.receivedChunks
      if (chunksByType .secrets).all fun c => secretsDecode c.2 then .ok chunksByType
      else .error .malformed

/-- The buffers of the first `reached` secrets entries, filled with zeros once they were written. -/
def wipe (s : MigrationSession Key) (m : MigrationManifest) (reached : Nat) : MigrationSession Key :=
  let wiped := ((groupChunksByType m.chunks s.receivedChunks .secrets).take reached).map (·.1.seq)
  { s with receivedChunks := s.receivedChunks.map fun c =>
      if c.1 ∈ wiped then (c.1, c.2.map fun _ => 0) else c }

end MigrationSession

/-- A restore, which came to its first `reached` secrets entries. -/
def MigrationImporter.restore (importer : MigrationImporter Key) (reached : Nat) :
    Except ImportError Handed × MigrationImporter Key :=
  match importer with
  | none => (.error .incomplete, importer)
  | some s =>
    match s.handsOn, s.manifest with
    | .ok handed, some m => (.ok handed, some (s.wipe m reached))
    | .ok handed, none => (.ok handed, importer)
    | .error error, _ => (.error error, importer)

/-! ## Calls -/

inductive Op
  | startHandshake (now : Int) (privateKey challengeNonce : Bytes)
  | completeHandshake (clientPubKey : JsString)
  | setManifest (m : MigrationManifest)
  | receiveChunk (chunk : EncryptedChunk)
  | isComplete
  | restore (reached : Nat)
  | cleanup

/-- The importer after a call. -/
def step (importer : MigrationImporter Key) : Op → MigrationImporter Key
  | .startHandshake now privateKey challengeNonce =>
    (importer.startHandshake now privateKey challengeNonce).2
  | .completeHandshake clientPubKey => (importer.completeHandshake C clientPubKey).2
  | .setManifest m => (importer.setManifest C m).2
  | .receiveChunk chunk => (importer.receiveChunk C chunk).2
  | .isComplete => importer
  | .restore reached => (importer.restore reached).2
  | .cleanup => none

end Lynox.Migration
