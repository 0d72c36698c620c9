import Lynox.Data.Stateful
import Lynox.Secrets.Store
import Mathlib.Data.List.Nodup

/-!
# Re-keying a vault

A vault is a database with a salt and a row for each secret, sealed with a key derived from the master key
and the salt. `rotateVault` reads all secrets under the old key, snapshots the file, deletes the salt and the
rows, and writes the secrets again under the new key. Where an operation throws, it closes what is open,
copies the snapshot back and throws.

A connection writes to the log beside the file, and the log goes into the file when the connection is closed
(`World.close`). A connection that is open when its log is removed keeps the log, and writes it into the file
that was put back when it is closed in the end. `World.content` is what the file then holds.

`rotateVault_all_or_nothing` : the secrets are all there under the new key, or the call threw and the vault
holds what it held, exactly where no connection that has written is left open (`Stranded`). The constructor
of the new vault leaves one open where it throws after it made a salt.
-/

namespace Lynox.Secrets.Vault

open Text Stateful

/-! ## The database -/

/-- A row of `vault_secrets`. -/
structure RawRow where
  name : JsString
  encryptedValue : Bytes
  iv : Bytes
  authTag : Bytes
  scope : SecretScope
  ttlMs : Int
  createdAt : JsString
  updatedAt : JsString
deriving DecidableEq

/-- The salt in `vault_meta`, and the rows. -/
structure Db where
  salt : Option Bytes
  rows : List RawRow
deriving DecidableEq

/-- The pages that a log has of either table. -/
structure Frames where
  salt : Option (Option Bytes)
  rows : Option (List RawRow)
deriving DecidableEq

def Frames.empty : Frames :=
  ⟨none, none⟩

/-- The database with the pages of a log over it. -/
def Db.overlay (db : Db) (log : Frames) : Db :=
  ⟨log.salt.getD db.salt, log.rows.getD db.rows⟩

/-- The variables of `rotateVault` that hold a handle. -/
inductive Handle
  | db | newVault
deriving DecidableEq

/-- The file of a vault, its log, the snapshot beside it, and whether a connection is open and where its
handle is. -/
structure World where
  main : Db
  log : Frames
  connected : Bool
  held : Option Handle
  bak : Option Db
deriving DecidableEq

namespace World

def content (w : World) : Db :=
  w.main.overlay w.log

def openDb (w : World) : World :=
  { w with connected := true }

/-- The log goes into the file. -/
def checkpoint (w : World) : World :=
  { w with main := w.content, log := .empty }

def close (w : World) : World :=
  { w.checkpoint with connected := false }

def holds (handle : Option Handle) (w : World) : World :=
  { w with held := handle }

def writeSalt (salt : Option Bytes) (w : World) : World :=
  { w with log := { w.log with salt := some salt } }

def writeRows (rows : List RawRow) (w : World) : World :=
  { w with log := { w.log with rows := some rows } }

def snapshot (w : World) : World :=
  { w with bak := some w.main }

def restore (w : World) : World :=
  { w with main := w.bak.getD w.main }

/-- An open connection keeps its log. -/
def removeWal (w : World) : World :=
  if w.connected then w else { w with log := .empty }

def removeSnapshot (w : World) : World :=
  { w with bak := none }

end World

/-! ## The vault -/

/-- What is not read here : the key derivation and the cipher. -/
structure Crypto where
  /-- PBKDF2 of a master key and a salt. -/
  derive : JsString → Bytes → Bytes
  /-- AES-256-GCM under a key and an initialization vector, with the tag. -/
  encrypt : Bytes → Bytes → JsString → Bytes × Bytes
  /-- Under a key, with the vector and the tag. -/
  decrypt : Bytes → Bytes → Bytes → Bytes → Option JsString

/-- What is drawn : the salts and the vectors, and the clock. -/
structure Draws where
  oldSalt : Bytes
  newSalt : Bytes
  iv : JsString → Bytes
  now : JsString

/-- The operations of the constructor. -/
inductive Opening
  | ensureDir | openDatabase | pragmas | migrate | checkKey | readSalt | writeSalt | deriveKey
deriving DecidableEq

/-- The operations of `rotateVault` that may throw, other than the copy that restores. -/
inductive Site
  | old (o : Opening)
  | getAll | list | checkpoint | closeOld | snapshot
  | openDb | deleteSalt | deleteSecrets | closeDb
  | new (o : Opening)
  | set (name : JsString)
  | stamp (name : JsString)
  | size | closeNew | removeSnapshot
  | closeDbAgain | closeNewAgain | removeWal | removeShm | removeSnapshotAgain
deriving DecidableEq

abbrev Call (α : Type) : Type := Stateful World JsString α

structure VaultValue where
  value : JsString
  scope : SecretScope
  ttlMs : Int

structure VaultEntry where
  name : JsString
  scope : SecretScope
  ttlMs : Int
  createdAt : JsString
  updatedAt : JsString

def entryOf (row : RawRow) : VaultEntry :=
  ⟨row.name, row.scope, row.ttlMs, row.createdAt, row.updatedAt⟩

section Model

variable (crypto : Crypto) (draws : Draws) (byName : JsString → JsString → Bool)
  (fault : Site → Option JsString)

def keyRequiredText : JsString :=
  utf16 "Vault master key required. Set LYNOX_VAULT_KEY env var or pass masterKey option."

def undecryptableText (failed total : Nat) : JsString :=
  utf16 "Cannot decrypt " ++ shownDigits failed ++ utf16 " of " ++ shownDigits total ++
    utf16 (" secrets — wrong current key or corrupted vault? Refusing to re-key (would drop unreadable " ++
      "secrets).")

def RawRow.decrypt (key : Bytes) (row : RawRow) : Option JsString :=
  crypto.decrypt key row.encryptedValue row.iv row.authTag

/-- The salt there is, or the one that is drawn. -/
def getOrCreateSalt (site : Opening → Site) (drawn : Bytes) : Call Bytes := do
  step (fault (site .readSalt)) id
  let w ← state
  match w.content.salt with
  | some salt => pure salt
  | none => do
    step (fault (site .writeSalt)) (World.writeSalt (some drawn))
    pure drawn

/-- `new SecretVault` : its key. The handle is known to the caller only where it returns. -/
def construct (site : Opening → Site) (drawn : Bytes) (masterKey : JsString) : Call Bytes := do
  step (fault (site .ensureDir)) id
  step (fault (site .openDatabase)) World.openDb
  step (fault (site .pragmas)) id
  step (fault (site .migrate)) id
  if masterKey = [] then fail keyRequiredText
  else do
    step (fault (site .checkKey)) id
    let salt ← getOrCreateSalt fault site drawn
    step (fault (site .deriveKey)) id
    pure (crypto.derive masterKey salt)

/-- The secrets that decrypt. -/
def getAll (key : Bytes) (rows : List RawRow) : List (JsString × VaultValue) :=
  rows.filterMap fun row =>
    (row.decrypt crypto key).map fun value => (row.name, ⟨value, row.scope, row.ttlMs⟩)

def list (rows : List RawRow) : List VaultEntry :=
  (rows.mergeSort fun a b => byName a.name b.name).map entryOf

/-- A row is inserted, or updated but for its `created_at`. -/
def upsert (rows : List RawRow) (row : RawRow) : List RawRow :=
  if rows.any fun r => r.name = row.name then
    rows.map fun r => if r.name = row.name then { row with createdAt := r.createdAt } else r
  else rows ++ [row]

def sealedRow (key : Bytes) (name : JsString) (entry : VaultValue) : RawRow :=
  let out := crypto.encrypt key (draws.iv name) entry.value
  ⟨name, out.1, draws.iv name, out.2, entry.scope, entry.ttlMs, draws.now, draws.now⟩

def stamped (info : VaultEntry) (rows : List RawRow) : List RawRow :=
  rows.map fun r =>
    if r.name = info.name then { r with createdAt := info.createdAt, updatedAt := info.updatedAt } else r

/-- The secrets are written one after the other, each with its old times. -/
def refill (key : Bytes) (infos : List VaultEntry) : List (JsString × VaultValue) → Call PUnit
  | [] => pure ⟨⟩
  | (name, entry) :: entries => do
    step (fault (.set name)) fun w =>
      w.writeRows (upsert w.content.rows (sealedRow crypto draws key name entry))
    match infos.find? fun info => info.name = name with
    | some info => step (fault (.stamp name)) fun w => w.writeRows (stamped info w.content.rows)
    | none => pure ⟨⟩
    refill key infos entries

/-- The salt and the rows are deleted over a handle of its own. -/
def deleteAll : Call PUnit := do
  step (fault .openDb) fun w => w.openDb.holds (some .db)
  step (fault .deleteSalt) (World.writeSalt none)
  step (fault .deleteSecrets) (World.writeRows [])
  step (fault .closeDb) fun w => w.close.holds none

def rekey (newKey : JsString) (infos : List VaultEntry) (entries : List (JsString × VaultValue)) :
    Call Nat := do
  deleteAll fault
  let key ← construct crypto fault .new draws.newSalt newKey
  update (World.holds (some .newVault))
  refill crypto draws fault key infos entries
  step (fault .size) id
  let w ← state
  step (fault .closeNew) fun w => w.close.holds none
  step (fault .removeSnapshot) World.removeSnapshot
  pure w.content.rows.length

/-- What is open is closed, and the snapshot copied back. -/
def recover (held : Option Handle) : Call PUnit := do
  match held with
  | some .db => attempt (step (fault .closeDbAgain) World.close)
  | some .newVault => attempt (step (fault .closeNewAgain) World.close)
  | none => pure ⟨⟩
  attempt do
    update World.restore
    step (fault .removeWal) World.removeWal
    step (fault .removeShm) id
    step (fault .removeSnapshotAgain) World.removeSnapshot

def rotateVault (oldKey newKey : JsString) : Call Nat := do
  let key ← construct crypto fault .old draws.oldSalt oldKey
  step (fault .getAll) id
  step (fault .list) id
  let w ← state
  let entries := getAll crypto key w.content.rows
  let infos := list byName w.content.rows
  step (fault .checkpoint) World.checkpoint
  step (fault .closeOld) World.close
  if entries.length ≠ infos.length then
    fail (undecryptableText (infos.length - entries.length) infos.length)
  else do
    step (fault .snapshot) World.snapshot
    (rekey crypto draws fault newKey infos entries).rescue fun e => do
      let w ← state
      recover fault w.held
      fail e

end Model

variable {crypto : Crypto} {draws : Draws} {byName : JsString → JsString → Bool}
  {fault : Site → Option JsString}

/-! ## Worlds -/

@[simp] theorem World.content_openDb (w : World) : w.openDb.content = w.content :=
  rfl

@[simp] theorem World.content_writeRows (w : World) (rows : List RawRow) :
    (w.writeRows rows).content = ⟨w.content.salt, rows⟩ :=
  rfl

/-! ## Opening a vault -/

/-- None of the operations fails. -/
def Clear (fault : Site → Option JsString) (sites : List Site) : Prop :=
  ∀ site ∈ sites, fault site = none

instance (sites : List Site) : Decidable (Clear fault sites) :=
  inferInstanceAs (Decidable (∀ _ ∈ _, _))

/-- A vault without a salt is opened as far as making one. -/
def Salted (fault : Site → Option JsString) (site : Opening → Site) (masterKey : JsString)
    (salt : Option Bytes) : Prop :=
  masterKey ≠ [] ∧
    Clear fault ([.ensureDir, .openDatabase, .pragmas, .migrate, .checkKey, .readSalt].map site) ∧
    (salt = none → fault (site .writeSalt) = none)

instance (site : Opening → Site) (masterKey : JsString) (salt : Option Bytes) :
    Decidable (Salted fault site masterKey salt) :=
  inferInstanceAs (Decidable (_ ∧ _ ∧ (_ → _)))

/-- The world with a vault open. -/
def World.opened (drawn : Bytes) (w : World) : World :=
  match w.content.salt with
  | some _ => w.openDb
  | none => w.openDb.writeSalt (some drawn)

theorem World.opened_of_some {drawn salt : Bytes} {w : World} (h : w.content.salt = some salt) :
    w.opened drawn = w.openDb := by
  unfold World.opened
  rw [h]

theorem World.opened_of_none {drawn : Bytes} {w : World} (h : w.content.salt = none) :
    w.opened drawn = w.openDb.writeSalt (some drawn) := by
  unfold World.opened
  rw [h]

/-- Either its key, or it throws before there is a salt, or it throws with one. -/
theorem construct_ends (site : Opening → Site) (drawn : Bytes) (masterKey : JsString) (w : World) :
    Ends (construct crypto fault site drawn masterKey)
      (fun key w' => Salted fault site masterKey w.content.salt ∧ fault (site .deriveKey) = none ∧
        key = crypto.derive masterKey (w.content.salt.getD drawn) ∧ w' = w.opened drawn)
      (fun _ w' => ¬ Salted fault site masterKey w.content.salt ∧ (w' = w ∨ w' = w.openDb) ∨
        Salted fault site masterKey w.content.salt ∧ fault (site .deriveKey) ≠ none ∧
          w' = w.opened drawn) w := by
  have hreached : Salted fault site masterKey w.content.salt ↔ masterKey ≠ [] ∧
      fault (site .ensureDir) = none ∧ fault (site .openDatabase) = none ∧ fault (site .pragmas) = none ∧
      fault (site .migrate) = none ∧ fault (site .checkKey) = none ∧ fault (site .readSalt) = none ∧
      (w.content.salt = none → fault (site .writeSalt) = none) := by
    simp [Salted, Clear, and_assoc]
  rw [hreached]
  unfold construct
  simp only [ends_bind, ends_step, id]
  refine ⟨fun h₁ => ⟨fun h₂ => ⟨fun h₃ => ⟨fun h₄ => ?_, ?_⟩, ?_⟩, ?_⟩, ?_⟩
  · split
    next hkey => exact .inl ⟨fun h => h.1 hkey, .inr rfl⟩
    next hkey =>
      unfold getOrCreateSalt
      simp only [ends_bind, ends_step, ends_state, id, World.content_openDb]
      refine ⟨fun h₅ => ⟨fun h₆ => ?_, ?_⟩, ?_⟩
      · cases hsalt : w.content.salt with
        | some salt =>
          rw [World.opened_of_some hsalt]
          have hsome : some salt = none → fault (site .writeSalt) = none := fun h => absurd h (Option.some_ne_none _)
          exact ends_bind.2 (ends_step.2 ⟨fun h => ⟨⟨hkey, h₁, h₂, h₃, h₄, h₅, h₆, hsome⟩, h, rfl, rfl⟩,
            fun e he => .inr ⟨⟨hkey, h₁, h₂, h₃, h₄, h₅, h₆, hsome⟩, fun h => Option.some_ne_none _ (he.symm.trans h), rfl⟩⟩)
        | none =>
          rw [World.opened_of_none hsalt]
          refine ends_bind.2 (ends_step.2 ⟨fun h₇ => ?_, fun e he =>
            .inl ⟨fun h => Option.some_ne_none _ (he.symm.trans (h.2.2.2.2.2.2.2 rfl)), .inr rfl⟩⟩)
          exact ends_bind.2 (ends_step.2
            ⟨fun h => ⟨⟨hkey, h₁, h₂, h₃, h₄, h₅, h₆, fun _ => h₇⟩, h, rfl, rfl⟩, fun e he => .inr ⟨⟨hkey, h₁, h₂, h₃, h₄, h₅, h₆, fun _ => h₇⟩, fun h => Option.some_ne_none _ (he.symm.trans h), rfl⟩⟩)
      · exact fun e he => .inl ⟨fun h => Option.some_ne_none _ (he.symm.trans h.2.2.2.2.2.2.1), .inr trivial⟩
      · exact fun e he => .inl ⟨fun h => Option.some_ne_none _ (he.symm.trans h.2.2.2.2.2.1), .inr trivial⟩
  · exact fun e he => .inl ⟨fun h => Option.some_ne_none _ (he.symm.trans h.2.2.2.2.1), .inr trivial⟩
  · exact fun e he => .inl ⟨fun h => Option.some_ne_none _ (he.symm.trans h.2.2.2.1), .inr trivial⟩
  · exact fun e he => .inl ⟨fun h => Option.some_ne_none _ (he.symm.trans h.2.2.1), .inl trivial⟩
  · exact fun e he => .inl ⟨fun h => Option.some_ne_none _ (he.symm.trans h.2.1), .inl trivial⟩

/-! ## Filling a vault again -/

/-- The row of a secret under a new key. -/
def reseal (crypto : Crypto) (draws : Draws) (oldKey newKey : Bytes) (row : RawRow) : Option RawRow :=
  (row.decrypt crypto oldKey).map fun value =>
    { sealedRow crypto draws newKey row.name ⟨value, row.scope, row.ttlMs⟩ with
      createdAt := row.createdAt
      updatedAt := row.updatedAt }

/-- The operations that write the entries. -/
def entrySites (entries : List (JsString × VaultValue)) : List Site :=
  entries.flatMap fun e => [.set e.1, .stamp e.1]

/-- Only rows differ. -/
structure SameVault (w w' : World) : Prop where
  main : w'.main = w.main
  salt : w'.log.salt = w.log.salt
  connected : w'.connected = w.connected
  held : w'.held = w.held
  bak : w'.bak = w.bak

theorem SameVault.trans {w w' w'' : World} (h : SameVault w w') (h' : SameVault w' w'') :
    SameVault w w'' :=
  ⟨h'.main.trans h.main, h'.salt.trans h.salt, h'.connected.trans h.connected, h'.held.trans h.held,
    h'.bak.trans h.bak⟩

theorem World.sameVault_writeRows (w : World) (rows : List RawRow) : SameVault w (w.writeRows rows) :=
  ⟨rfl, rfl, rfl, rfl, rfl⟩

theorem upsert_of_notMem {rows : List RawRow} {row : RawRow} (h : row.name ∉ rows.map RawRow.name) :
    upsert rows row = rows ++ [row] := by
  refine if_neg fun hany => h ?_
  obtain ⟨r, hr, heq⟩ := List.any_eq_true.1 hany
  exact List.mem_map.2 ⟨r, hr, of_decide_eq_true heq⟩

theorem stamped_concat {rows : List RawRow} {info : VaultEntry} {row : RawRow}
    (hname : row.name = info.name) (h : info.name ∉ rows.map RawRow.name) :
    stamped info (rows ++ [row]) =
      rows ++ [{ row with createdAt := info.createdAt, updatedAt := info.updatedAt }] := by
  unfold stamped
  rw [List.map_append, List.map_singleton, if_pos hname]
  refine congrArg (· ++ _) ((List.map_congr_left fun r hr => ?_).trans (List.map_id rows))
  exact if_neg fun heq => h (List.mem_map.2 ⟨r, hr, heq⟩)

/-- Either every secret is written under the new key, or some operation fails. -/
theorem refill_ends {oldKey newKey : Bytes} {infos : List VaultEntry} :
    ∀ (rows : List RawRow) (w : World),
      (∀ row ∈ rows, infos.find? (fun info => info.name = row.name) = some (entryOf row)) →
      (w.content.rows.map RawRow.name ++ rows.map RawRow.name).Nodup →
      Ends (refill crypto draws fault newKey infos (getAll crypto oldKey rows))
        (fun _ w' => Clear fault (entrySites (getAll crypto oldKey rows)) ∧ SameVault w w' ∧
          w'.content.rows = w.content.rows ++ rows.filterMap (reseal crypto draws oldKey newKey))
        (fun _ w' => ¬ Clear fault (entrySites (getAll crypto oldKey rows)) ∧ SameVault w w') w
  | [], w, _, _ => ⟨fun _ h => (nomatch h), ⟨rfl, rfl, rfl, rfl, rfl⟩, (List.append_nil _).symm⟩
  | row :: rows, w, hinfos, hnodup => by
    have htail := fun r hr => hinfos r (List.mem_cons_of_mem row hr)
    cases hvalue : row.decrypt crypto oldKey with
    | none =>
      have hall : getAll crypto oldKey (row :: rows) = getAll crypto oldKey rows :=
        List.filterMap_cons_none (by rw [hvalue]; rfl)
      rw [hall, List.filterMap_cons_none (by rw [reseal, hvalue]; rfl)]
      refine refill_ends rows w htail (hnodup.sublist ?_)
      exact (List.sublist_cons_self _ _).map _ |>.append_left _
    | some value =>
      have hall : getAll crypto oldKey (row :: rows) =
          (row.name, ⟨value, row.scope, row.ttlMs⟩) :: getAll crypto oldKey rows :=
        List.filterMap_cons_some (by rw [hvalue]; rfl)
      obtain ⟨r, hr⟩ : ∃ r, r = sealedRow crypto draws newKey row.name ⟨value, row.scope, row.ttlMs⟩ :=
        ⟨_, rfl⟩
      have hname : r.name = row.name := by rw [hr]; rfl
      have hreseal : reseal crypto draws oldKey newKey row =
          some { r with createdAt := row.createdAt, updatedAt := row.updatedAt } := by
        rw [reseal, hvalue, hr]
        rfl
      rw [hall, List.filterMap_cons_some hreseal]
      have hfresh : row.name ∉ w.content.rows.map RawRow.name := fun h =>
        (List.disjoint_of_nodup_append hnodup) h List.mem_cons_self
      have hclear : Clear fault
          (entrySites ((row.name, ⟨value, row.scope, row.ttlMs⟩) :: getAll crypto oldKey rows)) ↔
          fault (.set row.name) = none ∧ fault (.stamp row.name) = none ∧
            Clear fault (entrySites (getAll crypto oldKey rows)) := by
        simp [Clear, entrySites]
      unfold refill
      rw [hinfos row List.mem_cons_self, hclear, ← hr]
      dsimp only
      refine ends_bind.2 (ends_step.2 ⟨fun hset => ends_bind.2 (ends_step.2 ⟨fun hstamp => ?_, ?_⟩), ?_⟩)
      · rw [upsert_of_notMem (hname ▸ hfresh), World.content_writeRows, stamped_concat hname hfresh]
        have hsame := (w.sameVault_writeRows (w.content.rows ++ [r])).trans (World.sameVault_writeRows _
          (w.content.rows ++ [{ r with createdAt := row.createdAt, updatedAt := row.updatedAt }]))
        refine (refill_ends rows _ htail ?_).mono ?_ ?_
        · simpa [hname] using hnodup
        · rintro _ w' ⟨hrest, hsame', hcontent⟩
          refine ⟨⟨hset, hstamp, hrest⟩, hsame.trans hsame', ?_⟩
          rw [hcontent, World.content_writeRows, List.append_assoc, List.singleton_append]
          rfl
        · exact fun _ w' h => ⟨fun hall => h.1 hall.2.2, hsame.trans h.2⟩
      · exact fun e he => ⟨fun h => (nomatch he.symm.trans h.2.1), w.sameVault_writeRows _⟩
      · exact fun e he => ⟨fun h => (nomatch he.symm.trans h.1), ⟨rfl, rfl, rfl, rfl, rfl⟩⟩

/-! ## Putting the snapshot back -/

/-- The handle is closed on the way back. -/
def Closing (fault : Site → Option JsString) : Option Handle → Prop
  | some .db => fault .closeDbAgain = none
  | some .newVault => fault .closeNewAgain = none
  | none => False

/-- The file is the snapshot, with the log over it where a connection keeps one. -/
theorem restore_ends {w : World} {d : Db} (hbak : w.bak = some d) :
    Ends (attempt do
        update World.restore
        step (fault .removeWal) World.removeWal
        step (fault .removeShm) id
        step (fault .removeSnapshotAgain) World.removeSnapshot)
      (fun _ w' => (w.log = .empty → w'.content = d) ∧ (w.connected = true → w'.content = d.overlay w.log))
      (fun _ _ => False) w := by
  have hmain : w.restore = { w with main := d } := by
    unfold World.restore
    rw [hbak]
    rfl
  have hrestored : (w.log = .empty → w.restore.content = d) ∧
      (w.connected = true → w.restore.content = d.overlay w.log) := by
    rw [hmain]
    exact ⟨fun h => by rw [World.content, h]; rfl, fun _ => rfl⟩
  have hremoved : (w.log = .empty → w.restore.removeWal.content = d) ∧
      (w.connected = true → w.restore.removeWal.content = d.overlay w.log) := by
    rw [hmain]
    unfold World.removeWal
    split
    · exact ⟨fun h => by rw [World.content, h]; rfl, fun _ => rfl⟩
    next hclosed => exact ⟨fun _ => rfl, fun h => absurd h hclosed⟩
  unfold attempt
  refine ends_rescue.2 (ends_bind.2 (ends_bind.2 (ends_step.2 ⟨fun _ => ends_bind.2 (ends_step.2
    ⟨fun _ => ends_step.2 ⟨fun _ => hremoved, fun _ _ => hremoved⟩, fun _ _ => hremoved⟩), fun _ _ => ?_⟩)))
  exact hrestored

theorem recover_ends {w : World} {d : Db} (hbak : w.bak = some d) :
    Ends (recover fault w.held)
      (fun _ w' => (w.log = .empty ∨ Closing fault w.held → w'.content = d) ∧
        (w.connected = true → ¬ Closing fault w.held → w'.content = d.overlay w.log))
      (fun _ _ => False) w := by
  have hclosed : ∀ again : Option JsString, (Closing fault w.held ↔ again = none) →
      Ends (attempt (step again World.close))
        (fun _ w' => w'.bak = some d ∧ (w.log = .empty ∨ Closing fault w.held → w'.log = .empty) ∧
          (w.connected = true → ¬ Closing fault w.held → w'.connected = true ∧ w'.log = w.log))
        (fun _ _ => False) w := fun again hagain => by
    unfold attempt
    refine ends_rescue.2 (ends_step.2 ⟨fun h => ⟨hbak, fun _ => rfl, fun _ hopen => ?_⟩, fun e he =>
      ⟨hbak, fun h => h.resolve_right fun h => ?_, fun h _ => ⟨h, rfl⟩⟩⟩)
    · exact absurd (hagain.2 h) hopen
    · exact nomatch he.symm.trans (hagain.1 h)
  have hthen : ∀ {w' : World}, w'.bak = some d → (w.log = .empty ∨ Closing fault w.held → w'.log = .empty) →
      (w.connected = true → ¬ Closing fault w.held → w'.connected = true ∧ w'.log = w.log) →
      Ends (attempt do
        update World.restore
        step (fault .removeWal) World.removeWal
        step (fault .removeShm) id
        step (fault .removeSnapshotAgain) World.removeSnapshot)
      (fun _ w' => (w.log = .empty ∨ Closing fault w.held → w'.content = d) ∧
        (w.connected = true → ¬ Closing fault w.held → w'.content = d.overlay w.log))
      (fun _ _ => False) w' := fun {w'} hbak' hempty hopen =>
    (restore_ends hbak').mono (fun _ w'' h => ⟨fun hw => h.1 (hempty hw), fun hc hn => by
      rw [h.2 (hopen hc hn).1, (hopen hc hn).2]⟩) fun _ _ h => h
  unfold recover
  cases hheld : w.held with
  | none =>
    rw [hheld] at hthen
    exact hthen hbak (fun h => h.resolve_right id) fun h _ => ⟨h, rfl⟩
  | some handle =>
    cases handle with
    | db =>
      rw [hheld] at hthen hclosed
      exact ends_bind.2 ((hclosed _ Iff.rfl).mono (fun _ w' h => hthen h.1 h.2.1 h.2.2) fun _ _ h => h)
    | newVault =>
      rw [hheld] at hthen hclosed
      exact ends_bind.2 ((hclosed _ Iff.rfl).mono (fun _ w' h => hthen h.1 h.2.1 h.2.2) fun _ _ h => h)

/-! ## Re-keying -/

/-- A connection that has written is left open : the salt is made and the key derivation then throws, whose
connection nothing closes, or an operation fails after a handle has written, and the handle does not close
again. -/
def Stranded (fault : Site → Option JsString) (newKey : JsString)
    (entries : List (JsString × VaultValue)) : Prop :=
  Clear fault [.openDb, .deleteSalt] ∧
    (¬ Clear fault [.deleteSecrets, .closeDb] ∧ fault .closeDbAgain ≠ none ∨
      Clear fault [.deleteSecrets, .closeDb] ∧ Salted fault .new newKey none ∧
        (fault (.new .deriveKey) ≠ none ∨
          ¬ Clear fault (entrySites entries ++ [.size, .closeNew]) ∧ fault .closeNewAgain ≠ none))

/-- How the world is where the re-keying throws. -/
def Fallen (fault : Site → Option JsString) (drawn : Bytes) (stranded : Prop) (w : World) : Prop :=
  ¬ stranded ∧ (w.log = .empty ∨ Closing fault w.held) ∨
    stranded ∧ w.connected = true ∧ ¬ Closing fault w.held ∧
      (w.log.salt = some none ∨ w.log.salt = some (some drawn))

theorem deleteAll_ends {w : World} (hlog : w.log = .empty) :
    Ends (deleteAll fault)
      (fun _ w' => Clear fault [.openDb, .deleteSalt] ∧ Clear fault [.deleteSecrets, .closeDb] ∧
        w' = ⟨⟨none, []⟩, .empty, false, none, w.bak⟩)
      (fun _ w' => w'.bak = w.bak ∧
        (¬ Clear fault [.openDb, .deleteSalt] ∧ w'.log = .empty ∨
          Clear fault [.openDb, .deleteSalt] ∧ ¬ Clear fault [.deleteSecrets, .closeDb] ∧
            w'.held = some .db ∧ w'.connected = true ∧ w'.log.salt = some none)) w := by
  simp only [Clear, List.forall_mem_cons, List.not_mem_nil, false_imp_iff, implies_true, and_true]
  unfold deleteAll
  refine ends_bind.2 (ends_step.2 ⟨fun h₁ => ends_bind.2 (ends_step.2 ⟨fun h₂ => ends_bind.2 (ends_step.2
    ⟨fun h₃ => ends_step.2 ⟨fun h₄ => ⟨⟨h₁, h₂⟩, ⟨h₃, h₄⟩, rfl⟩, fun e he => ?_⟩, fun e he => ?_⟩),
    fun e he => ?_⟩), fun e he => ?_⟩)
  · exact ⟨rfl, .inr ⟨⟨h₁, h₂⟩, fun h => (nomatch he.symm.trans h.2), rfl, rfl, rfl⟩⟩
  · exact ⟨rfl, .inr ⟨⟨h₁, h₂⟩, fun h => (nomatch he.symm.trans h.1), rfl, rfl, rfl⟩⟩
  · exact ⟨rfl, .inl ⟨fun h => (nomatch he.symm.trans h.2), hlog⟩⟩
  · exact ⟨rfl, .inl ⟨fun h => (nomatch he.symm.trans h.1), hlog⟩⟩

theorem rekey_ends {oldKey : Bytes} {newKey : JsString} {infos : List VaultEntry} {rows : List RawRow}
    {w : World} (hlog : w.log = .empty)
    (hinfos : ∀ row ∈ rows, infos.find? (fun info => info.name = row.name) = some (entryOf row))
    (hnodup : (rows.map RawRow.name).Nodup) :
    Ends (rekey crypto draws fault newKey infos (getAll crypto oldKey rows))
      (fun count w' => ¬ Stranded fault newKey (getAll crypto oldKey rows) ∧
        w'.content = ⟨some draws.newSalt,
          rows.filterMap (reseal crypto draws oldKey (crypto.derive newKey draws.newSalt))⟩ ∧
        count = w'.content.rows.length)
      (fun _ w' => w'.bak = w.bak ∧
        Fallen fault draws.newSalt (Stranded fault newKey (getAll crypto oldKey rows)) w') w := by
  unfold rekey
  refine ends_bind.2 ((deleteAll_ends hlog).mono ?_ ?_)
  · rintro _ _ ⟨hfirst, hdeleted, rfl⟩
    refine ends_bind.2 ((construct_ends .new draws.newSalt newKey _).mono ?_ ?_)
    · rintro _ _ ⟨hsalted, hderive, rfl, rfl⟩
      rw [World.opened_of_none rfl]
      -- From here on the handle is known, and the log has the new salt.
      have hstranded : Stranded fault newKey (getAll crypto oldKey rows) ↔
          ¬ Clear fault (entrySites (getAll crypto oldKey rows) ++ [.size, .closeNew]) ∧
            fault .closeNewAgain ≠ none := by
        refine ⟨fun h => ?_, fun h => ⟨hfirst, .inr ⟨hdeleted, hsalted, .inr h⟩⟩⟩
        rcases h.2 with h | h
        · exact absurd hdeleted h.1
        · exact h.2.2.resolve_left fun h => h hderive
      have hfallen : ∀ {w' : World}, ¬ Clear fault (entrySites (getAll crypto oldKey rows) ++ [.size, .closeNew]) →
          w'.connected = true → w'.held = some .newVault → w'.log.salt = some (some draws.newSalt) →
          Fallen fault draws.newSalt (Stranded fault newKey (getAll crypto oldKey rows)) w' :=
        fun {w'} hclear hconnected hheld hsalt => by
          unfold Fallen
          rw [hheld, hstranded]
          by_cases hagain : fault .closeNewAgain = none
          · exact .inl ⟨fun h => h.2 hagain, .inr hagain⟩
          · exact .inr ⟨⟨hclear, hagain⟩, hconnected, hagain, .inr hsalt⟩
      refine ends_bind.2 (ends_update.2 (ends_bind.2 (Ends.mono ?_ ?_ (refill_ends rows _ hinfos ?_))))
      rotate_right
      · exact hnodup
      · rintro _ w' ⟨hfilled, hsame, hrows⟩
        have hcontent : w'.content = ⟨some draws.newSalt,
            rows.filterMap (reseal crypto draws oldKey (crypto.derive newKey draws.newSalt))⟩ := by
          have hsalt : w'.content.salt = some draws.newSalt := by
            unfold World.content Db.overlay
            rw [hsame.salt]
            rfl
          rw [← hsalt]
          exact congrArg (Db.mk _) hrows
        have hall : Clear fault (entrySites (getAll crypto oldKey rows) ++ [.size, .closeNew]) ↔
            fault .size = none ∧ fault .closeNew = none := by
          refine ⟨fun h => ⟨h _ (by simp), h _ (by simp)⟩, fun h site hsite => ?_⟩
          rcases List.mem_append.1 hsite with hsite | hsite
          · exact hfilled site hsite
          · rcases List.mem_pair.1 hsite with rfl | rfl
            · exact h.1
            · exact h.2
        refine ends_bind.2 (ends_step.2 ⟨fun hsize => ?_, fun e he => ⟨hsame.bak, hfallen ?_ hsame.connected
          hsame.held hsame.salt⟩⟩)
        · refine ends_bind.2 (ends_state.2 (ends_bind.2 (ends_step.2 ⟨fun hclose => ?_, fun e he =>
            ⟨hsame.bak, hfallen ?_ hsame.connected hsame.held hsame.salt⟩⟩)))
          · have hspared : ¬ Stranded fault newKey (getAll crypto oldKey rows) := fun h =>
              (hstranded.1 h).1 (hall.2 ⟨hsize, hclose⟩)
            refine ends_bind.2 (ends_step.2 ⟨fun _ => ⟨hspared, hcontent, rfl⟩, fun e he =>
              ⟨hsame.bak, .inl ⟨hspared, .inl rfl⟩⟩⟩)
          · exact fun h => nomatch he.symm.trans (hall.1 h).2
        · exact fun h => nomatch he.symm.trans (hall.1 h).1
      · rintro _ w' ⟨hfilled, hsame⟩
        refine ⟨hsame.bak, hfallen (fun h => hfilled fun site hsite => h site ?_) hsame.connected hsame.held
          hsame.salt⟩
        exact List.mem_append_left _ hsite
    · rintro _ w' (⟨hsalted, rfl | rfl⟩ | ⟨hsalted, hderive, rfl⟩)
      · exact ⟨rfl, .inl ⟨fun h => h.2.elim (fun h => h.1 hdeleted) fun h => hsalted h.2.1, .inl rfl⟩⟩
      · exact ⟨rfl, .inl ⟨fun h => h.2.elim (fun h => h.1 hdeleted) fun h => hsalted h.2.1, .inl rfl⟩⟩
      · rw [World.opened_of_none rfl]
        exact ⟨rfl, .inr ⟨⟨hfirst, .inr ⟨hdeleted, hsalted, .inl hderive⟩⟩, rfl, id, .inr rfl⟩⟩
  · rintro _ w' ⟨hbak, ⟨hfirst, hempty⟩ | ⟨hfirst, hdeleted, hheld, hconnected, hsalt⟩⟩
    · exact ⟨hbak, .inl ⟨fun h => hfirst h.1, .inl hempty⟩⟩
    · refine ⟨hbak, ?_⟩
      have hstranded : Stranded fault newKey (getAll crypto oldKey rows) ↔ fault .closeDbAgain ≠ none :=
        ⟨fun h => h.2.elim And.right fun h => absurd h.1 hdeleted,
          fun h => ⟨hfirst, .inl ⟨hdeleted, h⟩⟩⟩
      unfold Fallen
      rw [hheld, hstranded]
      by_cases hagain : fault .closeDbAgain = none
      · exact .inl ⟨fun h => h hagain, .inr hagain⟩
      · exact .inr ⟨hagain, hconnected, hagain, .inl hsalt⟩

/-! ## All or nothing -/

/-- A secret as it is read. -/
structure Secret where
  name : JsString
  value : JsString
  scope : SecretScope
  ttlMs : Int
  createdAt : JsString
  updatedAt : JsString

def RawRow.read (crypto : Crypto) (key : Bytes) (row : RawRow) : Option Secret :=
  (row.decrypt crypto key).map fun value =>
    ⟨row.name, value, row.scope, row.ttlMs, row.createdAt, row.updatedAt⟩

/-- All secrets are readable under a master key, and they are these. -/
def Db.Opens (crypto : Crypto) (masterKey : JsString) (db : Db) (secrets : List Secret) : Prop :=
  ∃ salt, db.salt = some salt ∧
    db.rows.map (RawRow.read crypto (crypto.derive masterKey salt)) = secrets.map some

/-- Every row is what it was, and so is a salt. -/
def Db.Intact (before after : Db) : Prop :=
  after.rows = before.rows ∧ ∀ salt, before.salt = some salt → after.salt = some salt

/-- The database with a salt, which opening it makes where there is none. -/
def Db.salted (drawn : Bytes) (db : Db) : Db :=
  ⟨some (db.salt.getD drawn), db.rows⟩

theorem Db.Intact.refl (db : Db) : db.Intact db :=
  ⟨rfl, fun _ h => h⟩

theorem Db.intact_salted (drawn : Bytes) (db : Db) : db.Intact (db.salted drawn) :=
  ⟨rfl, fun salt h => by rw [salted, h]; rfl⟩

theorem World.content_opened (drawn : Bytes) (w : World) :
    (w.opened drawn).content = w.content.salted drawn := by
  unfold Db.salted
  cases hsalt : w.content.salt with
  | some salt =>
    rw [opened_of_some hsalt, content_openDb, Option.getD_some, ← hsalt]
  | none =>
    rw [opened_of_none hsalt]
    rfl

/-- Either every secret is there under the new key, or the vault holds what it held. -/
def AllOrNothing (crypto : Crypto) (draws : Draws) (oldKey newKey : JsString) (before : Db)
    (out : Except JsString Nat × World) : Prop :=
  match out.1 with
  | .ok count => ∃ secrets, (before.salted draws.oldSalt).Opens crypto oldKey secrets ∧
      out.2.content.Opens crypto newKey secrets ∧ count = secrets.length
  | .error _ => before.Intact out.2.content

/-- The secrets that decrypt under a master key. -/
def Db.entries (crypto : Crypto) (draws : Draws) (masterKey : JsString) (db : Db) :
    List (JsString × VaultValue) :=
  getAll crypto (crypto.derive masterKey (db.salt.getD draws.oldSalt)) db.rows

/-- The vault is read, and every secret decrypts, and then a connection that has written is left open. -/
def LeavesOpen (crypto : Crypto) (draws : Draws) (fault : Site → Option JsString)
    (oldKey newKey : JsString) (db : Db) : Prop :=
  Salted fault .old oldKey db.salt ∧ fault (.old .deriveKey) = none ∧
    Clear fault [.getAll, .list, .checkpoint, .closeOld, .snapshot] ∧
    (db.entries crypto draws oldKey).length = db.rows.length ∧
    Stranded fault newKey (db.entries crypto draws oldKey)

theorem list_find {rows : List RawRow} (hnodup : (rows.map RawRow.name).Nodup) {row : RawRow}
    (hrow : row ∈ rows) :
    (list byName rows).find? (fun info => info.name = row.name) = some (entryOf row) := by
  unfold list
  rw [List.find?_map]
  have hsome : ((rows.mergeSort fun a b => byName a.name b.name).find?
      ((fun info : VaultEntry => decide (info.name = row.name)) ∘ entryOf)).isSome :=
    List.find?_isSome.2 ⟨row, List.mem_mergeSort.2 hrow, decide_eq_true rfl⟩
  obtain ⟨found, hfound⟩ := Option.isSome_iff_exists.1 hsome
  have hname : found.name = row.name := of_decide_eq_true (List.find?_some hfound :)
  have hmem := List.mem_mergeSort.1 (List.mem_of_find?_eq_some hfound)
  rw [hfound, List.inj_on_of_nodup_map hnodup hmem hrow hname]
  rfl

/-- Either the vault holds the secrets under the new key, or it throws and holds what it held, or a connection
is left open that has another salt. -/
theorem rotateVault_ends (crypto : Crypto) (draws : Draws) (byName : JsString → JsString → Bool)
    (fault : Site → Option JsString) (oldKey newKey : JsString) {w : World}
    (hnodup : (w.content.rows.map RawRow.name).Nodup) :
    Ends (rotateVault crypto draws byName fault oldKey newKey)
      (fun count w' => ¬ LeavesOpen crypto draws fault oldKey newKey w.content ∧
        (w.content.entries crypto draws oldKey).length = w.content.rows.length ∧
        w'.content = ⟨some draws.newSalt, w.content.rows.filterMap (reseal crypto draws
          (crypto.derive oldKey (w.content.salt.getD draws.oldSalt))
          (crypto.derive newKey draws.newSalt))⟩ ∧
        count = w'.content.rows.length)
      (fun _ w' => ¬ LeavesOpen crypto draws fault oldKey newKey w.content ∧ w.content.Intact w'.content ∨
        LeavesOpen crypto draws fault oldKey newKey w.content ∧
          (w.content.entries crypto draws oldKey).length = w.content.rows.length ∧
          (w'.content.salt = none ∨ w'.content.salt = some draws.newSalt)) w := by
  have hintact : w.content.Intact (w.opened draws.oldSalt).content := by
    rw [World.content_opened]
    exact Db.intact_salted _ _
  unfold rotateVault
  refine ends_bind.2 ((construct_ends .old draws.oldSalt oldKey w).mono ?_ ?_)
  · rintro _ _ ⟨hsalted, hderive, rfl, rfl⟩
    have hrows : (w.opened draws.oldSalt).content.rows = w.content.rows := by
      rw [World.content_opened]
      rfl
    refine ends_bind.2 (ends_step.2 ⟨fun h₁ => ends_bind.2 (ends_step.2 ⟨fun h₂ => ends_bind.2 (ends_state.2
      (ends_bind.2 (ends_step.2 ⟨fun h₃ => ends_bind.2 (ends_step.2 ⟨fun h₄ => ?_, fun e he => ?_⟩),
        fun e he => ?_⟩))), fun e he => ?_⟩), fun e he => ?_⟩)
    · have hlength : (list byName w.content.rows).length = w.content.rows.length := by
        rw [list, List.length_map, List.length_mergeSort]
      simp only [id, hrows, hlength]
      split
      next hfailed => exact .inl ⟨fun h => hfailed h.2.2.2.1, hintact⟩
      next hread =>
        have hread := not_not.1 hread
        refine ends_bind.2 (ends_step.2 ⟨fun h₅ => ends_rescue.2 ?_, fun e he =>
          .inl ⟨fun h => ?_, hintact⟩⟩)
        · have hclear : Clear fault [.getAll, .list, .checkpoint, .closeOld, .snapshot] := by
            simp [Clear, h₁, h₂, h₃, h₄, h₅]
          have hleaves : LeavesOpen crypto draws fault oldKey newKey w.content ↔
              Stranded fault newKey (w.content.entries crypto draws oldKey) :=
            ⟨fun h => h.2.2.2.2, fun h => ⟨hsalted, hderive, hclear, hread, h⟩⟩
          refine (rekey_ends rfl (fun row hrow => list_find hnodup hrow) hnodup).mono ?_ ?_
          · rintro count w' ⟨hspared, hcontent, hcount⟩
            exact ⟨fun h => hspared (hleaves.1 h), hread, hcontent, hcount⟩
          · rintro e w' ⟨hbak, hfallen⟩
            refine ends_bind.2 (ends_state.2 (ends_bind.2 ((recover_ends hbak).mono ?_ fun _ _ h => h.elim)))
            rintro _ w'' ⟨hempty, hopen⟩
            rcases hfallen with ⟨hspared, hsafe⟩ | ⟨hstranded, hconnected, hclosing, hsalt⟩
            · refine .inl ⟨fun h => hspared (hleaves.1 h), ?_⟩
              rw [hempty hsafe]
              exact hintact
            · refine .inr ⟨hleaves.2 hstranded, hread, ?_⟩
              rw [hopen hconnected hclosing]
              unfold Db.overlay
              rcases hsalt with hsalt | hsalt
              · exact .inl (by rw [hsalt]; rfl)
              · exact .inr (by rw [hsalt]; rfl)
        · exact nomatch he.symm.trans (h.2.2.1 _ (by simp))
    all_goals exact .inl ⟨fun h => (nomatch he.symm.trans (h.2.2.1 _ (by simp))), hintact⟩
  · rintro _ w' (⟨hsalted, rfl | rfl⟩ | ⟨-, hderive, rfl⟩)
    · exact .inl ⟨fun h => hsalted h.1, .refl _⟩
    · exact .inl ⟨fun h => hsalted h.1, .refl _⟩
    · exact .inl ⟨fun h => hderive h.2.1, hintact⟩

/-! ## What is read -/

/-- What was decrypted is encrypted and decrypted again. -/
def Crypto.Reads (crypto : Crypto) : Prop :=
  ∀ (row : RawRow) (key key' iv : Bytes) (value : JsString), row.decrypt crypto key = some value →
    crypto.decrypt key' (crypto.encrypt key' iv value).1 iv (crypto.encrypt key' iv value).2 = some value

theorem read_reseal (draws : Draws) (hreads : crypto.Reads) (oldKey newKey : Bytes) (row : RawRow) :
    (reseal crypto draws oldKey newKey row).map (RawRow.read crypto newKey) =
      (row.read crypto oldKey).map some := by
  unfold reseal RawRow.read
  cases hvalue : row.decrypt crypto oldKey with
  | none => rfl
  | some value =>
    have hagain := hreads row oldKey newKey (draws.iv row.name) value hvalue
    simp [sealedRow, RawRow.decrypt, hagain]

theorem map_read_reseal (draws : Draws) (hreads : crypto.Reads) (oldKey newKey : Bytes) : ∀ rows : List RawRow,
    (rows.filterMap (reseal crypto draws oldKey newKey)).map (RawRow.read crypto newKey) =
      (rows.filterMap (RawRow.read crypto oldKey)).map some
  | [] => rfl
  | row :: rows => by
    have ih := map_read_reseal draws hreads oldKey newKey rows
    have hrow := read_reseal draws hreads oldKey newKey row
    cases hseal : reseal crypto draws oldKey newKey row with
    | none =>
      rw [hseal, Option.map_none, eq_comm, Option.map_eq_none_iff] at hrow
      rw [List.filterMap_cons_none hseal, List.filterMap_cons_none hrow, ih]
    | some r =>
      rw [hseal, Option.map_some, eq_comm, Option.map_eq_some_iff] at hrow
      obtain ⟨secret, hsecret, heq⟩ := hrow
      rw [List.filterMap_cons_some hseal, List.filterMap_cons_some hsecret, List.map_cons, List.map_cons,
        ih, heq]

/-- Where every row decrypts, every row is read. -/
theorem map_read_of_length {key : Bytes} {rows : List RawRow}
    (h : (getAll crypto key rows).length = rows.length) :
    rows.map (RawRow.read crypto key) = (rows.filterMap (RawRow.read crypto key)).map some := by
  have hall : ∀ row ∈ rows, (row.read crypto key).isSome := fun row hrow => by
    have := List.filterMap_length_eq_length.1 h row hrow
    rw [Option.isSome_map] at this
    rwa [RawRow.read, Option.isSome_map]
  clear h
  induction rows with
  | nil => rfl
  | cons row rows ih =>
    obtain ⟨secret, hsecret⟩ := Option.isSome_iff_exists.1 (hall row List.mem_cons_self)
    rw [List.map_cons, List.filterMap_cons_some hsecret, List.map_cons, hsecret,
      ih fun r hr => hall r (List.mem_cons_of_mem _ hr)]

theorem allOrNothing_of_not_leavesOpen (hreads : crypto.Reads) {oldKey newKey : JsString} {w : World}
    (hnodup : (w.content.rows.map RawRow.name).Nodup)
    (h : ¬ LeavesOpen crypto draws fault oldKey newKey w.content) :
    AllOrNothing crypto draws oldKey newKey w.content
      (rotateVault crypto draws byName fault oldKey newKey w) := by
  have hends := rotateVault_ends crypto draws byName fault oldKey newKey hnodup
  unfold Ends at hends
  unfold AllOrNothing
  rcases hout : rotateVault crypto draws byName fault oldKey newKey w with ⟨_ | count, w'⟩
  · rw [hout] at hends
    exact (hends.resolve_right fun hopen => h hopen.1).2
  · rw [hout] at hends
    obtain ⟨-, hall, hcontent, hcount⟩ := hends
    have hread := map_read_reseal draws hreads
      (crypto.derive oldKey (w.content.salt.getD draws.oldSalt)) (crypto.derive newKey draws.newSalt)
      w.content.rows
    refine ⟨_, ⟨_, rfl, map_read_of_length hall⟩, ⟨draws.newSalt, by rw [hcontent], ?_⟩, ?_⟩
    · rw [hcontent]
      exact hread
    · have hlength := congrArg List.length hread
      rw [List.length_map, List.length_map] at hlength
      rw [hcount, hcontent]
      exact hlength

theorem not_allOrNothing_of_leavesOpen {oldKey newKey : JsString} {w : World}
    (hnodup : (w.content.rows.map RawRow.name).Nodup) {salt : Bytes} (hsalt : w.content.salt = some salt)
    (hne : salt ≠ draws.newSalt) (h : LeavesOpen crypto draws fault oldKey newKey w.content) :
    ¬ AllOrNothing crypto draws oldKey newKey w.content
      (rotateVault crypto draws byName fault oldKey newKey w) := by
  have hends := rotateVault_ends crypto draws byName fault oldKey newKey hnodup
  unfold Ends at hends
  unfold AllOrNothing
  rcases hout : rotateVault crypto draws byName fault oldKey newKey w with ⟨_ | count, w'⟩
  · rw [hout] at hends
    intro hintact
    have hkept := hintact.2 salt hsalt
    rcases (hends.resolve_left fun hspared => hspared.1 h).2.2 with hnone | hnew
    · exact nomatch hnone.symm.trans hkept
    · exact hne (Option.some.inj (hkept.symm.trans hnew))
  · rw [hout] at hends
    exact absurd h hends.1

/-- A vault before a re-keying : no connection to it is open. -/
def World.start (main : Db) (log : Frames) (bak : Option Db) : World :=
  ⟨main, log, false, none, bak⟩

/-- The secrets are all there under the new key, or it throws and the vault holds what it held, exactly where
no connection that has written is left open. A vault with a secret that does not decrypt holds what it held. -/
theorem rotateVault_all_or_nothing (hreads : crypto.Reads) (oldKey newKey : JsString) (main : Db)
    (log : Frames) (bak : Option Db) (hnodup : ((main.overlay log).rows.map RawRow.name).Nodup) :
    (¬ LeavesOpen crypto draws fault oldKey newKey (main.overlay log) →
      AllOrNothing crypto draws oldKey newKey (main.overlay log)
        (rotateVault crypto draws byName fault oldKey newKey (.start main log bak))) ∧
    (∀ salt, (main.overlay log).salt = some salt → salt ≠ draws.newSalt →
      LeavesOpen crypto draws fault oldKey newKey (main.overlay log) →
      ¬ AllOrNothing crypto draws oldKey newKey (main.overlay log)
        (rotateVault crypto draws byName fault oldKey newKey (.start main log bak))) ∧
    ((∃ row ∈ (main.overlay log).rows, row.decrypt crypto
        (crypto.derive oldKey ((main.overlay log).salt.getD draws.oldSalt)) = none) →
      (∃ e, (rotateVault crypto draws byName fault oldKey newKey (.start main log bak)).1 = .error e) ∧
        (main.overlay log).Intact
          (rotateVault crypto draws byName fault oldKey newKey (.start main log bak)).2.content) := by
  refine ⟨allOrNothing_of_not_leavesOpen (w := .start main log bak) hreads hnodup, fun salt hsalt hne =>
    not_allOrNothing_of_leavesOpen (w := .start main log bak) hnodup hsalt hne, ?_⟩
  rintro ⟨row, hrow, hnone⟩
  have hfails : ¬ ((main.overlay log).entries crypto draws oldKey).length = (main.overlay log).rows.length :=
    fun h => by
      have := List.filterMap_length_eq_length.1 h row hrow
      rw [hnone] at this
      exact nomatch this
  have hends := rotateVault_ends crypto draws byName fault oldKey newKey (w := .start main log bak) hnodup
  unfold Ends at hends
  rcases hout : rotateVault crypto draws byName fault oldKey newKey (.start main log bak) with
    ⟨e | count, w'⟩
  · rw [hout] at hends
    exact ⟨⟨e, rfl⟩, (hends.resolve_right fun h => hfails h.2.1).2⟩
  · rw [hout] at hends
    exact absurd hends.2.1 hfails

/-- A cipher for one text, which is as good as any for it. -/
def oneText : Crypto where
  derive masterKey salt := salt ++ masterKey.map fun u => u.toUInt8
  encrypt key _ _ := ([0x73], key)
  decrypt key encrypted _ tag := if encrypted = [0x73] ∧ tag = key then some (utf16 "s") else none

theorem oneText_reads : oneText.Reads := by
  intro row key key' iv value h
  unfold RawRow.decrypt oneText at h
  dsimp only at h
  split at h
  · rw [← Option.some.inj h]
    exact if_pos ⟨rfl, rfl⟩
  · exact nomatch h

/-- One secret under the key `a`. -/
def oneSecret : Db :=
  ⟨some [1], [⟨utf16 "NAME", [0x73], [], [1, 0x61], .any, 0, utf16 "2026-01-01", utf16 "2026-01-01"⟩]⟩

def twoSalts : Draws :=
  ⟨[1], [2], fun _ => [], utf16 "2026-02-02"⟩

/-- The key derivation of the new vault throws. -/
def derivationFails : Site → Option JsString
  | .new .deriveKey => some (utf16 "Array buffer allocation failed")
  | _ => none

theorem leavesOpen_derivationFails :
    LeavesOpen oneText twoSalts derivationFails (utf16 "a") (utf16 "b") oneSecret := by
  unfold LeavesOpen Stranded
  decide

/-- The connection that the constructor leaves open writes the new salt over the old one. -/
theorem rotateVault_loses_salt : ¬ ∀ (crypto : Crypto) (draws : Draws) (byName : JsString → JsString → Bool)
    (fault : Site → Option JsString) (oldKey newKey : JsString) (main : Db) (log : Frames)
    (bak : Option Db), crypto.Reads → ((main.overlay log).rows.map RawRow.name).Nodup →
    AllOrNothing crypto draws oldKey newKey (main.overlay log)
      (rotateVault crypto draws byName fault oldKey newKey (.start main log bak)) := by
  intro h
  refine not_allOrNothing_of_leavesOpen (w := .start oneSecret .empty none) (by decide)
    (show oneSecret.salt = some [1] from rfl) (by decide) leavesOpen_derivationFails (h oneText twoSalts (fun _ _ => true) derivationFails (utf16 "a")
      (utf16 "b") oneSecret .empty none oneText_reads (by decide))

theorem rotateVault_all_or_nothing_one :
    ¬ AllOrNothing oneText twoSalts (utf16 "a") (utf16 "b") oneSecret
      (rotateVault oneText twoSalts (fun _ _ => true) derivationFails (utf16 "a") (utf16 "b")
        (.start oneSecret .empty none)) :=
  (rotateVault_all_or_nothing oneText_reads (utf16 "a") (utf16 "b") oneSecret .empty none (by decide)).2.1
    [1] rfl (by decide) leavesOpen_derivationFails

end Lynox.Secrets.Vault
