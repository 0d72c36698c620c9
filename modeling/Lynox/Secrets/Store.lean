import Lynox.Data.Assoc
import Lynox.Text.Stringify

/-!
# Secrets

A secret is a value under a name, with a scope, an age and consent. `resolveSecretRefsWith` writes the
values of `secret:NAME` references into a JSON text, except those of infrastructure names. `InnerStore`
is a store as a scoped view wraps it : what its operations yield is what it holds, and what it holds
changes with them as it says. `SecretStore` is one (`SecretStore.inner`).
-/

namespace Lynox.Secrets

open Text

/-! ## Names -/

def INFRA_SECRET_PATTERNS : List JsString :=
  [utf16 "LYNOX_", utf16 "MANAGED_", utf16 "MAIL_ACCOUNT_", utf16 "GOOGLE_OAUTH_",
    utf16 "MICROSOFT_OAUTH_", utf16 "GOOGLE_CLIENT_", utf16 "SMTP_", utf16 "IMAP_",
    utf16 "CALENDAR_FEED_"]

/-- A name of the engine's own, which the agent does not see. -/
def isInfraSecret (name : JsString) : Bool :=
  INFRA_SECRET_PATTERNS.any (·.isPrefixOf name)

def isUpper (u : UInt16) : Bool :=
  0x41 ≤ u.toNat && u.toNat ≤ 0x5A

/-- `[A-Z0-9_]`. -/
def isNameUnit (u : UInt16) : Bool :=
  isUpper u || isDigit u || u = 0x5F

/-- `\w`. -/
def isWord (u : UInt16) : Bool :=
  isNameUnit u || (0x61 ≤ u.toNat && u.toNat ≤ 0x7A)

/-- The name of a reference that a text starts with. It ends where no word goes on. -/
def refAt (s : JsString) : Option JsString :=
  if (utf16 "secret:").isPrefixOf s then
    let rest := s.drop (utf16 "secret:").length
    let name := rest.takeWhile isNameUnit
    if name.head?.any (fun u => isUpper u || u = 0x5F) &&
        !(rest.drop name.length).head?.any isWord then
      some name
    else none
  else none

/-- The text with every reference replaced. `skip` units belong to the last reference, and `inWord` says
that a word goes on. -/
def replaceRefs (replace : JsString → JsString) : (skip : Nat) → (inWord : Bool) → JsString → JsString
  | _, _, [] => []
  | skip + 1, _, u :: s => replaceRefs replace skip (isWord u) s
  | 0, true, u :: s => u :: replaceRefs replace 0 (isWord u) s
  | 0, false, u :: s =>
    match refAt (u :: s) with
    | some name =>
      replace name ++ replaceRefs replace ((utf16 "secret:").length + name.length - 1) (isWord u) s
    | none => u :: replaceRefs replace 0 (isWord u) s

/-- A value as it goes into a JSON string. -/
def escapeValue (value : JsString) : JsString :=
  value.flatMap fun u =>
    if u = 0x22 then [0x5C, 0x22]
    else if u = 0x5C then [0x5C, 0x5C]
    else if u = 0x0A then [0x5C, 0x6E]
    else if u = 0x0D then [0x5C, 0x72]
    else if u = 0x09 then [0x5C, 0x74]
    else [u]

/-- What a reference becomes : its value, or itself. -/
def replacement (resolve : JsString → Option JsString) (name : JsString) : JsString :=
  if isInfraSecret name then utf16 "secret:" ++ name
  else
    match resolve name with
    | some value => escapeValue value
    | none => utf16 "secret:" ++ name

/-- The input with its references resolved, or the input where that is no JSON. -/
def resolveSecretRefsWith (input : Value) (resolve : JsString → Option JsString) : Value ⊕ Json :=
  match parse (replaceRefs (replacement resolve) 0 false input.write) with
  | some resolved => .inr resolved
  | none => .inl input

/-- Only what is resolved under names that are not infrastructure matters. -/
theorem resolveSecretRefsWith_congr {resolve resolve' : JsString → Option JsString}
    (h : ∀ name, isInfraSecret name = false → resolve name = resolve' name) (input : Value) :
    resolveSecretRefsWith input resolve = resolveSecretRefsWith input resolve' := by
  have hreplace : replacement resolve = replacement resolve' := by
    funext name
    unfold replacement
    cases hinfra : isInfraSecret name with
    | true => rfl
    | false => rw [h name hinfra]
  rw [resolveSecretRefsWith, resolveSecretRefsWith, hreplace]

/-! ## Stores -/

inductive SecretScope
  | any | httpHeader | httpBody | bashEnv
  deriving DecidableEq, Repr

/-- A value to be stored. `vaultTakes` says that the vault writes it rather than throws. -/
structure Put where
  now : Int
  name : JsString
  value : JsString
  scope : Option SecretScope
  ttlMs : Option Int
  vaultTakes : Bool

/-- The mask of a value : its last four units where it is long enough. -/
def maskValue (value : JsString) : JsString :=
  if value.length < 16 then utf16 "***" else utf16 "***" ++ value.drop (value.length - 4)

/-- A store of secrets : what it yields is what it holds. Its write answers whether it stored rather
than threw. -/
structure InnerStore (σ : Type) where
  resolve : σ → (now : Int) → JsString → Option JsString
  getMasked : σ → JsString → Option JsString
  recordConsent : σ → JsString → σ
  set : Option (σ → Put → Bool × σ)
  deleteSecret : Option (σ → JsString → Bool × σ)
  /-- The value it holds under a name. -/
  value : σ → JsString → Option JsString
  resolve_value : ∀ {s now name v}, resolve s now name = some v → value s name = some v
  masked_value : ∀ {s name m}, getMasked s name = some m → ∃ v, value s name = some v ∧ m = maskValue v
  consent_value : ∀ s name, value (recordConsent s name) = value s
  set_value : ∀ {f}, set = some f → ∀ s p name,
    value (f s p).2 name = if (f s p).1 = true ∧ name = p.name then some p.value else value s name
  delete_value : ∀ {f}, deleteSecret = some f → ∀ {s name name' v},
    value (f s name).2 name' = some v → value s name' = some v

structure InternalSecret where
  value : JsString
  scope : SecretScope
  loadedAt : Int
  ttlMs : Int

/-- The engine's store. A guard answers whether a value may be handed out, and none where it throws;
`vault` is the rows of the vault file, where there is one. -/
structure SecretStore where
  secrets : List (JsString × InternalSecret)
  consented : List JsString
  resolveGuard : Option (JsString → Option Bool)
  vault : Option (List (JsString × JsString))

namespace SecretStore

variable {s : SecretStore}

def isExpired (s : SecretStore) (now : Int) (name : JsString) : Bool :=
  match Assoc.get s.secrets name with
  | none => true
  | some secret => secret.ttlMs ≠ 0 && secret.ttlMs < now - secret.loadedAt

def hasConsent (s : SecretStore) (name : JsString) : Bool :=
  name ∈ s.consented

def getMasked (s : SecretStore) (name : JsString) : Option JsString :=
  (Assoc.get s.secrets name).map fun secret => maskValue secret.value

def resolve (s : SecretStore) (now : Int) (name : JsString) : Option JsString :=
  match Assoc.get s.secrets name with
  | none => none
  | some secret =>
    if s.isExpired now name || !s.hasConsent name then none
    else
      match s.resolveGuard with
      | none => some secret.value
      | some guard => if guard name = some true then some secret.value else none

def recordConsent (s : SecretStore) (name : JsString) : SecretStore :=
  { s with consented := s.consented.insert name }

/-- Stored in the vault, then in memory, with consent; it throws where there is no vault. -/
def set (s : SecretStore) (p : Put) : Bool × SecretStore :=
  match s.vault, p.vaultTakes with
  | some vault, true =>
    (true, { s with
      vault := some (Assoc.set vault p.name p.value)
      secrets := Assoc.set s.secrets p.name ⟨p.value, p.scope.getD .any, p.now, p.ttlMs.getD 0⟩
      consented := s.consented.insert p.name })
  | _, _ => (false, s)

def deleteSecret (s : SecretStore) (name : JsString) : Bool × SecretStore :=
  let hadInMemory := (Assoc.get s.secrets name).isSome
  let hadInVault := s.vault.any fun vault => (Assoc.get vault name).isSome
  (hadInMemory || hadInVault,
    { s with
      secrets := Assoc.erase s.secrets name
      consented := s.consented.filter (· ≠ name)
      vault := s.vault.map fun vault => Assoc.erase vault name })

/-- The value under a name, whether it may be handed out or not. -/
def value (s : SecretStore) (name : JsString) : Option JsString :=
  (Assoc.get s.secrets name).map InternalSecret.value

theorem resolve_value {now : Int} {name v : JsString} (h : s.resolve now name = some v) :
    s.value name = some v := by
  unfold resolve at h
  unfold value
  split at h
  · cases h
  · next secret hsecret =>
    rw [hsecret]
    split at h
    · cases h
    · split at h
      · exact h
      · split at h
        · exact h
        · cases h

theorem value_set (s : SecretStore) (p : Put) (name : JsString) :
    (s.set p).2.value name =
      if (s.set p).1 = true ∧ name = p.name then some p.value else s.value name := by
  unfold set value
  split
  · dsimp only
    rw [Assoc.get_set]
    by_cases hname : name = p.name
    · rw [if_pos hname, if_pos ⟨rfl, hname⟩]
      rfl
    · rw [if_neg hname, if_neg fun h => hname h.2]
  · rw [if_neg fun h => Bool.false_ne_true h.1]

theorem value_delete {name name' v : JsString} (h : (s.deleteSecret name).2.value name' = some v) :
    s.value name' = some v := by
  unfold value deleteSecret at h
  dsimp only at h
  rw [Assoc.get_erase] at h
  split at h
  · cases h
  · exact h

/-- The engine's store is a store that a view wraps. -/
def inner : InnerStore SecretStore where
  resolve := resolve
  getMasked := getMasked
  recordConsent := recordConsent
  set := some set
  deleteSecret := some deleteSecret
  value := value
  resolve_value := resolve_value
  masked_value := fun h => by
    obtain ⟨secret, hsecret, hm⟩ := Option.map_eq_some_iff.1 h
    exact ⟨secret.value, congrArg (Option.map InternalSecret.value) hsecret, hm.symm⟩
  consent_value := fun _ _ => rfl
  set_value := fun hf s p name => Option.some.inj hf ▸ value_set s p name
  delete_value := fun hf _ _ _ _ h => value_delete (Option.some.inj hf ▸ h)

end SecretStore

end Lynox.Secrets
