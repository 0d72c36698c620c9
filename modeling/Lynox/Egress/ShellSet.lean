import Lynox.Egress.Proxy
import Lynox.Egress.Url

/-!
# The hosts a shell call may reach

`computeShellSet` gives the set a shell call's credential is registered with, and `assertHostPolicy`
says which hosts `http_request` may reach under the same policy. What the proxy lets through for the
set, the other allows (`allowed_of_letThrough`), and every exact name the policy names is let through
(`letThrough_of_named`).
-/

namespace Lynox.Egress

open Text

inductive NetworkPolicy
  | allowAll
  | allowList
  | guarded
  | denyAll
  deriving DecidableEq

/-! ## The policy of `http_request` -/

def ALLOWLISTED_HOSTS : List JsString :=
  [utf16 "api.eu.mistral.ai", utf16 "api.mistral.ai", utf16 "api.anthropic.com",
    utf16 "api.openai.com", utf16 "api.groq.com", utf16 "api.together.xyz",
    utf16 "api.fireworks.ai", utf16 "aiplatform.googleapis.com", utf16 "localhost",
    utf16 "127.0.0.1", utf16 "0.0.0.0"]

structure Url where
  protocol : JsString
  hostname : JsString

/-- `https://host/`, or none when that is no URL. -/
def httpsUrl (idna : JsString → Option JsString) (host : JsString) : Option Url :=
  (urlHostname idna host).map fun hostname => ⟨utf16 "https:", hostname⟩

def isHttp (u : Url) : Bool :=
  u.protocol == utf16 "http:" || u.protocol == utf16 "https:"

def isGuardedBaselineHost (url : Option Url) : Bool :=
  url.any fun u => isHttp u && u.hostname ∈ ALLOWLISTED_HOSTS

structure HostPolicyContext where
  networkPolicy : Option NetworkPolicy
  allowedHosts : Option (List JsString)
  allowedWildcards : List JsString
  enforceHttps : Bool

/-- The surface of a request, with the hosts it may reach. -/
inductive EgressCall
  | discovery
  | fullControl (ackHosts : Option (List JsString))
  | connector (hosts : List JsString)

/-- Whether a host is named exactly, or is a wildcard's apex or under it. -/
def hostInFloor (hostname : JsString) (ctx : HostPolicyContext) : Bool :=
  ctx.allowedHosts.any (hostname ∈ ·) ||
    ctx.allowedWildcards.any fun domain => hostname == domain || (0x2E :: domain).isSuffixOf hostname

/-- The brackets of an IPv6 literal are dropped. -/
def stripBrackets (hostname : JsString) : JsString :=
  let hostname := if hostname.head? = some 0x5B then hostname.drop 1 else hostname
  if hostname.getLast? = some 0x5D then hostname.dropLast else hostname

def blockedHost (before hostname after : JsString) : Except JsString Unit :=
  .error (utf16 "Blocked: " ++ before ++ utf16 " \"" ++ hostname ++ utf16 "\"" ++ after)

def notPermitted : JsString :=
  utf16 " not permitted under guarded egress policy"

/-- What `network_policy` says about a URL. -/
def checkPolicy (url : Url) (hostname : JsString) (call : EgressCall)
    (ctx : Option HostPolicyContext) : Except JsString Unit :=
  let floor := ctx.any (hostInFloor hostname)
  match ctx.bind HostPolicyContext.networkPolicy with
  | none => .ok ()
  | some .allowAll => .ok ()
  | some .denyAll =>
    .error (utf16 "Blocked: network access denied for this tool (network_policy=deny-all)")
  | some .allowList =>
    if floor then .ok ()
    else blockedHost (utf16 "hostname") hostname (utf16 " not in network allow-list")
  | some .guarded =>
    match call with
    | .discovery => .ok ()
    | .fullControl ackHosts =>
      if isGuardedBaselineHost (some url) || floor || ackHosts.any (hostname ∈ ·) then .ok ()
      else blockedHost (utf16 "hostname") hostname notPermitted
    | .connector hosts =>
      if decide (hostname ∈ hosts) || floor then .ok ()
      else blockedHost (utf16 "hostname") hostname notPermitted

def assertHostPolicy (url : Option Url) (call : EgressCall) (ctx : Option HostPolicyContext) :
    Except JsString Unit :=
  match url with
  | none => .error (utf16 "Invalid URL")
  | some url =>
    if !isHttp url then
      .error (utf16 "Blocked: unsupported protocol \"" ++ url.protocol ++ utf16 "\"")
    else
      let hostname := stripBrackets url.hostname
      if ctx.any (·.enforceHttps) && url.protocol == utf16 "http:" && hostname != utf16 "localhost" &&
          hostname != utf16 "127.0.0.1" && hostname != utf16 "::1" then
        .error (utf16 "Blocked: HTTP not allowed — enforce_https is enabled. Use HTTPS.")
      else
        match checkPolicy url hostname call ctx with
        | .error e => .error e
        | .ok () =>
          if isPrivateIP hostname then blockedHost (utf16 "private IP address") hostname [] else .ok ()

/-! ## The set of a shell call -/

def MAX_SHELL_SET : Nat := 256

structure ShellPolicyInput where
  networkPolicy : Option NetworkPolicy
  allowedHosts : Option (List JsString)
  allowedWildcards : Option (List JsString)
  ackHosts : Option (List JsString)

inductive ShellSet
  | all
  | hosts (hosts dropped : List JsString)
  | none (why : JsString)
  deriving DecidableEq

def guardedBaselineHostList : List JsString :=
  ALLOWLISTED_HOSTS

/-- The names of a policy that names hosts. -/
def candidates (input : ShellPolicyInput) : NetworkPolicy → List JsString
  | .guarded => guardedBaselineHostList.filter (· ≠ utf16 "localhost") ++
    input.allowedHosts.getD [] ++ input.ackHosts.getD []
  | _ => input.allowedHosts.getD []

/-- The candidates the proxy can take, each once. -/
def exactNames (candidates : List JsString) : List JsString :=
  (candidates.filter isExactHostname).eraseDups

def tooLarge : JsString :=
  utf16 "the network policy names more than 256 hosts, more than the egress proxy takes"

def setOf (input : ShellPolicyInput) (policy : NetworkPolicy) : ShellSet :=
  let names := candidates input policy
  let hosts := exactNames names
  let dropped := names.filter (fun c => !isExactHostname c && c ∉ guardedBaselineHostList) ++
    (input.allowedWildcards.getD []).map (utf16 "*." ++ ·)
  if MAX_SHELL_SET < hosts.length then
    .none tooLarge
  else .hosts (hosts.mergeSort fun a b => decide (a ≤ b)) dropped

def computeShellSet (input : ShellPolicyInput) : ShellSet :=
  match input.networkPolicy with
  | none => .all
  | some .allowAll => .all
  | some .denyAll => .none (utf16 "the network policy is deny-all")
  | some policy => setOf input policy

/-! ## Registrations -/

def MAX_SET_SIZE : Nat := 256

def MAX_LABEL_BYTES : Nat := 128

/-- A parsed body, as far as it is told apart : a number that is no integer is `other`. -/
inductive Value
  | string (s : JsString)
  | integer (n : Int)
  | array (items : List Value)
  | object (fields : List (JsString × Value))
  | other

/-- A run or a session : a text that is not empty, in a bounded number of bytes. -/
def isRunLabel (v : JsString) : Bool :=
  v ≠ [] && byteLength v ≤ MAX_LABEL_BYTES

def exactHost : Value → Option JsString
  | .string host => if isExactHostname host then some host else none
  | _ => none

def parseSet (set : Option Value) : Except JsString HostSet :=
  match set with
  | some (.string s) =>
    if s = utf16 "*" then .ok .all
    else .error (utf16 "set must be an array of host names or '*'")
  | some (.array hosts) =>
    if MAX_SET_SIZE < hosts.length then .error (utf16 "set holds at most 256 hosts")
    else
      match hosts.mapM exactHost with
      | some hosts => .ok (.names hosts)
      | none => .error (utf16 "set holds exact lower-case host names only")
  | _ => .error (utf16 "set must be an array of host names or '*'")

def MAX_TTL_S : Int := 905

def registrationKeys : List JsString :=
  [utf16 "set", utf16 "ttl_s", utf16 "run", utf16 "session"]

/-- The body of a registration. -/
def parseRegistration (body : Value) : Except JsString Registration :=
  match body with
  | .object b =>
    match b.find? fun f => f.1 ∉ registrationKeys with
    | some f => .error (utf16 "unknown field " ++ f.1)
    | none =>
      match parseSet (Assoc.get b (utf16 "set")) with
      | .error e => .error e
      | .ok set =>
        match Assoc.get b (utf16 "ttl_s") with
        | some (.integer ttl) =>
          if 0 < ttl ∧ ttl ≤ MAX_TTL_S then
            match Assoc.get b (utf16 "run"), Assoc.get b (utf16 "session") with
            | some (.string run), some (.string session) =>
              if isRunLabel run && isRunLabel session then .ok ⟨set, ttl.toNat, run, session⟩
              else .error (utf16 "run and session must be non-empty strings")
            | _, _ => .error (utf16 "run and session must be non-empty strings")
          else .error (utf16 "ttl_s must be a whole number from 1 to 905")
        | _ => .error (utf16 "ttl_s must be a whole number from 1 to 905")
  | _ => .error (utf16 "body must be a JSON object")

/-- What the engine registers for a set; for no set it registers nothing. -/
def registrationBody (set : ShellSet) (ttl : Int) (run session : JsString) : Option Value :=
  let body (set : Value) : Value := .object [(utf16 "set", set), (utf16 "ttl_s", .integer ttl),
    (utf16 "run", .string run), (utf16 "session", .string session)]
  match set with
  | .all => some (body (.string (utf16 "*")))
  | .hosts hosts _ => some (body (.array (hosts.map .string)))
  | .none _ => none

def registered (set : ShellSet) (ttl : Int) (run session : JsString) : Option Registration :=
  (registrationBody set ttl run session).bind fun body => (parseRegistration body).toOption

/-- The host of a target that passes what the proxy checks before it resolves the name. -/
def letThrough (reg : Registration) (target : JsString) : Option JsString :=
  match parseAuthority target with
  | .error _ => none
  | .ok (host, port) => if port ∈ ALLOWED_PORTS ∧ hostInSet reg.set host then some host else none

/-! ## Exact names -/

section Names

variable {host : JsString} {u : UInt16}

theorem mem_intercalate {α : Type*} {sep : List α} {a : α} : ∀ {l : List (List α)},
    a ∈ sep.intercalate l → a ∈ sep ∨ ∃ x ∈ l, a ∈ x
  | [], h => by cases h
  | [x], h => by
    rw [List.intercalate_singleton] at h
    exact .inr ⟨x, List.mem_singleton_self x, h⟩
  | x :: y :: l, h => by
    rw [List.intercalate_cons_cons, List.mem_append, List.mem_append] at h
    rcases h with (h | h) | h
    · exact .inr ⟨x, List.mem_cons_self, h⟩
    · exact .inl h
    · exact (mem_intercalate h).imp id fun ⟨z, hz, ha⟩ => ⟨z, List.mem_cons_of_mem x hz, ha⟩

/-- A unit of a host is a dot or stands in a label. -/
theorem mem_host (h : u ∈ host) : u = 0x2E ∨ ∃ label ∈ labels host, u ∈ label := by
  have hback : [0x2E].intercalate (labels host) = host := List.intercalate_splitOn 0x2E
  rw [← hback] at h
  exact (mem_intercalate h).imp List.mem_singleton.1 id

/-- A dot, a hyphen, a letter or a digit. -/
def IsHostUnit (u : UInt16) : Prop :=
  u = 0x2E ∨ u = 0x2D ∨ isAlnum u = true

theorem isLabel_units {label : JsString} (h : isLabel label = true) :
    ∀ u ∈ label, u = 0x2D ∨ isAlnum u = true := by
  unfold isLabel at h
  simp only [Bool.and_eq_true] at h
  intro u hu
  have hunit := List.all_eq_true.1 h.1.1.2 u hu
  rcases Bool.or_eq_true_iff.1 hunit with halnum | hhyphen
  · exact .inr halnum
  · exact .inl (beq_iff_eq.1 hhyphen)

theorem exactHostname_spec (h : isExactHostname host = true) : host ≠ [] ∧
    (∀ label ∈ labels host, isLabel label = true) ∧
      (labels host).getLast?.any isNumberLabel = false := by
  unfold isExactHostname at h
  simp only [Bool.and_eq_true, decide_eq_true_eq, Bool.not_eq_true'] at h
  obtain ⟨⟨⟨hlength, _⟩, hlabels⟩, hlast⟩ := h
  refine ⟨?_, List.all_eq_true.1 hlabels, hlast⟩
  rintro rfl
  exact absurd hlength (by decide)

theorem hostUnits (h : isIPv4 host = true ∨ isExactHostname host = true) :
    ∀ u ∈ host, IsHostUnit u := by
  intro u hu
  rcases mem_host hu with hdot | ⟨label, hlabel, hmem⟩
  · exact .inl hdot
  · rcases h with h | h
    · have hoctet := List.all_eq_true.1 (Bool.and_eq_true_iff.1 h).2 label hlabel
      have hdigit := List.all_eq_true.1 (isOctet_spec hoctet).2.1 u hmem
      refine .inr (.inr ?_)
      unfold isAlnum
      rw [hdigit, Bool.or_true]
    · exact .inr (isLabel_units ((exactHostname_spec h).2.1 label hlabel) u hmem)

theorem isAlnum_bounds (h : isAlnum u = true) :
    48 ≤ u.toNat ∧ u.toNat ≤ 57 ∨ 97 ≤ u.toNat ∧ u.toNat ≤ 122 := by
  unfold isAlnum at h
  rcases Bool.or_eq_true_iff.1 h with hlower | hdigit
  · unfold isLower at hlower
    have hu := of_decide_eq_true hlower
    rw [UInt16.le_iff_toNat_le, UInt16.le_iff_toNat_le] at hu
    exact .inr hu
  · exact .inl (digit_bounds hdigit)

theorem IsHostUnit.bounds (h : IsHostUnit u) :
    45 ≤ u.toNat ∧ u.toNat ≤ 57 ∨ 97 ≤ u.toNat ∧ u.toNat ≤ 122 := by
  rcases h with rfl | rfl | h
  · decide
  · decide
  · have := isAlnum_bounds h
    omega

theorem stripBrackets_of_host (h : ∀ u ∈ host, IsHostUnit u) : stripBrackets host = host := by
  have hhead : host.head? ≠ some 0x5B := fun hhead =>
    absurd (h _ (List.mem_of_mem_head? hhead)).bounds (by decide)
  have hlast : host.getLast? ≠ some 0x5D := fun hlast =>
    absurd (h _ (List.mem_of_getLast? hlast)).bounds (by decide)
  unfold stripBrackets
  rw [if_neg hhead]
  exact if_neg hlast

theorem toLowerCase_of_host (h : ∀ u ∈ host, IsHostUnit u) : toLowerCase host = host := by
  unfold toLowerCase
  refine (List.map_congr_left fun u hu => ?_).trans (List.map_id host)
  have hbounds := (h u hu).bounds
  refine if_neg ?_
  simp only [UInt16.le_iff_toNat_le]
  rintro (⟨hlow, hhigh⟩ | ⟨hlow, _⟩)
  · have hlow' : 65 ≤ u.toNat := hlow
    have hhigh' : u.toNat ≤ 90 := hhigh
    omega
  · have hlow' : 192 ≤ u.toNat := hlow
    omega

/-- A name is no address, so no private one. -/
theorem notPrivate_of_name (h : isExactHostname host = true) : isPrivateIP host = false := by
  obtain ⟨_, _, hlast⟩ := exactHostname_spec h
  unfold isPrivateIP v4Octets
  dsimp only
  rw [if_neg]
  · rfl
  · rintro ⟨hlength, hall⟩
    have hne : labels host ≠ [] := by
      intro hnil
      rw [hnil] at hlength
      cases hlength
    have hpart := List.all_eq_true.1 hall _ (List.getLast_mem hne)
    simp only [Bool.and_eq_true] at hpart
    rw [List.getLast?_eq_some_getLast hne, Option.any_some] at hlast
    unfold isNumberLabel at hlast
    rw [hpart.1.1, hpart.2] at hlast
    cases hlast

end Names

/-! ## The two policies -/

section Policies

variable {idna : JsString → Option JsString} {host : JsString} {call : EgressCall}
  {ctx : Option HostPolicyContext}

/-- A host that its URL reads as it is written is allowed where the policy allows it. -/
theorem assertHostPolicy_eq_ok (hunits : ∀ u ∈ host, IsHostUnit u)
    (hread : urlHostname idna host = some host)
    (hpolicy : checkPolicy ⟨utf16 "https:", host⟩ host call ctx = .ok ())
    (hpublic : isPrivateIP host = false) :
    assertHostPolicy (httpsUrl idna host) call ctx = .ok () := by
  have hhttps : isHttp ⟨utf16 "https:", host⟩ = true := by
    unfold isHttp
    rw [beq_self_eq_true, Bool.or_true]
  have hsecure : (utf16 "https:" == utf16 "http:") = false := by decide +kernel
  unfold assertHostPolicy httpsUrl
  rw [hread]
  simp only [Option.map_some, hhttps, Bool.not_true, Bool.false_eq_true, if_false, hsecure,
    Bool.and_false, Bool.false_and, stripBrackets_of_host hunits, hpolicy, hpublic]

/-- The policy of `http_request` for the input of a shell call. -/
def contextOf (input : ShellPolicyInput) (enforceHttps : Bool) : HostPolicyContext :=
  ⟨input.networkPolicy, input.allowedHosts, input.allowedWildcards.getD [], enforceHttps⟩

theorem mem_exactNames {names : List JsString} :
    host ∈ exactNames names ↔ host ∈ names ∧ isExactHostname host = true := by
  rw [exactNames, List.mem_eraseDups, List.mem_filter]

/-- The hosts of a set are the exact names of its policy. -/
theorem mem_hosts {input : ShellPolicyInput} {hosts dropped : List JsString}
    (h : computeShellSet input = .hosts hosts dropped) :
    ∃ policy, input.networkPolicy = some policy ∧ (policy = .allowList ∨ policy = .guarded) ∧
      hosts.length ≤ MAX_SHELL_SET ∧ ∀ host, host ∈ hosts ↔
        host ∈ candidates input policy ∧ isExactHostname host = true := by
  have hset : ∀ policy, setOf input policy = .hosts hosts dropped →
      hosts.length ≤ MAX_SHELL_SET ∧ ∀ host, host ∈ hosts ↔
        host ∈ candidates input policy ∧ isExactHostname host = true := by
    intro policy hset
    unfold setOf at hset
    dsimp only at hset
    split at hset
    · cases hset
    · next hsize =>
      cases hset
      refine ⟨?_, fun host => ?_⟩
      · rw [List.length_mergeSort]
        exact Nat.le_of_not_lt hsize
      · rw [List.mem_mergeSort, mem_exactNames]
  unfold computeShellSet at h
  split at h
  · cases h
  · cases h
  · cases h
  · next policy hnone hall hpolicy =>
    cases policy with
    | allowAll => exact absurd hpolicy (by simp_all)
    | denyAll => exact absurd hpolicy (by simp_all)
    | allowList => exact ⟨.allowList, hpolicy, .inl rfl, hset _ h⟩
    | guarded => exact ⟨.guarded, hpolicy, .inr rfl, hset _ h⟩

/-- A name of a policy is allowed by it. -/
theorem checkPolicy_of_candidate {input : ShellPolicyInput} {policy : NetworkPolicy}
    (hpolicy : input.networkPolicy = some policy) (hkind : policy = .allowList ∨ policy = .guarded)
    (enforceHttps : Bool) (h : host ∈ candidates input policy) :
    checkPolicy ⟨utf16 "https:", host⟩ host (.fullControl input.ackHosts)
      (some (contextOf input enforceHttps)) = .ok () := by
  have hfloor : host ∈ input.allowedHosts.getD [] →
      hostInFloor host (contextOf input enforceHttps) = true := by
    intro hmem
    unfold hostInFloor contextOf
    cases hhosts : input.allowedHosts with
    | none =>
      rw [hhosts] at hmem
      cases hmem
    | some hosts =>
      rw [hhosts] at hmem
      have hdec : decide (host ∈ hosts) = true := decide_eq_true hmem
      rw [Option.any_some, hdec, Bool.true_or]
  unfold checkPolicy
  rw [show (some (contextOf input enforceHttps)).bind HostPolicyContext.networkPolicy = some policy from
    hpolicy]
  rcases hkind with rfl | rfl
  · simp only [Option.any_some, hfloor h, if_true]
  · simp only [Option.any_some]
    refine if_pos ?_
    rw [Bool.or_eq_true, Bool.or_eq_true]
    rcases List.mem_append.1 h with h | h
    · rcases List.mem_append.1 h with h | h
      · refine .inl (.inl ?_)
        have hbaseline : host ∈ ALLOWLISTED_HOSTS := (List.mem_filter.1 h).1
        unfold isGuardedBaselineHost isHttp
        rw [Option.any_some, beq_self_eq_true, Bool.or_true, Bool.true_and]
        exact decide_eq_true hbaseline
      · exact .inl (.inr (hfloor h))
    · refine .inr ?_
      cases hack : input.ackHosts with
      | none =>
        rw [hack] at h
        cases h
      | some hosts =>
        rw [hack] at h
        exact decide_eq_true h

/-! ## What is registered -/

theorem parseRegistration_body (set : Value) (ttl : Int) (run session : JsString) :
    parseRegistration (.object [(utf16 "set", set), (utf16 "ttl_s", .integer ttl),
      (utf16 "run", .string run), (utf16 "session", .string session)]) =
    match parseSet (some set) with
    | .error e => .error e
    | .ok set =>
      if 0 < ttl ∧ ttl ≤ MAX_TTL_S then
        if isRunLabel run && isRunLabel session then .ok ⟨set, ttl.toNat, run, session⟩
        else .error (utf16 "run and session must be non-empty strings")
      else .error (utf16 "ttl_s must be a whole number from 1 to 905") := by
  have hkeys : registrationKeys.Nodup := by decide +kernel
  have hget (key : JsString) (v : Value) (h : (key, v) ∈ [(utf16 "set", set),
      (utf16 "ttl_s", .integer ttl), (utf16 "run", .string run), (utf16 "session", .string session)]) :
      Assoc.get [(utf16 "set", set), (utf16 "ttl_s", .integer ttl), (utf16 "run", .string run),
        (utf16 "session", .string session)] key = some v :=
    Assoc.get_of_mem hkeys h
  have hknown : [(utf16 "set", set), (utf16 "ttl_s", Value.integer ttl), (utf16 "run", .string run),
      (utf16 "session", .string session)].find? (fun f => f.1 ∉ registrationKeys) = none := by
    simp [registrationKeys]
  unfold parseRegistration
  dsimp only
  rw [hknown, hget (utf16 "set") set (by simp), hget (utf16 "ttl_s") (.integer ttl) (by simp),
    hget (utf16 "run") (.string run) (by simp), hget (utf16 "session") (.string session) (by simp)]

theorem mapM_exactHost : ∀ {hosts : List JsString},
    (∀ host ∈ hosts, isExactHostname host = true) → (hosts.map Value.string).mapM exactHost = some hosts
  | [], _ => rfl
  | host :: hosts, h => by
    have hhead : exactHost (.string host) = some host := if_pos (h host List.mem_cons_self)
    rw [List.map_cons, List.mapM_cons, hhead,
      mapM_exactHost fun host' hmem => h host' (List.mem_cons_of_mem host hmem)]
    rfl

/-- The set of a registration is the one that was computed. -/
theorem parseSet_of_hosts {hosts : List JsString} (hsize : hosts.length ≤ MAX_SHELL_SET)
    (hexact : ∀ host ∈ hosts, isExactHostname host = true) :
    parseSet (some (.array (hosts.map .string))) = .ok (.names hosts) := by
  unfold parseSet
  dsimp only
  rw [if_neg (by rw [List.length_map]; exact Nat.not_lt.2 hsize), mapM_exactHost hexact]

/-- The set a shell call is registered with. -/
theorem set_of_registered {input : ShellPolicyInput} {ttl : Int} {run session : JsString}
    {reg : Registration} (h : registered (computeShellSet input) ttl run session = some reg) :
    computeShellSet input = .all ∧ reg.set = .all ∨
      ∃ hosts dropped, computeShellSet input = .hosts hosts dropped ∧ reg.set = .names hosts := by
  have hparsed {v : Value} {set : HostSet} (hv : parseSet (some v) = .ok set)
      (hreg : (parseRegistration (.object [(utf16 "set", v), (utf16 "ttl_s", .integer ttl),
        (utf16 "run", .string run), (utf16 "session", .string session)])).toOption = some reg) :
      reg.set = set := by
    rw [parseRegistration_body, hv] at hreg
    dsimp only at hreg
    split at hreg
    · split at hreg
      · cases hreg
        rfl
      · cases hreg
    · cases hreg
  cases hset : computeShellSet input with
  | all =>
    rw [hset] at h
    exact .inl ⟨rfl, hparsed rfl h⟩
  | hosts hosts dropped =>
    rw [hset] at h
    obtain ⟨_, _, _, hsize, hmem⟩ := mem_hosts hset
    exact .inr ⟨hosts, dropped, rfl,
      hparsed (parseSet_of_hosts hsize fun host hh => ((hmem host).1 hh).2) h⟩
  | none why =>
    rw [hset] at h
    cases h

/-- A registration is taken where its time and its labels are in bounds. -/
theorem registered_of_set {set : ShellSet} {v : Value} {hosts : HostSet} {ttl : Int}
    {run session : JsString} (hbody : registrationBody set ttl run session =
      some (.object [(utf16 "set", v), (utf16 "ttl_s", .integer ttl), (utf16 "run", .string run),
        (utf16 "session", .string session)]))
    (hv : parseSet (some v) = .ok hosts) (httl : 0 < ttl ∧ ttl ≤ MAX_TTL_S)
    (hlabels : isRunLabel run = true ∧ isRunLabel session = true) :
    registered set ttl run session = some ⟨hosts, ttl.toNat, run, session⟩ := by
  unfold registered
  rw [hbody, Option.bind_some, parseRegistration_body, hv]
  dsimp only
  rw [if_pos httl, hlabels.1, hlabels.2]
  rfl

/-! ## What is let through -/

theorem letThrough_spec {reg : Registration} {target : JsString} (h : letThrough reg target = some host) :
    (isIPv4 host = true ∨ isExactHostname host = true) ∧ hostInSet reg.set host = true := by
  unfold letThrough at h
  split at h
  · cases h
  · next host' port hparse =>
    split at h
    · next hpass =>
      cases h
      refine ⟨?_, hpass.2⟩
      unfold parseAuthority at hparse
      split at hparse
      · cases hparse
      · split at hparse
        · dsimp only at hparse
          split at hparse
          · cases hparse
          · next hhost =>
            cases hparse
            by_contra hno
            obtain ⟨hip, hname⟩ := not_or.1 hno
            exact hhost (by simp [Bool.eq_false_iff.2 hip, Bool.eq_false_iff.2 hname])
        · cases hparse
    · cases h

/-- An exact name of the set is let through on port 443. -/
theorem letThrough_of_name {reg : Registration} (h : isExactHostname host = true)
    (hset : hostInSet reg.set host = true) :
    letThrough reg (host ++ utf16 ":443") = some host := by
  have hcolon : utf16 ":443" = [0x3A, 0x34, 0x34, 0x33] := by decide +kernel
  have hsplit : splitLastColon (host ++ utf16 ":443") = some (host, [0x34, 0x34, 0x33]) := by
    rw [hcolon]
    unfold splitLastColon
    rw [List.reverse_append]
    show some (host.reverse.reverse, _) = _
    rw [List.reverse_reverse]
    rfl
  have hparse : parseAuthority (host ++ utf16 ":443") = .ok (host, 443) := by
    unfold parseAuthority
    rw [hsplit]
    dsimp only
    rw [if_pos (by decide), toLowerCase_of_host (hostUnits (.inr h)), h]
    simp only [Bool.not_true, Bool.and_false, Bool.false_eq_true, if_false]
    rfl
  unfold letThrough
  rw [hparse]
  exact if_pos ⟨by decide, hset⟩

theorem pickAddress_private (hip : isIPv4 host = true) (hprivate : isPrivateIP host = true)
    (deny : List JsString) : pickAddress [host] deny = .error "private address" := by
  have hrefused : refusedAddress deny host = some "private address" := by
    unfold refusedAddress
    rw [hip, hprivate]
    rfl
  unfold pickAddress
  dsimp only
  rw [List.findSome?_cons, hrefused]

/-- A host that the proxy lets through for a set, `http_request` may reach, where its URL reads it
as it is written and it is no private address. -/
theorem allowed_of_letThrough {input : ShellPolicyInput} {ttl : Int} {run session : JsString}
    {reg : Registration} {target : JsString} (enforceHttps : Bool)
    (hreg : registered (computeShellSet input) ttl run session = some reg)
    (hpass : letThrough reg target = some host) (hread : urlHostname idna host = some host)
    (hpublic : isPrivateIP host = false) :
    assertHostPolicy (httpsUrl idna host) (.fullControl input.ackHosts)
      (some (contextOf input enforceHttps)) = .ok () := by
  obtain ⟨hhost, hset⟩ := letThrough_spec hpass
  refine assertHostPolicy_eq_ok (hostUnits hhost) hread ?_ hpublic
  rcases set_of_registered hreg with ⟨hall, _⟩ | ⟨hosts, dropped, hhosts, hreg⟩
  · unfold computeShellSet at hall
    unfold checkPolicy contextOf
    rw [Option.bind_some]
    split at hall
    · next hnone => simp only [hnone]
    · next hpolicy => simp only [hpolicy]
    · cases hall
    · unfold setOf at hall
      dsimp only at hall
      split at hall <;> cases hall
  · obtain ⟨policy, hpolicy, hkind, _, hmem⟩ := mem_hosts hhosts
    rw [hreg] at hset
    have hin : host ∈ hosts := of_decide_eq_true hset
    exact checkPolicy_of_candidate hpolicy hkind enforceHttps ((hmem host).1 hin).1

/-- A policy that reaches every host, or one that names this one. -/
def Named (input : ShellPolicyInput) (host : JsString) : Prop :=
  input.networkPolicy = none ∨ input.networkPolicy = some .allowAll ∨
    ∃ policy, input.networkPolicy = some policy ∧ (policy = .allowList ∨ policy = .guarded) ∧
      host ∈ candidates input policy

theorem letThrough_of_named {input : ShellPolicyInput} {ttl : Int} {run session : JsString}
    (hnamed : Named input host) (hexact : isExactHostname host = true)
    (httl : 0 < ttl ∧ ttl ≤ MAX_TTL_S) (hlabels : isRunLabel run = true ∧ isRunLabel session = true) :
    computeShellSet input = .none tooLarge ∨
      ∃ reg, registered (computeShellSet input) ttl run session = some reg ∧
        letThrough reg (host ++ utf16 ":443") = some host := by
  have hall (hset : computeShellSet input = .all) :
      ∃ reg, registered (computeShellSet input) ttl run session = some reg ∧
        letThrough reg (host ++ utf16 ":443") = some host := by
    have hstar : parseSet (some (.string (utf16 "*"))) = .ok .all := rfl
    rw [hset]
    exact ⟨_, registered_of_set rfl hstar httl hlabels, letThrough_of_name hexact rfl⟩
  rcases hnamed with hnone | hopen | ⟨policy, hpolicy, hkind, hmem⟩
  · exact .inr (hall (by rw [computeShellSet, hnone]))
  · exact .inr (hall (by rw [computeShellSet, hopen]))
  · have hset : computeShellSet input = setOf input policy := by
      unfold computeShellSet
      rw [hpolicy]
      rcases hkind with rfl | rfl <;> rfl
    by_cases hsize : MAX_SHELL_SET < (exactNames (candidates input policy)).length
    · refine .inl ?_
      rw [hset]
      exact if_pos hsize
    · refine .inr ?_
      have hhosts : ∃ hosts dropped, computeShellSet input = .hosts hosts dropped := by
        rw [hset]
        exact ⟨_, _, if_neg hsize⟩
      obtain ⟨hosts, dropped, hhosts⟩ := hhosts
      obtain ⟨policy', hpolicy', _, hle, hin⟩ := mem_hosts hhosts
      rw [hpolicy] at hpolicy'
      cases hpolicy'
      have hhost : host ∈ hosts := (hin host).2 ⟨hmem, hexact⟩
      rw [hhosts]
      exact ⟨_, registered_of_set rfl (parseSet_of_hosts hle fun h hh => ((hin h).1 hh).2) httl hlabels,
        letThrough_of_name hexact (decide_eq_true hhost)⟩

end Policies

/-- What the proxy lets through for the set of a shell call, `http_request` may reach under the same
policy, apart from names that are no hosts of a URL, and from private addresses, which the proxy
refuses later; and what the policy names is let through, unless the set was too large. -/
theorem shell_reaches_no_more (idna : JsString → Option JsString) (input : ShellPolicyInput) :
    (∀ (enforceHttps : Bool) (ttl : Int) (run session : JsString) (reg : Registration)
      (authority : Bytes) (host : JsString),
      registered (computeShellSet input) ttl run session = some reg →
      letThrough reg (latin1 authority) = some host →
        ((∃ label ∈ labels host, beginsXn label = true) ∧ urlHostname idna host ≠ some host) ∨
        assertHostPolicy (httpsUrl idna host) (.fullControl input.ackHosts)
          (some (contextOf input enforceHttps)) = .ok () ∨
        (isIPv4 host = true ∧ isPrivateIP host = true ∧
          ∀ deny, pickAddress [host] deny = .error "private address")) ∧
    ∀ (ttl : Int) (run session host : JsString), Named input host → isExactHostname host = true →
      0 < ttl ∧ ttl ≤ MAX_TTL_S → isRunLabel run = true ∧ isRunLabel session = true →
        computeShellSet input = .none tooLarge ∨
          ∃ reg, registered (computeShellSet input) ttl run session = some reg ∧
            letThrough reg (host ++ utf16 ":443") = some host := by
  refine ⟨fun enforceHttps ttl run session reg authority host hreg hpass => ?_,
    fun ttl run session host hnamed hexact httl hlabels =>
      letThrough_of_named hnamed hexact httl hlabels⟩
  obtain ⟨hhost, _⟩ := letThrough_spec hpass
  by_cases hread : urlHostname idna host = some host
  · refine .inr ?_
    by_cases hprivate : isPrivateIP host = true
    · rcases hhost with hip | hname
      · exact .inr ⟨hip, hprivate, pickAddress_private hip hprivate⟩
      · rw [notPrivate_of_name hname] at hprivate
        cases hprivate
    · exact .inl (allowed_of_letThrough enforceHttps hreg hpass hread (Bool.eq_false_iff.2 hprivate))
  · refine .inl ⟨?_, hread⟩
    by_contra hplain
    refine hread ?_
    rcases hhost with hip | hname
    · exact urlHostname_of_ipv4 hip
    · refine urlHostname_of_name hname fun label hlabel => ?_
      cases hxn : beginsXn label with
      | false => rfl
      | true => exact absurd ⟨label, hlabel, hxn⟩ hplain

/-- A policy that names one host. -/
def onlyHost (host : JsString) : ShellPolicyInput :=
  ⟨some .allowList, some [host], none, none⟩

theorem named_host_is_let_through : ∃ reg,
    registered (computeShellSet (onlyHost (utf16 "a.eu"))) 60 (utf16 "r") (utf16 "s") = some reg ∧
      letThrough reg (utf16 "a.eu" ++ utf16 ":443") = some (utf16 "a.eu") := by
  refine ((shell_reaches_no_more (fun _ => none) (onlyHost (utf16 "a.eu"))).2 60 (utf16 "r")
    (utf16 "s") (utf16 "a.eu") (.inr (.inr ⟨.allowList, rfl, .inl rfl, ?_⟩)) (by decide +kernel)
    ⟨by decide, by decide⟩ (by decide +kernel)).resolve_left ?_
  · exact List.mem_singleton_self _
  · decide +kernel

/-- The label `xn--9` ends within an integer of its Punycode. -/
theorem bad_punycode_is_no_url (idna : JsString → Option JsString) :
    urlHostname idna (utf16 "xn--9") = none := by
  have hencoded : (labels (utf16 "xn--9")).filter beginsXn = [utf16 "xn--9"] := by decide +kernel
  have hne : ([utf16 "xn--9"] : List JsString) ≠ [] := List.cons_ne_nil _ _
  have hdecode : ([utf16 "xn--9"].all fun label => (Punycode.decode (label.drop 4)).isSome) ≠ true := by
    decide +kernel
  unfold urlHostname domainToASCII
  dsimp only
  rw [hencoded, if_neg hne, if_neg hdecode]

/-- A name that is no Punycode is let through, and its URL is none. -/
theorem bad_punycode_is_let_through : ∃ reg,
    registered (computeShellSet (onlyHost (utf16 "xn--9"))) 60 (utf16 "r") (utf16 "s") = some reg ∧
      letThrough reg (latin1 (utf8 (utf16 "xn--9:443"))) = some (utf16 "xn--9") ∧
      isIPv4 (utf16 "xn--9") = false ∧
      ∀ idna, assertHostPolicy (httpsUrl idna (utf16 "xn--9")) (.fullControl none)
        (some (contextOf (onlyHost (utf16 "xn--9")) false)) = .error (utf16 "Invalid URL") := by
  have hnamed : Named (onlyHost (utf16 "xn--9")) (utf16 "xn--9") :=
    .inr (.inr ⟨.allowList, rfl, .inl rfl, List.mem_singleton_self _⟩)
  have hpass : computeShellSet (onlyHost (utf16 "xn--9")) = .none tooLarge ∨ ∃ reg,
      registered (computeShellSet (onlyHost (utf16 "xn--9"))) 60 (utf16 "r") (utf16 "s") = some reg ∧
        letThrough reg (utf16 "xn--9" ++ utf16 ":443") = some (utf16 "xn--9") :=
    letThrough_of_named hnamed (by decide +kernel) ⟨by decide, by decide⟩ (by decide +kernel)
  obtain ⟨reg, hreg, hpass⟩ := hpass.resolve_left (by decide +kernel)
  refine ⟨reg, hreg, ?_, by decide +kernel, fun idna => ?_⟩
  · rw [show latin1 (utf8 (utf16 "xn--9:443")) = utf16 "xn--9" ++ utf16 ":443" by decide +kernel]
    exact hpass
  · unfold httpsUrl
    rw [bad_punycode_is_no_url]
    rfl

end Lynox.Egress
