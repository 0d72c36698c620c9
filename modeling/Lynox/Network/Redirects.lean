import Lynox.Data.Throws
import Lynox.Orchestrator.Pool
import Lynox.Text.Matcher
import Lynox.Text.OwnNames

/-!
# Redirects

`fetchWithPublicRedirects` follows redirects itself. Each hop is sent by `fetchPinned`, with the method,
the headers and the body that the answers before left of the first request. Behind a hop to another
origin no request of the chain carries a credential header or a body, also where the chain comes back
(`fetchWithPublicRedirects_keeps`).

The URL parser and the case tables are left open, and so are the checks on stores and addresses : all
they can do is refuse a hop.
-/

namespace Lynox.Network

open Text Throws
open Concurrent (Number Extended finite)

/-! ## Requests -/

/-- What `new URL` gives. -/
structure Url where
  href : JsString
  protocol : JsString
  origin : JsString
  host : JsString

/-- A body that is given : `binary` is a Uint8Array, an ArrayBuffer or a Blob, `params` a
URLSearchParams as it is written. -/
inductive BodyInit
  | text (s : JsString)
  | binary (bytes : Bytes)
  | params (s : JsString)
  | other

/-- `undefined`, `null` or a body. -/
abbrev Body := Option (Option BodyInit)

/-- Names with their values, in the order of an object. -/
abbrev Headers := List (JsString × JsString)

/-- The headers of a caller; `none` is a name or a value that is no text. -/
inductive HeadersInit
  | headers (entries : List (JsString × JsString))
  | pairs (entries : List (Option JsString × Option JsString))
  | record (entries : List (JsString × Option JsString))

structure RequestInit where
  method : Option JsString
  headers : Option HeadersInit
  body : Body

/-- What the transport is given. -/
structure PinnedTransportInput where
  url : JsString
  method : JsString
  headers : Headers
  body : Option Bytes
  deriving DecidableEq

/-- What comes of a hop outside : the refusal of a check, if any, and what a request that is sent ends
in, an error of the transport or a status with the header `location`. -/
structure Hop where
  refusal : Option JsString
  answer : Except JsString (ℕ × Option JsString)

/-- How a chain ends; `pending` is one whose next hop has not come. -/
inductive End
  | response (status : ℕ)
  | thrown (text : JsString)
  | pending

/-! ## Headers -/

def CROSS_ORIGIN_DROP_HEADERS : List JsString :=
  ["authorization", "cookie", "proxy-authorization", "x-api-key", "x-auth-token",
    "x-csrf-token"].map utf16

def REDIRECT_STATUSES : List ℕ :=
  [301, 302, 303, 307, 308]

def DEFAULT_MAX_REDIRECTS : ℕ := 5

/-- `out[k] = v`; a text is no prototype. -/
def setHeader (out : Headers) (name value : JsString) : Headers :=
  if name = utf16 "__proto__" then out else setOwn out name value

/-- The headers as one flat object. -/
def flattenHeaders : Option HeadersInit → Headers
  | none => []
  | some (.headers entries) => entries.foldl (fun out e => setHeader out e.1 e.2) []
  | some (.pairs entries) =>
    entries.foldl (fun out e =>
      match e with
      | (some name, some value) => setHeader out name value
      | _ => out) []
  | some (.record entries) =>
    entries.foldl (fun out e =>
      match e.2 with
      | some value => setHeader out e.1 value
      | none => out) []

def materialiseBody : Body → Except JsString (Option Bytes)
  | none => .ok none
  | some none => .ok none
  | some (some (.text s)) => .ok (some (utf8 s))
  | some (some (.binary bytes)) => .ok (some bytes)
  | some (some (.params s)) => .ok (some (utf8 s))
  | some (some .other) =>
    .error (utf16 ("fetchPinned: unsupported body type — only string/Buffer/Uint8Array/Blob/" ++
      "URLSearchParams are accepted"))

section Loop

variable (parse : JsString → Option Url) (resolve : JsString → JsString → Option Url)
  (other : JsString → UInt16 → JsString → JsString)

/-- The headers to send : the framing is the one of the body. -/
def headersWithLength (headers : Headers) (body : Option Bytes) : Headers :=
  let out := headers.foldl (fun out e =>
    let lower := lowerCase other e.1
    if lower ≠ utf16 "content-length" ∧ lower ≠ utf16 "transfer-encoding" then
      setHeader out e.1 e.2
    else out) []
  match body with
  | some bytes => setHeader out (utf16 "content-length") (writeInt bytes.length)
  | none => out

def sameOrigin (fromUrl toUrl : JsString) : Bool :=
  match parse fromUrl, parse toUrl with
  | some a, some b => a.origin = b.origin
  | _, _ => false

/-- The headers of the next hop : a hop to another origin loses the credentials. -/
def redirectHopHeaders (headers : Headers) (fromUrl toUrl : JsString)
    (extraDropHeader : Option JsString) : Headers :=
  if sameOrigin parse fromUrl toUrl then headers
  else
    let extra := extraDropHeader.map (lowerCase other)
    headers.foldl (fun out e =>
      let lower := lowerCase other e.1
      if lower ∈ CROSS_ORIGIN_DROP_HEADERS ∨ extra = some lower then out
      else setHeader out e.1 e.2) []

def isCrossOriginHop (fromUrl toUrl : JsString) : Bool :=
  !sameOrigin parse fromUrl toUrl

/-! ## The hops -/

/-- What is sent for a request, or the error of a check before it. -/
def fetchPinned (url : JsString) (init : RequestInit) (hop : Hop) :
    Except JsString PinnedTransportInput := do
  let parsed ← (parse url).elim (.error (utf16 "Invalid URL")) .ok
  throwIf (parsed.protocol ≠ utf16 "http:" ∧ parsed.protocol ≠ utf16 "https:")
    (utf16 "Blocked: unsupported protocol \"" ++ parsed.protocol ++ utf16 "\"")
  let headers := flattenHeaders init.headers
  hop.refusal.elim (.ok ()) .error
  let headers :=
    if headers.any fun e => lowerCase other e.1 = utf16 "host" then headers
    else setHeader headers (utf16 "host") parsed.host
  let method := upperCase other (init.method.getD (utf16 "GET"))
  let body ← materialiseBody init.body
  return { url, method, headers, body }

/-- What the loop carries from hop to hop. -/
structure State where
  currentUrl : JsString
  method : JsString
  body : Body
  headers : Headers

def rewritesToGet (status : ℕ) (method : JsString) : Bool :=
  (status = 303 ∨ status = 301 ∨ status = 302) ∧ method ≠ utf16 "GET" ∧ method ≠ utf16 "HEAD"

/-- The request of the next hop, from the answer to the last one. -/
def nextHop (s : State) (status : ℕ) (location : Option JsString) (i : ℕ) (last : Bool) :
    Except End State := do
  throwIf (status ∉ REDIRECT_STATUSES) (.response status)
  let location := location.getD []
  throwIf (location = [])
    (.thrown (utf16 "Blocked: redirect without location header (" ++ writeInt status ++ utf16 ")"))
  throwIf last (.thrown (utf16 "Blocked: too many redirects (>" ++ writeInt i ++ utf16 ")"))
  let nextUrl ← (resolve location s.currentUrl).elim (.error (.thrown (utf16 "Invalid URL")))
    fun next => .ok next.href
  let method := if rewritesToGet status s.method then utf16 "GET" else s.method
  let body := if rewritesToGet status s.method then none else s.body
  let headers := redirectHopHeaders parse other s.headers s.currentUrl nextUrl none
  if body ≠ none ∧ isCrossOriginHop parse s.currentUrl nextUrl then
    return { currentUrl := nextUrl, method := utf16 "GET", body := none, headers }
  else return { currentUrl := nextUrl, method, body, headers }

/-- The loop : the requests sent, and how it ends. -/
def hopsFrom (max : Number) : ℕ → State → List Hop → List PinnedTransportInput × End
  | i, s, hops =>
    if max.any fun m => finite i ≤ m then
      match hops with
      | [] => ([], .pending)
      | hop :: hops =>
        let hopInit : RequestInit := ⟨some s.method, some (.headers s.headers), s.body⟩
        match fetchPinned parse other s.currentUrl hopInit hop with
        | .error text => ([], .thrown text)
        | .ok request =>
          match hop.answer with
          | .error text => ([request], .thrown text)
          | .ok (status, location) =>
            match nextHop parse resolve other s status location i (max = some (finite i)) with
            | .error e => ([request], e)
            | .ok next =>
              let rest := hopsFrom max (i + 1) next hops
              (request :: rest.1, rest.2)
    else ([], .thrown (utf16 "Blocked: redirect handling failed"))

/-- The requests that are sent, and how the chain ends. -/
def fetchWithPublicRedirects (url : JsString) (init : RequestInit) (maxRedirects : Option Number)
    (hops : List Hop) : List PinnedTransportInput × End :=
  let max := maxRedirects.getD (some (finite DEFAULT_MAX_REDIRECTS))
  let method := upperCase other (init.method.getD (utf16 "GET"))
  hopsFrom parse resolve other max 0 ⟨url, method, init.body, flattenHeaders init.headers⟩ hops

end Loop

/-! ## What is carried -/

/-- A credential header in any letter case. -/
def IsCredential (name : JsString) : Prop :=
  name.map lowerAscii ∈ CROSS_ORIGIN_DROP_HEADERS

def NoCredential (headers : Headers) : Prop :=
  ∀ name ∈ headers.map Prod.fst, ¬IsCredential name

section Carried

variable {parse : JsString → Option Url} {resolve : JsString → JsString → Option Url}
  {other : JsString → UInt16 → JsString → JsString} {headers : Headers} {name value : JsString}
  {s s' : State} {url : JsString} {init : RequestInit} {hop : Hop} {hops : List Hop}
  {request : PinnedTransportInput} {status i : ℕ} {location : Option JsString} {last : Bool}
  {max : Number} {sent : List PinnedTransportInput}

variable (other) in
/-- A request without a credential, as it is given to the transport and as it goes out, and without
a body. -/
structure Bare (request : PinnedTransportInput) : Prop where
  headers : NoCredential request.headers
  sent : NoCredential (headersWithLength other request.headers request.body)
  body : request.body = none

def originOf (parse : JsString → Option Url) (url : JsString) : Option JsString :=
  (parse url).map Url.origin

/-- The code finds a credential by its own lower case. -/
theorem lowerCase_of_isCredential (h : IsCredential name) :
    lowerCase other name ∈ CROSS_ORIGIN_DROP_HEADERS := by
  have hset : CROSS_ORIGIN_DROP_HEADERS.all (List.all · isAscii) = true := by decide
  have hlower := List.all_eq_true.1 (List.all_eq_true.1 hset _ h)
  have hascii : name.all isAscii = true := by
    refine List.all_eq_true.2 fun u hu => ?_
    have hu := hlower _ (List.mem_map_of_mem hu)
    unfold lowerAscii at hu
    split at hu
    · exact decide_eq_true (by omega)
    · exact hu
  rw [lowerCase_ascii hascii]
  exact h

theorem noCredential_nil : NoCredential [] :=
  fun _ h => absurd h List.not_mem_nil

theorem noCredential_setHeader (h : NoCredential headers) (hname : ¬IsCredential name) :
    NoCredential (setHeader headers name value) := by
  unfold setHeader
  split
  · exact h
  · intro name' hname'
    rcases mem_names_setOwn.1 hname' with rfl | hname'
    · exact hname
    · exact h name' hname'

/-- Copying headers adds no credential. -/
theorem noCredential_flattenHeaders (h : NoCredential headers) :
    NoCredential (flattenHeaders (some (.headers headers))) :=
  List.foldlRecOn headers _ noCredential_nil fun _ hout e he =>
    noCredential_setHeader hout (h e.1 (List.mem_map_of_mem he))

theorem noCredential_headersWithLength (h : NoCredential headers) (body : Option Bytes) :
    NoCredential (headersWithLength other headers body) := by
  have hout : NoCredential (headers.foldl (fun out e =>
      let lower := lowerCase other e.1
      if lower ≠ utf16 "content-length" ∧ lower ≠ utf16 "transfer-encoding" then
        setHeader out e.1 e.2
      else out) []) := by
    refine List.foldlRecOn headers _ noCredential_nil fun out hout e he => ?_
    dsimp only
    split
    · exact noCredential_setHeader hout (h e.1 (List.mem_map_of_mem he))
    · exact hout
  unfold headersWithLength
  cases body with
  | none => exact hout
  | some bytes =>
    refine noCredential_setHeader hout ?_
    unfold IsCredential
    decide

/-- A hop keeps headers without a credential, and one to another origin leaves no credential. -/
theorem noCredential_redirectHopHeaders {fromUrl toUrl : JsString}
    (h : NoCredential headers ∨ isCrossOriginHop parse fromUrl toUrl = true) :
    NoCredential (redirectHopHeaders parse other headers fromUrl toUrl none) := by
  unfold redirectHopHeaders
  split
  · next hsame => exact h.resolve_right (by simp [isCrossOriginHop, hsame])
  · refine List.foldlRecOn headers _ noCredential_nil fun out hout e _ => ?_
    dsimp only
    split
    · exact hout
    · next hkept =>
      rw [not_or] at hkept
      exact noCredential_setHeader hout fun hname => hkept.1 (lowerCase_of_isCredential hname)

/-! ## One hop -/

/-- The loop carries no credential and no body. -/
structure Clean (s : State) : Prop where
  headers : NoCredential s.headers
  body : s.body = none

/-- The request of a hop goes to the address of the loop, and is bare where the loop is clean. -/
theorem fetchPinned_spec
    (h : fetchPinned parse other s.currentUrl ⟨some s.method, some (.headers s.headers), s.body⟩ hop =
      .ok request) :
    request.url = s.currentUrl ∧ (parse s.currentUrl).isSome ∧ (Clean s → Bare other request) := by
  unfold fetchPinned at h
  obtain ⟨parsed, hparsed, h⟩ := ok_of_bind h
  obtain ⟨_, _, h⟩ := ok_of_bind h
  obtain ⟨_, _, h⟩ := ok_of_bind h
  obtain ⟨body, hbody, h⟩ := ok_of_bind h
  cases h
  refine ⟨rfl, ?_, fun hclean => ?_⟩
  · cases hurl : parse s.currentUrl with
    | none => simp [hurl] at hparsed
    | some _ => rfl
  have hnone : body = none := by
    simp only [hclean.body] at hbody
    exact (Except.ok.inj hbody).symm
  subst hnone
  have hflat := noCredential_flattenHeaders hclean.headers
  have hheaders : NoCredential (if (flattenHeaders (some (.headers s.headers))).any
      (fun e => lowerCase other e.1 = utf16 "host") then flattenHeaders (some (.headers s.headers))
      else setHeader (flattenHeaders (some (.headers s.headers))) (utf16 "host") parsed.host) := by
    split
    · exact hflat
    · refine noCredential_setHeader hflat ?_
      unfold IsCredential
      decide
  exact ⟨hheaders, noCredential_headersWithLength hheaders none, rfl⟩

/-- The state behind a hop is clean where the one before it is, or the hop changes the origin. -/
theorem nextHop_clean (h : nextHop parse resolve other s status location i last = .ok s')
    (hclean : Clean s ∨ isCrossOriginHop parse s.currentUrl s'.currentUrl = true) : Clean s' := by
  unfold nextHop at h
  obtain ⟨_, _, h⟩ := ok_of_bind h
  obtain ⟨_, _, h⟩ := ok_of_bind h
  obtain ⟨_, _, h⟩ := ok_of_bind h
  obtain ⟨nextUrl, _, h⟩ := ok_of_bind h
  dsimp only at h
  have hbody : Clean s → (if rewritesToGet status s.method then none else s.body) = none := by
    intro hclean
    rw [hclean.body, ite_self]
  generalize (if rewritesToGet status s.method then none else s.body) = body at h hbody
  generalize (if rewritesToGet status s.method then utf16 "GET" else s.method) = method at h
  split at h
  · next hcross =>
    cases h
    exact ⟨noCredential_redirectHopHeaders (.inr hcross.2), rfl⟩
  · next hkept =>
    cases h
    refine ⟨noCredential_redirectHopHeaders (hclean.imp_left Clean.headers), ?_⟩
    rcases hclean with hclean | hcross
    · exact hbody hclean
    · by_contra hbody
      exact hkept ⟨hbody, hcross⟩

/-- A hop within an origin. -/
theorem originOf_eq {url' : JsString} (hurl : (parse url).isSome)
    (h : isCrossOriginHop parse url url' = false) : originOf parse url' = originOf parse url := by
  unfold isCrossOriginHop sameOrigin at h
  unfold originOf
  cases hfrom : parse url with
  | none => simp [hfrom] at hurl
  | some a =>
    cases hto : parse url' with
    | none => simp [hfrom, hto] at h
    | some b =>
      simp only [hfrom, hto, Bool.not_eq_false', decide_eq_true_eq] at h
      simp [h]

/-! ## A chain -/

/-- What is sent from a hop on : the request of the hop, and what the hops behind it send. -/
theorem hopsFrom_sent (h : (hopsFrom parse resolve other max i s hops).1 = request :: sent) :
    (∃ hop, fetchPinned parse other s.currentUrl ⟨some s.method, some (.headers s.headers), s.body⟩
        hop = .ok request) ∧
      (max.any fun m => finite i ≤ m) = true ∧ (sent = [] ∨ ∃ status location last s' hops',
        nextHop parse resolve other s status location i last = .ok s' ∧
          sent = (hopsFrom parse resolve other max (i + 1) s' hops').1) := by
  unfold hopsFrom at h
  split at h
  · next hmax =>
    cases hops with
    | nil => cases h
    | cons hop hops =>
      dsimp only at h
      split at h
      · cases h
      · next request' hfetch =>
        split at h
        · cases h
          exact ⟨⟨hop, hfetch⟩, hmax, .inl rfl⟩
        · next status location _ =>
          split at h
          · cases h
            exact ⟨⟨hop, hfetch⟩, hmax, .inl rfl⟩
          · next s' hnext =>
            cases h
            exact ⟨⟨hop, hfetch⟩, hmax, .inr ⟨status, location, _, s', hops, hnext, rfl⟩⟩
  · cases h

/-- Behind a clean hop all requests are bare. -/
theorem hopsFrom_bare : ∀ {sent : List PinnedTransportInput} {i : ℕ} {s : State} {hops : List Hop},
    Clean s → (hopsFrom parse resolve other max i s hops).1 = sent → ∀ r ∈ sent, Bare other r
  | [], _, _, _, _, _ => by simp
  | request :: sent, i, s, hops, hclean, h => by
    obtain ⟨⟨hop, hfetch⟩, -, hrest⟩ := hopsFrom_sent h
    refine List.forall_mem_cons.2 ⟨(fetchPinned_spec hfetch).2.2 hclean, ?_⟩
    rcases hrest with rfl | ⟨status, location, last, s', hops', hnext, hsent⟩
    · simp
    · exact hopsFrom_bare (nextHop_clean hnext (.inl hclean)) hsent.symm

/-- Within the origin of the first request nothing is promised; behind it all requests are bare. -/
theorem hopsFrom_keeps : ∀ {sent : List PinnedTransportInput} {i : ℕ} {s : State} {hops : List Hop},
    (hopsFrom parse resolve other max i s hops).1 = sent →
      ∀ {j k : ℕ} {r t : PinnedTransportInput}, j ≤ k → sent[j]? = some r → sent[k]? = some t →
        originOf parse r.url ≠ originOf parse s.currentUrl → Bare other t
  | [], _, _, _, _, _, _, _, _, _, hr, _, _ => by simp at hr
  | request :: sent, i, s, hops, h, j, k, r, t, hjk, hr, ht, horigin => by
    obtain ⟨⟨hop, hfetch⟩, -, hrest⟩ := hopsFrom_sent h
    obtain ⟨hurl, hparsed, -⟩ := fetchPinned_spec hfetch
    cases j with
    | zero =>
      cases hr
      exact absurd (by rw [hurl]) horigin
    | succ j =>
      obtain ⟨k, rfl⟩ : ∃ k', k = k' + 1 := ⟨k - 1, by omega⟩
      rw [List.getElem?_cons_succ] at hr ht
      rcases hrest with rfl | ⟨status, location, last, s', hops', hnext, hsent⟩
      · cases hr
      · by_cases hcross : isCrossOriginHop parse s.currentUrl s'.currentUrl = true
        · exact hopsFrom_bare (nextHop_clean hnext (.inr hcross)) hsent.symm t
            (List.mem_of_getElem? ht)
        · rw [Bool.not_eq_true] at hcross
          rw [← originOf_eq hparsed hcross] at horigin
          exact hopsFrom_keeps hsent.symm (Nat.le_of_succ_le_succ hjk) hr ht horigin

/-- A request is sent for a number of the loop that is at most the limit. -/
theorem hopsFrom_length : ∀ {sent : List PinnedTransportInput} {i : ℕ} {s : State} {hops : List Hop},
    (hopsFrom parse resolve other max i s hops).1 = sent → sent ≠ [] →
      ∃ m, max = some m ∧ finite (i + sent.length : ℕ) ≤ m + finite 1
  | [], _, _, _, _, hne => absurd rfl hne
  | request :: sent, i, s, hops, h, _ => by
    obtain ⟨-, hmax, hrest⟩ := hopsFrom_sent h
    obtain ⟨m, hsome, hm⟩ := (Option.any_eq_true _ _).1 hmax
    have hone : finite (i + 1 : ℕ) ≤ m + finite 1 := by
      rw [Nat.cast_add, Nat.cast_one]
      exact add_le_add (of_decide_eq_true hm) (le_refl (finite 1))
    rcases hrest with rfl | ⟨status, location, last, s', hops', hnext, hsent⟩
    · exact ⟨m, hsome, hone⟩
    · by_cases hnil : sent = []
      · rw [hnil]
        exact ⟨m, hsome, hone⟩
      · obtain ⟨m', hm', hle⟩ := hopsFrom_length hsent.symm hnil
        rw [List.length_cons, Nat.add_comm sent.length 1, ← Nat.add_assoc]
        exact ⟨m', hm', hle⟩

/-- **Credentials stay at their origin.** In a chain of any answers, from a request on that goes to
another origin than the first, every request is without a credential header and without a body, also
where the chain comes back. At most `maxRedirects + 1` requests are sent. -/
theorem fetchWithPublicRedirects_keeps (parse : JsString → Option Url)
    (resolve : JsString → JsString → Option Url) (other : JsString → UInt16 → JsString → JsString)
    (url : JsString) (init : RequestInit) (maxRedirects : Option Number) (hops : List Hop)
    (sent : List PinnedTransportInput)
    (h : (fetchWithPublicRedirects parse resolve other url init maxRedirects hops).1 = sent) :
    (∀ (first r t : PinnedTransportInput) (j k : ℕ), sent[0]? = some first → j ≤ k → sent[j]? = some r → sent[k]? = some t →
        originOf parse r.url ≠ originOf parse first.url → Bare other t) ∧
      (sent = [] ∨ ∃ m, maxRedirects.getD (some (finite DEFAULT_MAX_REDIRECTS)) = some m ∧
        finite sent.length ≤ m + finite 1) := by
  unfold fetchWithPublicRedirects at h
  constructor
  · intro first r t j k hfirst hjk hr ht horigin
    cases sent with
    | nil => cases hfirst
    | cons request sent =>
      cases hfirst
      obtain ⟨⟨hop, hfetch⟩, -, -⟩ := hopsFrom_sent h
      rw [(fetchPinned_spec hfetch).1] at horigin
      exact hopsFrom_keeps h hjk hr ht horigin
  · refine or_iff_not_imp_left.2 fun hne => ?_
    obtain ⟨m, hm, hle⟩ := hopsFrom_length h hne
    rw [Nat.zero_add] at hle
    exact ⟨m, hm, hle⟩

/-- Two origins : `https://a.test` and `https://b.test`. -/
def parseAB (url : JsString) : Option Url :=
  if (utf16 "https://a.test/").isPrefixOf url then
    some ⟨url, utf16 "https:", utf16 "https://a.test", utf16 "a.test"⟩
  else if (utf16 "https://b.test/").isPrefixOf url then
    some ⟨url, utf16 "https:", utf16 "https://b.test", utf16 "b.test"⟩
  else none

/-- A request with a credential and a body leaves its origin and comes back. -/
theorem fetchWithPublicRedirects_comes_back :
    ∃ t : PinnedTransportInput, t.url = utf16 "https://a.test/back" ∧
      (fetchWithPublicRedirects parseAB (fun url _ => parseAB url) (fun _ u _ => [u])
        (utf16 "https://a.test/") ⟨some (utf16 "post"),
          some (.record [(utf16 "AUTHORIZATION", some (utf16 "Bearer k"))]), some (some (.text (utf16 "b")))⟩
        none [⟨none, .ok (307, some (utf16 "https://b.test/x"))⟩,
          ⟨none, .ok (302, some (utf16 "https://a.test/back"))⟩, ⟨none, .ok (200, none)⟩]).1[2]? = some t ∧
      Bare (fun _ u _ => [u]) t := by
  have hsent : (fetchWithPublicRedirects parseAB (fun url _ => parseAB url) (fun _ u _ => [u])
      (utf16 "https://a.test/") ⟨some (utf16 "post"),
        some (.record [(utf16 "AUTHORIZATION", some (utf16 "Bearer k"))]), some (some (.text (utf16 "b")))⟩
      none [⟨none, .ok (307, some (utf16 "https://b.test/x"))⟩,
        ⟨none, .ok (302, some (utf16 "https://a.test/back"))⟩, ⟨none, .ok (200, none)⟩]).1 =
      [⟨utf16 "https://a.test/", utf16 "POST",
        [(utf16 "AUTHORIZATION", utf16 "Bearer k"), (utf16 "host", utf16 "a.test")], some [0x62]⟩,
        ⟨utf16 "https://b.test/x", utf16 "GET", [(utf16 "host", utf16 "b.test")], none⟩,
        ⟨utf16 "https://a.test/back", utf16 "GET", [(utf16 "host", utf16 "a.test")], none⟩] := by
    decide +kernel
  obtain ⟨hkeeps, -⟩ := fetchWithPublicRedirects_keeps _ _ _ _ _ _ _ _ hsent
  refine ⟨_, rfl, by rw [hsent]; rfl, hkeeps _ _ _ 1 2 rfl (by decide) rfl rfl ?_⟩
  decide

end Carried

end Lynox.Network
