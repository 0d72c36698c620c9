import Lynox.Data.Assoc
import Lynox.Egress.ClientHello
import Lynox.Process.Run

/-!
# The egress proxy

The registry of credentials, the requests of the shell listener and the tunnels they open, in one
state. A request waits at its name resolution and then at its connection, and the registry changes
meanwhile. One event is handled at a time; `clock` gives the readings of the clock while it is.

The bytes of a socket come in order and stay in its `inbox` while nobody reads.
-/

namespace Lynox.Egress

open Text

abbrev Cred := JsString

/-- The readings of the clock while an event is handled. -/
abbrev Clock := Nat → Nat

def DENIAL_RETENTION_MS : Nat := 60000

def MAX_DENIALS_PER_CRED : Nat := 256

def MAX_CREDS : Nat := 1024

def MAX_DENIED_HOST_CHARS : Nat := 255

inductive DenialReason
  | notInSet
  | plainHttp
  | port
  | badTarget
  | ssrf
  | sniMismatch
  | noSni
  | badHello
  | helloTimeout
  deriving DecidableEq

structure Denial where
  host : JsString
  port : Nat
  time : Nat
  reason : DenialReason
  deriving DecidableEq

structure Registration where
  set : HostSet
  ttlS : Nat
  run : JsString
  session : JsString

/-- A tunnel the proxy holds open, by the number of its request. -/
structure TunnelHandle where
  id : Nat
  host : JsString
  deriving DecidableEq

structure Entry where
  set : HostSet
  expiresAt : Nat
  run : JsString
  session : JsString
  denials : List Denial
  tunnels : List TunnelHandle

structure Retired where
  denials : List Denial
  until' : Nat

structure Socket where
  /-- All bytes that came in, and those of them nobody has read. -/
  came : Bytes
  inbox : Bytes
  /-- What was written to it, write by write. -/
  wrote : List Bytes
  destroyed : Bool

/-- Bytes come in. -/
def Socket.receive (s : Socket) (bytes : Bytes) : Socket :=
  if s.destroyed then s else { s with came := s.came ++ bytes, inbox := s.inbox ++ bytes }

/-- Where the bytes of a request are read. -/
inductive Stage
  | idle
  | resolving
  | connecting
  | hello (buf : Bytes)
  | answer (behind buf : Bytes)
  | secondHello (buf : Bytes)
  | piping
  | done
  deriving DecidableEq

/-- A request of the shell listener. -/
structure Request where
  cred : Cred
  host : JsString
  port : Nat
  /-- The set its credential had when the request came. -/
  set : HostSet
  rest : Bytes
  /-- The resolver was asked for the host. -/
  asked : Bool
  /-- What the host resolved to, and the address that was connected. -/
  addresses : List JsString
  ip : Option JsString
  reserved : Bool
  attached : Bool
  closed : Bool
  established : Bool
  stage : Stage
  client : Socket
  upstream : Socket
  /-- How often the request took a slot, and how often it gave one back. -/
  taken : Nat
  given : Nat

namespace Request

def checkName (r : Request) : Bool :=
  r.set ≠ .all

/-- Attached to its credential and not closed. -/
def isOpen (r : Request) : Bool :=
  r.attached && !r.closed

/-- Resolving, connecting or open. -/
def holdsSlot (r : Request) : Bool :=
  r.reserved || r.isOpen

end Request

structure Limits where
  tunnelsPerCred : Nat
  tunnelsTotal : Nat

structure Config where
  deny : List JsString
  limits : Limits

structure Proxy where
  live : List (Cred × Entry)
  retired : List (Cred × Retired)
  /-- Tunnels open or being opened, all credentials. -/
  opened : Int
  /-- Tunnels being opened per credential, before the registry holds them. -/
  opening : List (Cred × Int)
  requests : List Request

namespace Proxy

def new : Proxy :=
  ⟨[], [], 0, [], []⟩

def edit (p : Proxy) (id : Nat) (f : Request → Request) : Proxy :=
  { p with requests := p.requests.modify id f }

/-! ## The registry -/

def editEntry (p : Proxy) (cred : Cred) (f : Entry → Entry) : Proxy :=
  match Assoc.get p.live cred with
  | none => p
  | some entry => { p with live := Assoc.set p.live cred (f entry) }

def detach (p : Proxy) (cred : Cred) (tunnel : TunnelHandle) : Proxy :=
  p.editEntry cred fun e => { e with tunnels := e.tunnels.erase tunnel }

def tunnelCount (p : Proxy) (cred : Cred) : Nat :=
  ((Assoc.get p.live cred).map fun e => e.tunnels.length).getD 0

/-- The slot of a request is given back. -/
def giveBack (p : Proxy) (id : Nat) : Proxy :=
  { p with opened := p.opened - 1 }.edit id fun r => { r with given := r.given + 1 }

def destroyClient (p : Proxy) (id : Nat) : Proxy :=
  p.edit id fun r => { r with client := { r.client with destroyed := true } }

def destroyUpstream (p : Proxy) (id : Nat) : Proxy :=
  p.edit id fun r => { r with upstream := { r.upstream with destroyed := true } }

/-- `close` of a tunnel's handle. -/
def close (p : Proxy) (id : Nat) : Proxy :=
  match p.requests[id]? with
  | none => p
  | some r =>
    if r.closed then p
    else
      ((p.edit id fun r => { r with closed := true }).giveBack id).detach r.cred ⟨id, r.host⟩
        |>.destroyClient id |>.destroyUpstream id

def closeAll (p : Proxy) (tunnels : List TunnelHandle) : Proxy :=
  tunnels.foldl (fun p t => p.close t.id) p

def retire (p : Proxy) (cred : Cred) (entry : Entry) (endedAt : Nat) : Proxy :=
  { p with
    live := Assoc.erase p.live cred
    retired := Assoc.set p.retired cred ⟨entry.denials, endedAt + DENIAL_RETENTION_MS⟩ }.closeAll
      entry.tunnels

def liveEntry (p : Proxy) (cred : Cred) (now : Nat) : Option Entry × Proxy :=
  match Assoc.get p.live cred with
  | none => (none, p)
  | some entry =>
    if entry.expiresAt ≤ now then (none, p.retire cred entry entry.expiresAt) else (some entry, p)

/-- Expire what is due. -/
def sweep (p : Proxy) (now : Nat) : Proxy :=
  let p := (p.live.map Prod.fst).foldl (fun p cred => (p.liveEntry cred now).2) p
  { p with retired := p.retired.filter fun r => ¬ r.2.until' ≤ now }

/-- The tunnels of a credential whose host a new set lacks are closed. -/
def closeOutside (p : Proxy) (cred : Cred) (set : HostSet) (tunnels : List TunnelHandle) : Proxy :=
  (tunnels.filter fun t => !hostInSet set t.host).foldl (fun p t => (p.detach cred t).close t.id) p

/-- Register or replace a credential; false when the registry is full. -/
def put (p : Proxy) (cred : Cred) (reg : Registration) (clock : Clock) : Bool × Proxy :=
  let p := p.sweep (clock 0)
  let prev := Assoc.get p.live cred
  if prev.isNone ∧ MAX_CREDS ≤ p.live.length then (false, p)
  else
    let denials := ((prev.map Entry.denials).or
      ((Assoc.get p.retired cred).map Retired.denials)).getD []
    let p := p.closeOutside cred reg.set ((prev.map Entry.tunnels).getD [])
    let tunnels := ((Assoc.get p.live cred).map Entry.tunnels).getD []
    (true, { p with
      retired := Assoc.erase p.retired cred
      live := Assoc.set p.live cred
        ⟨reg.set, clock 1 + reg.ttlS * 1000, reg.run, reg.session, denials, tunnels⟩ })

def delete (p : Proxy) (cred : Cred) (now : Nat) : Proxy :=
  match Assoc.get p.live cred with
  | none => p
  | some entry => p.retire cred entry now

/-- The denials of a live credential, or of one retired not long ago. -/
def denials (p : Proxy) (cred : Cred) (clock : Clock) : Option (List Denial) × Proxy :=
  match p.liveEntry cred (clock 0) with
  | (some entry, p) => (some entry.denials, p)
  | (none, p) =>
    match Assoc.get p.retired cred with
    | none => (none, p)
    | some r =>
      if r.until' ≤ clock 1 then (none, { p with retired := Assoc.erase p.retired cred })
      else (some r.denials, p)

/-- The host of a denial as it is kept : printable ASCII. -/
def shownHost (host : JsString) : JsString :=
  (host.take MAX_DENIED_HOST_CHARS).map fun u => if 0x21 ≤ u ∧ u ≤ 0x7E then u else 0x3F

/-- The `k`th reading of the clock is the first of this call. -/
def recordDenial (p : Proxy) (cred : Cred) (host : JsString) (port : Nat) (reason : DenialReason)
    (clock : Clock) (k : Nat) : Proxy :=
  match p.liveEntry cred (clock k) with
  | (none, p) => p
  | (some entry, p) =>
    if MAX_DENIALS_PER_CRED ≤ entry.denials.length then p
    else
      p.editEntry cred fun e =>
        { e with denials := e.denials ++ [⟨shownHost host, port, clock (k + 1), reason⟩] }

/-- Attach a tunnel to a live credential; false when it is no longer live. -/
def attach (p : Proxy) (cred : Cred) (tunnel : TunnelHandle) (now : Nat) : Bool × Proxy :=
  match p.liveEntry cred now with
  | (none, p) => (false, p)
  | (some _, p) =>
    (true, p.editEntry cred fun e => { e with tunnels := e.tunnels ++ [tunnel] })

/-! ## Answers -/

def reason : Nat → String
  | 400 => "Bad Request"
  | 403 => "Forbidden"
  | 405 => "Method Not Allowed"
  | 407 => "Proxy Authentication Required"
  | 431 => "Request Header Fields Too Large"
  | 502 => "Bad Gateway"
  | 503 => "Service Unavailable"
  | 504 => "Gateway Timeout"
  | _ => ""

def AUTHENTICATE : String :=
  "Proxy-Authenticate: Basic realm=\"lynox-egress\"\r\n"

def replyText (code : Nat) (extra : String) : Bytes :=
  utf8 (utf16 ("HTTP/1.1 " ++ toString code ++ " " ++ reason code ++ "\r\n" ++ extra ++
    "Content-Length: 0\r\nConnection: close\r\n\r\n"))

def writeClient (p : Proxy) (id : Nat) (bytes : Bytes) : Proxy :=
  p.edit id fun r => { r with client := { r.client with wrote := r.client.wrote ++ [bytes] } }

/-- Nothing is written for no bytes. -/
def writeUpstream (p : Proxy) (id : Nat) (bytes : Bytes) : Proxy :=
  if bytes = [] then p
  else
    p.edit id fun r =>
      { r with upstream := { r.upstream with wrote := r.upstream.wrote ++ [bytes] } }

/-- Answer and close; the client is destroyed a while later. -/
def reply (p : Proxy) (id : Nat) (code : Nat) (extra : String) : Proxy :=
  match p.requests[id]? with
  | none => p
  | some r => if r.client.destroyed then p else p.writeClient id (replyText code extra)

def deny (p : Proxy) (id : Nat) (cred : Cred) (host : JsString) (port : Nat) (why : DenialReason)
    (clock : Clock) (k : Nat) : Proxy :=
  (p.recordDenial cred host port why clock k).reply id 403 ""

/-! ## Tunnels -/

def setStage (p : Proxy) (id : Nat) (stage : Stage) : Proxy :=
  p.edit id fun r => { r with stage }

/-- What is read of a client hello before a tunnel is refused. -/
def refuse (p : Proxy) (id : Nat) (r : Request) (why : DenialReason) (name : Option JsString)
    (clock : Clock) : Proxy :=
  ((p.recordDenial r.cred (name.getD r.host) r.port why clock 0).close id)

/-- The verdict on the hello at the start of the client's bytes : none while bytes are missing. -/
def verdict (host : JsString) (buf : Bytes) (afterRetry : Bool) :
    Option (Except (DenialReason × Option JsString) Nat) :=
  match parseClientHello buf afterRetry with
  | .more => none
  | .bad _ => some (.error (.badHello, none))
  | .hello none _ => some (.error (.noSni, none))
  | .hello (some sni) bytes =>
    some (if sni = host then .ok bytes else .error (.sniMismatch, some sni))

/-- The first hello is read : it goes out alone, and the server is waited for. -/
def checkFirst (p : Proxy) (id : Nat) (r : Request) (buf : Bytes) (clock : Clock) : Proxy :=
  match verdict r.host buf false with
  | none => p.setStage id (.hello buf)
  | some verdict =>
    let p := p.setStage id .done
    if r.closed then p
    else
      match verdict with
      | .error (why, name) => p.refuse id r why name clock
      | .ok bytes =>
        (p.writeUpstream id (buf.take bytes)).setStage id (.answer (buf.drop bytes) [])

/-- The second hello is read : it goes out, and all that follows. -/
def checkSecond (p : Proxy) (id : Nat) (r : Request) (buf : Bytes) (clock : Clock) : Proxy :=
  match verdict r.host buf true with
  | none => p.setStage id (.secondHello buf)
  | some verdict =>
    let p := p.setStage id .done
    if r.closed then p
    else
      match verdict with
      | .error (why, name) => p.refuse id r why name clock
      | .ok bytes =>
        ((p.writeUpstream id (buf.take bytes)).writeUpstream id (buf.drop bytes)).setStage id .piping

/-- The server's first bytes. -/
def checkAnswer (p : Proxy) (id : Nat) (r : Request) (behind buf : Bytes) (clock : Clock) : Proxy :=
  match isHelloRetryRequest buf with
  | .more => p.setStage id (.answer behind buf)
  | result =>
    let p := p.setStage id .done
    if r.closed then p
    else
      let p := p.writeClient id buf
      if result = .yes then p.checkSecond id r behind clock
      else (p.writeUpstream id behind).setStage id .piping

def establishedText : Bytes :=
  utf8 (utf16 "HTTP/1.1 200 Connection Established\r\n\r\n")

/-- The upstream is connected. -/
def connected (p : Proxy) (id : Nat) (r : Request) (clock : Clock) : Proxy :=
  if r.closed then p.destroyUpstream id
  else
    let p := (p.edit id fun r => { r with established := true }).writeClient id establishedText
    if r.checkName then p.checkFirst id r r.rest clock
    else (p.writeUpstream id r.rest).setStage id .piping

/-- Attach and connect; called with a slot already counted. -/
def tunnel (p : Proxy) (id : Nat) (r : Request) (ip : JsString) (connects : Bool) (now : Nat) :
    Proxy :=
  match p.attach r.cred ⟨id, r.host⟩ now with
  | (false, p) => (p.giveBack id).reply id 407 AUTHENTICATE
  | (true, p) =>
    let p := p.edit id fun r => { r with attached := true, stage := .done }
    if connects then p.edit id fun r => { r with ip := some ip, stage := .connecting }
    else (p.reply id 502 "").close id

/-! ## Requests -/

/-- The place a request had among those being opened is given up. -/
def release (p : Proxy) (id : Nat) : Proxy :=
  match p.requests[id]? with
  | none => p
  | some r =>
    if !r.reserved then p
    else
      let n := (Assoc.get p.opening r.cred).getD 1 - 1
      { p with
        opening := if n = 0 then Assoc.erase p.opening r.cred else Assoc.set p.opening r.cred n
        }.edit id fun r => { r with reserved := false }

/-- The addresses of the host are known. -/
def afterLookup (p : Proxy) (cfg : Config) (id : Nat) (r : Request) (addresses : List JsString)
    (connects : Bool) (clock : Clock) (k : Nat) : Proxy :=
  let p := p.edit id fun r => { r with addresses, stage := .idle }
  match pickAddress addresses cfg.deny with
  | .error _ => (p.giveBack id).deny id r.cred r.host r.port .ssrf clock k
  | .ok ip =>
    if r.client.destroyed then p.giveBack id else p.tunnel id r ip connects (clock k)

/-- A name resolution ended : with addresses, or not at all. -/
def resolved (p : Proxy) (cfg : Config) (id : Nat) (r : Request) (addresses : Option (List JsString))
    (connects : Bool) (clock : Clock) : Proxy :=
  match addresses with
  | none => ((p.setStage id .idle).giveBack id).reply id 502 "" |>.release id
  | some addresses => (p.afterLookup cfg id r addresses connects clock 0).release id

/-- A request that has just come, with nothing done for it. -/
def fresh (rest : Bytes) : Request :=
  ⟨[], [], 0, .names [], rest, false, [], none, false, false, false, false, .idle, ⟨rest, [], [], false⟩,
    ⟨[], [], [], false⟩, 0, 0⟩

/-- A request that was admitted, with the set its credential has. -/
def admitted (rest : Bytes) (cred : Cred) (host : JsString) (port : Nat) (set : HostSet) :
    Request :=
  { fresh rest with
    cred, host, port, set, asked := !isIPv4 host, reserved := true, stage := .resolving, taken := 1 }

/-- The request takes a slot, beside those being opened for its credential. -/
def takeSlot (p : Proxy) (id : Nat) (r : Request) (opening : Int) : Proxy :=
  { p with
    opened := p.opened + 1
    opening := Assoc.set p.opening r.cred (opening + 1) }.edit id fun _ => r

def startsPlainHttp (target : JsString) : Bool :=
  toLowerCase (target.take 7) == utf16 "http://"

/-- A request head was read. `cred` is the credential of its header, and `connects` says whether a
connection that is opened at once does not throw. -/
def handle (p : Proxy) (cfg : Config) (cred : Option Cred) (method target : JsString) (rest : Bytes)
    (connects : Bool) (clock : Clock) : Proxy :=
  let id := p.requests.length
  let p := { p with requests := p.requests ++ [fresh rest] }
  match cred with
  | none => p.reply id 407 AUTHENTICATE
  | some cred =>
    match p.liveEntry cred (clock 0) with
    | (none, p) => p.reply id 407 AUTHENTICATE
    | (some entry, p) =>
      if method ≠ utf16 "CONNECT" then
        p.deny id cred target 0 (if startsPlainHttp target then .plainHttp else .badTarget) clock 1
      else
        match parseAuthority target with
        | .error _ => p.deny id cred target 0 .badTarget clock 1
        | .ok (host, port) =>
          if port ∉ ALLOWED_PORTS then p.deny id cred host port .port clock 1
          else if !hostInSet entry.set host then p.deny id cred host port .notInSet clock 1
          else
            let opening := (Assoc.get p.opening cred).getD 0
            if (cfg.limits.tunnelsTotal : Int) ≤ p.opened ∨
                (cfg.limits.tunnelsPerCred : Int) ≤ p.tunnelCount cred + opening then
              p.reply id 503 ""
            else
              let r := admitted rest cred host port entry.set
              let p := p.takeSlot id r opening
              if isIPv4 host then (p.afterLookup cfg id r [host] connects clock 1).release id else p

/-! ## Events -/

/-- The handler of a request's event runs on the request. -/
def onRequest (p : Proxy) (id : Nat) (f : Request → Proxy) : Proxy :=
  match p.requests[id]? with
  | none => p
  | some r => f r

/-- The next bytes of the client are handed to whoever reads them. -/
def clientData (p : Proxy) (id : Nat) (r : Request) (n : Nat) (clock : Clock) : Proxy :=
  let chunk := r.client.inbox.take n
  let p' := p.edit id fun r => { r with client := { r.client with inbox := r.client.inbox.drop n } }
  if r.client.destroyed ∨ chunk = [] then p
  else
    match r.stage with
    | .hello buf => p'.checkFirst id r (buf ++ chunk) clock
    | .secondHello buf => p'.checkSecond id r (buf ++ chunk) clock
    | .piping => p'.writeUpstream id chunk
    | _ => p

def serverData (p : Proxy) (id : Nat) (r : Request) (n : Nat) (clock : Clock) : Proxy :=
  let chunk := r.upstream.inbox.take n
  let p' := p.edit id fun r =>
    { r with upstream := { r.upstream with inbox := r.upstream.inbox.drop n } }
  if r.upstream.destroyed ∨ chunk = [] then p
  else
    match r.stage with
    | .answer behind buf => p'.checkAnswer id r behind (buf ++ chunk) clock
    | .piping => p'.writeClient id chunk
    | _ => p

/-- The client socket closed, whoever closed it. -/
def clientClosed (p : Proxy) (id : Nat) (r : Request) : Proxy :=
  let p := p.destroyClient id
  if r.attached then p.close id else p

def upstreamError (p : Proxy) (id : Nat) (r : Request) : Proxy :=
  if !r.attached then p
  else (if r.established then p else p.reply id 502 "").close id

def connectTimeout (p : Proxy) (id : Nat) (r : Request) : Proxy :=
  if r.attached && !r.established then (p.reply id 504 "").close id else p

/-- No client hello came in time. -/
def helloTimeout (p : Proxy) (id : Nat) (r : Request) (clock : Clock) : Proxy :=
  match r.stage with
  | .hello _ | .secondHello _ =>
    let p := p.setStage id .done
    if r.closed then p else p.refuse id r .helloTimeout none clock
  | _ => p

/-- The server sent nothing that could be read in time. -/
def serverHelloTimeout (p : Proxy) (id : Nat) (r : Request) : Proxy :=
  match r.stage with
  | .answer _ _ =>
    let p := p.setStage id .done
    if r.closed then p else p.close id
  | _ => p

/-- No bytes either way for a while. -/
def idleTimeout (p : Proxy) (id : Nat) (r : Request) : Proxy :=
  if r.stage = .piping then p.close id else p

end Proxy

inductive Action
  | put (cred : Cred) (reg : Registration)
  | delete (cred : Cred)
  | sweep
  | denials (cred : Cred)
  | request (cred : Option Cred) (method target : JsString) (rest : Bytes) (connects : Bool)
  | resolved (id : Nat) (addresses : Option (List JsString)) (connects : Bool)
  | connected (id : Nat)
  | connectTimeout (id : Nat)
  | upstreamError (id : Nat)
  | upstreamClosed (id : Nat)
  | clientClosed (id : Nat)
  | clientBytes (id : Nat) (bytes : Bytes)
  | clientData (id n : Nat)
  | serverBytes (id : Nat) (bytes : Bytes)
  | serverData (id n : Nat)
  | helloTimeout (id : Nat)
  | serverHelloTimeout (id : Nat)
  | idleTimeout (id : Nat)

structure Event where
  clock : Clock
  action : Action

/-- One event. An event of a request that cannot have it changes nothing. -/
def Proxy.step (cfg : Config) (p : Proxy) (e : Event) : Proxy :=
  match e.action with
  | .put cred reg => (p.put cred reg e.clock).2
  | .delete cred => p.delete cred (e.clock 0)
  | .sweep => p.sweep (e.clock 0)
  | .denials cred => (p.denials cred e.clock).2
  | .request cred method target rest connects =>
    p.handle cfg cred method target rest connects e.clock
  | .resolved id addresses connects => p.onRequest id fun r =>
    if r.stage = .resolving then p.resolved cfg id r addresses connects e.clock else p
  | .connected id => p.onRequest id fun r =>
    if r.stage = .connecting then p.connected id r e.clock else p
  | .connectTimeout id => p.onRequest id fun r => p.connectTimeout id r
  | .upstreamError id => p.onRequest id fun r => p.upstreamError id r
  | .upstreamClosed id => p.onRequest id fun r => if r.attached then p.close id else p
  | .clientClosed id => p.onRequest id fun r => p.clientClosed id r
  | .clientBytes id bytes => p.edit id fun r => { r with client := r.client.receive bytes }
  | .clientData id n => p.onRequest id fun r => p.clientData id r n e.clock
  | .serverBytes id bytes => p.edit id fun r => { r with upstream := r.upstream.receive bytes }
  | .serverData id n => p.onRequest id fun r => p.serverData id r n e.clock
  | .helloTimeout id => p.onRequest id fun r => p.helloTimeout id r e.clock
  | .serverHelloTimeout id => p.onRequest id fun r => p.serverHelloTimeout id r
  | .idleTimeout id => p.onRequest id fun r => p.idleTimeout id r

end Lynox.Egress
