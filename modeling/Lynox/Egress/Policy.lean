import Lynox.Text.Utf8

/-!
# What the egress proxy lets through

Host names, addresses and the sets of a credential. A host is an exact lower-case name or a
dotted IPv4 address. Every address a name resolves to must be public for one of them to be picked.
-/

namespace Lynox.Egress

open Text

/-- The hosts of a credential : the names it was registered with, or every public host. -/
inductive HostSet
  | all
  | names (hosts : List JsString)
  deriving DecidableEq

def hostInSet : HostSet → JsString → Bool
  | .all, _ => true
  | .names hosts, host => host ∈ hosts

/-! ## Host names -/

def isDigit (u : UInt16) : Bool :=
  0x30 ≤ u ∧ u ≤ 0x39

def isLower (u : UInt16) : Bool :=
  0x61 ≤ u ∧ u ≤ 0x7A

def isAlnum (u : UInt16) : Bool :=
  isLower u || isDigit u

/-- The parts of a text between its dots. -/
def labels (host : JsString) : List JsString :=
  host.splitOn 0x2E

/-- At most 63 letters, digits and hyphens, the first and the last no hyphen. -/
def isLabel (label : JsString) : Bool :=
  label.length ≤ 63 && label.all (fun u => isAlnum u || u == 0x2D) &&
    label.head?.any isAlnum && label.getLast?.any isAlnum

/-- A label the resolver reads as a number : digits, or `0x` and hex digits. -/
def isNumberLabel (label : JsString) : Bool :=
  (label ≠ [] && label.all isDigit) ||
    (label.take 2 == utf16 "0x" &&
      (label.drop 2).all fun u => isDigit u || (0x61 ≤ u && u ≤ 0x66))

def isExactHostname (host : JsString) : Bool :=
  1 ≤ host.length && host.length ≤ 253 && (labels host).all isLabel &&
    !(labels host).getLast?.any isNumberLabel

/-! ## Addresses -/

/-- The number that digits write. -/
def numberOf (digits : JsString) : Nat :=
  digits.foldl (fun n u => 10 * n + (u.toNat - 0x30)) 0

/-- A number up to 255 without leading zeros. -/
def isOctet (part : JsString) : Bool :=
  part ≠ [] && part.length ≤ 3 && part.all isDigit && numberOf part ≤ 255 &&
    (part.length == 1 || part.head? != some 0x30)

def isIPv4 (ip : JsString) : Bool :=
  (labels ip).length == 4 && (labels ip).all isOctet

/-- The four octets of a dotted IPv4. -/
def v4Octets (text : JsString) : Option (List Nat) :=
  let parts := labels text
  if parts.length = 4 ∧ parts.all (fun p => p ≠ [] && p.length ≤ 3 && p.all isDigit) then
    let nums := parts.map numberOf
    if nums.all (· ≤ 255) then some nums else none
  else none

def isPrivateV4 : List Nat → Bool
  | a :: b :: c :: _ =>
    a == 127 || a == 10 || (a == 172 && 16 ≤ b && b ≤ 31) || (a == 192 && b == 168) ||
      (a == 169 && b == 254) || (a == 100 && 64 ≤ b && b ≤ 127) ||
      (a == 198 && (b == 18 || b == 19)) || (a == 192 && b == 0 && c == 0) || a == 0 || 224 ≤ a
  | _ => false

/-- Of a text without a colon; every text asked about here is one. -/
def isPrivateIP (ip : JsString) : Bool :=
  (v4Octets ip).any isPrivateV4

/-- The documentation and relay ranges. -/
def isReservedV4 (ip : JsString) : Bool :=
  match (labels ip).map numberOf with
  | a :: b :: c :: _ =>
    (a == 192 && b == 0 && c == 2) || (a == 198 && b == 51 && c == 100) ||
      (a == 203 && b == 0 && c == 113) || (a == 192 && b == 88 && c == 99)
  | _ => false

/-- Why an address is refused. -/
def refusedAddress (deny : List JsString) (ip : JsString) : Option String :=
  if !isIPv4 ip then some "not an IPv4 address"
  else if isPrivateIP ip || isReservedV4 ip then some "private address"
  else if ip ∈ deny then some "denied address"
  else none

/-- The address to connect to. Every address must pass, not just the one used. -/
def pickAddress (addresses deny : List JsString) : Except String JsString :=
  match addresses with
  | [] => .error "no address"
  | ip :: _ =>
    match addresses.findSome? (refusedAddress deny) with
    | some error => .error error
    | none => .ok ip

/-! ## The target of a request -/

/-- The units of bytes read as Latin-1. -/
def latin1 (bytes : Bytes) : JsString :=
  bytes.map UInt8.toUInt16

/-- The lower case of a Latin-1 text. -/
def toLowerCase (s : JsString) : JsString :=
  s.map fun u =>
    if (0x41 ≤ u ∧ u ≤ 0x5A) ∨ (0xC0 ≤ u ∧ u ≤ 0xDE ∧ u ≠ 0xD7) then u + 0x20 else u

/-- A text split at its last colon. -/
def splitLastColon (text : JsString) : Option (JsString × JsString) :=
  match text.reverse.span (· ≠ 0x3A) with
  | (_, []) => none
  | (after, _ :: before) => some (before.reverse, after.reverse)

/-- The host and the port of a request line. -/
def parseAuthority (authority : JsString) : Except String (JsString × Nat) :=
  match splitLastColon authority with
  | none => .error "missing port"
  | some (before, p) =>
    if p ≠ [] ∧ p.length ≤ 5 ∧ p.all isDigit then
      let host := toLowerCase before
      if !isIPv4 host && !isExactHostname host then .error "bad host"
      else .ok (host, numberOf p)
    else .error "bad port"

def ALLOWED_PORTS : List Nat :=
  [443]

section Facts

end Facts

end Lynox.Egress
