import Lynox.Markup.Tree
import Lynox.Text.Matches

/-!
# The domain rule

A link's target is the host of a web address or the domain of a mail address (`linkTarget`). A link
passes where its target is a host the store knows, one the owner gave or one the field already links
to in the same way, or a subdomain of one (`checkLink_ok_iff`). Reading a URL, undoing percent escapes
and folding case are the platform's (`Web`).
-/

namespace Lynox.Markup

open Text

structure Url where
  protocol : JsString
  hostname : JsString
  pathname : JsString

/-- What the platform reads of a link, none where it throws. -/
structure Web where
  newURL : (value base : JsString) → Option Url
  decodeURIComponent : JsString → Option JsString
  toLowerCase : JsString → JsString

inductive MarkupRefusal
  | element_not_allowed
  | attribute_not_allowed
  | content_changed
  | comment_added
  | new_img
  | new_link_domain
  | url_scheme
  | url_control_char
  | hidden_char
  deriving DecidableEq

inductive MarkupCheckResult
  | ok
  | refused (reason : MarkupRefusal) (detail : JsString) (hostWritten : Option JsString)
  deriving DecidableEq

def DETAIL_MAX : ℕ := 200

def refused (reason : MarkupRefusal) (detail : JsString) : MarkupCheckResult :=
  .refused reason (if DETAIL_MAX < detail.length then detail.take DETAIL_MAX ++ [0x2026] else detail) none

/-- What a check of a field is told of its store and its owner. -/
structure MarkupCheckInput where
  storeHost : JsString
  startDomains : List JsString

def LINK_SCHEMES : List JsString := ["https:", "http:", "mailto:"].map utf16

/-- C0 controls and DEL, U+FFFD and the backslash. -/
def urlControl (c : UInt16) : Bool :=
  c.toNat ≤ 0x1F || c = 0x7F || c = 0xFFFD || c = 0x5C

/-- Attributes a before-image links through. -/
def URL_ATTRIBUTES : List JsString :=
  ["href", "xlink:href", "src", "poster", "data", "action", "formaction", "cite", "background",
    "ping"].map utf16

inductive LinkKind
  | web | mail
  deriving DecidableEq

inductive LinkTarget
  | ok (kind : LinkKind) (domain : JsString)
  | refused (reason : MarkupRefusal) (detail : JsString)

def isLetter (c : UInt16) : Bool :=
  (0x41 ≤ c.toNat && c.toNat ≤ 0x5A) || (0x61 ≤ c.toNat && c.toNat ≤ 0x7A)

def isAlnum (c : UInt16) : Bool :=
  isLetter c || isDigit c

/-- A dot at the end left out. -/
def withoutDot (host : JsString) : JsString :=
  if host.getLast? = some 0x2E then host.dropLast else host

/-- A plain address : its local part and its domain. -/
def plainAddress (address : JsString) : Option (JsString × JsString) :=
  match split 0x40 address with
  | [user, domain] =>
    if (user ≠ [] ∧ user.all fun c => isAlnum c || c ∈ utf16 "._+-") ∧
      (domain ≠ [] ∧ domain.all fun c => isAlnum c || c ∈ utf16 ".-") then some (user, domain)
    else none
  | _ => none

section Targets

variable (w : Web)

/-- The address domain of a `mailto:` with exactly one address. -/
def mailTarget (value : JsString) (url : Url) : LinkTarget :=
  if value.any fun c => c ∈ utf16 "?,#" then .refused .url_scheme value
  else match w.decodeURIComponent url.pathname with
    | none => .refused .url_scheme value
    | some address =>
      if address.any urlControl || address.any isWhite then .refused .url_control_char value
      else match plainAddress address with
        | none => .refused .url_scheme value
        | some (_, domain) => .ok .mail (withoutDot (w.toLowerCase domain))

/-- The domain a link points at. -/
def linkTarget (value storeHost : JsString) : LinkTarget :=
  if value.any urlControl then .refused .url_control_char value
  else match w.newURL value (utf16 "https://" ++ storeHost ++ utf16 "/") with
    | none => .refused .url_scheme value
    | some url =>
      if url.protocol ∉ LINK_SCHEMES then .refused .url_scheme value
      else if url.protocol ≠ utf16 "mailto:" then .ok .web (withoutDot url.hostname)
      else mailTarget w value url

/-- The domains the attributes of a tree link to. The source keeps them as a set. -/
def linkedDomains (triples : List Triple) (storeHost : JsString) : List (LinkKind × JsString) :=
  triples.filterMap fun t =>
    match t.attributeName with
    | none => none
    | some name =>
      if name ∉ URL_ATTRIBUTES then none
      else match linkTarget w (t.value.getD []) storeHost with
        | .ok kind domain => some (kind, domain)
        | .refused _ _ => none

/-- A host matches a domain exactly, or as a subdomain at a dot boundary. -/
def hostMatches (host domain : JsString) : Bool :=
  let d := w.toLowerCase domain
  0 < d.length && (host = d || (0x2E :: d).isSuffixOf host)

/-! ## The host as it is written -/

def lowerAscii (c : UInt16) : UInt16 :=
  if 0x41 ≤ c.toNat && c.toNat ≤ 0x5A then c + 0x20 else c

def isLineEnd (c : UInt16) : Bool :=
  c = 0x0A || c = 0x0D || c = 0x2028 || c = 0x2029

/-- What follows a prefix. -/
def after (start s : JsString) : Option JsString :=
  if start.isPrefixOf s then some (s.drop start.length) else none

/-- The domain of a `mailto:` as it is written. -/
def mailAsWritten (s : JsString) : Option JsString :=
  if (s.take 7).map lowerAscii ≠ utf16 "mailto:" then none
  else match (s.drop 7).dropWhile fun c => c ≠ 0x40 with
    | [] => none
    | _ :: domain => if domain.any isLineEnd then none else some (trim domain)

/-- A text behind its scheme, where it has one. -/
def behindScheme (s : JsString) : JsString :=
  match s with
  | [] => []
  | c :: _ =>
    if isLetter c then
      match s.dropWhile fun c => isAlnum c || c ∈ utf16 "+.-" with
      | 0x3A :: rest => rest
      | _ => []
    else s

/-- A port at the end left out. -/
def withoutPort (host : JsString) : JsString :=
  match host.reverse.dropWhile isDigit with
  | 0x3A :: rest => rest.reverse
  | _ => host

/-- The host of a web address as it is written, without user info and port. -/
def webAsWritten (s : JsString) : Option JsString :=
  (after (utf16 "//") (behindScheme s)).map fun rest =>
    let authority := rest.takeWhile fun c => !(c ∈ utf16 "/?#\\" || isWhite c)
    let host : JsString := (authority.reverse.takeWhile fun c => c ≠ 0x40).reverse
    if host.head? = some 0x5B then
      if 0x5D ∈ host then host.takeWhile (fun c => c ≠ 0x5D) ++ [0x5D] else []
    else withoutPort host

/-- The host a link's value spells. -/
def hostAsWritten (value : JsString) : Option JsString :=
  let s := value.dropWhile isWhite
  (mailAsWritten s).or (webAsWritten s)

def checkLink (value : JsString) (input : MarkupCheckInput) (linked : List (LinkKind × JsString)) :
    MarkupCheckResult :=
  match linkTarget w value input.storeHost with
  | .refused reason detail => refused reason detail
  | .ok kind domain =>
    let same := (linked.filter fun l => l.1 = kind).map Prod.snd
    let allowed := input.storeHost :: (input.startDomains ++ same)
    if allowed.any fun d => hostMatches w domain d then .ok
    else .refused .new_link_domain domain (hostAsWritten value)

end Targets

variable {w : Web} {value : JsString} {input : MarkupCheckInput} {linked : List (LinkKind × JsString)}

/-- A link passes where its target matches the store's host, a domain the owner gave or one that is
linked to in the same way. -/
theorem checkLink_ok_iff : checkLink w value input linked = .ok ↔
    ∃ kind domain, linkTarget w value input.storeHost = .ok kind domain ∧
      ∃ d, (d = input.storeHost ∨ d ∈ input.startDomains ∨ (kind, d) ∈ linked) ∧
        hostMatches w domain d = true := by
  unfold checkLink
  cases linkTarget w value input.storeHost with
  | refused reason detail => simp [refused]
  | ok kind domain =>
    have hsame : ∀ d, d ∈ (linked.filter fun l => l.1 = kind).map Prod.snd ↔ (kind, d) ∈ linked := by
      intro d
      simp [List.mem_map, List.mem_filter]
    have hany : (input.storeHost :: (input.startDomains ++
          (linked.filter fun l => l.1 = kind).map Prod.snd)).any (fun d => hostMatches w domain d) = true ↔
        ∃ d, (d = input.storeHost ∨ d ∈ input.startDomains ∨ (kind, d) ∈ linked) ∧
          hostMatches w domain d = true := by
      rw [List.any_eq_true]
      simp only [List.mem_cons, List.mem_append, hsame]
    simp only [LinkTarget.ok.injEq]
    constructor
    · intro h
      refine ⟨kind, domain, ⟨rfl, rfl⟩, hany.mp ?_⟩
      by_contra hnone
      rw [if_neg hnone] at h
      cases h
    · rintro ⟨_, _, ⟨rfl, rfl⟩, hd⟩
      rw [if_pos (hany.mpr hd)]

end Lynox.Markup
