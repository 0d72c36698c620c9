import Lynox.Text.Find
import Lynox.Text.JsonTree
import Lynox.Text.Matcher
import Lynox.Text.Matches

/-!
# The method a request is gated as

A server may run a request as another method than the one that is sent : the override headers, a
`_method` in the query and one in the body name it. `overrideCandidates` collects what the request names,
`effectiveWriteMethod` is the strongest of it, and `writeMethodsNamed` are the writes among it.
-/

namespace Lynox.Outbound

open Text

/-- What the platform does : the case of characters beyond ASCII, and the query of a URL that can be
parsed. -/
structure Platform where
  lower : JsString → UInt16 → JsString → JsString
  upper : JsString → UInt16 → JsString → JsString
  searchParams : JsString → Option (List (JsString × JsString))

/-! ## Methods -/

def isReadMethod (method : JsString) : Bool :=
  method = utf16 "GET" || method = utf16 "HEAD"

/-- DELETE over every other write over the two reads. -/
def rank (method : JsString) : ℕ :=
  if isReadMethod method then 0 else if method = utf16 "DELETE" then 2 else 1

def KNOWN_METHODS : List JsString :=
  ["GET", "HEAD", "POST", "PUT", "PATCH", "DELETE", "OPTIONS", "TRACE", "CONNECT",
    "PROPFIND", "PROPPATCH", "MKCOL", "COPY", "MOVE", "LOCK", "UNLOCK", "SEARCH", "REPORT",
    "MERGE", "MKACTIVITY", "CHECKOUT", "PURGE", "LINK", "UNLINK", "NOTIFY", "SUBSCRIBE", "UNSUBSCRIBE",
    "M-SEARCH"].map utf16

def OVERRIDE_HEADERS : List JsString :=
  ["x-http-method-override", "x-http-method", "x-method-override"].map utf16

/-- What no override may hold. -/
def NOT_A_METHOD : JsString := [0x00]

section Names

variable (P : Platform)

def Platform.toLowerCase (s : JsString) : JsString :=
  lowerCase P.lower s

/-- `raw.trim().toUpperCase()` -/
def Platform.asMethod (raw : JsString) : JsString :=
  upperCase P.upper (trim raw)

/-- A header name as a server may read it. -/
def headerKey (raw : JsString) : JsString :=
  (P.toLowerCase (trim raw)).map fun u => if u = 0x5F then 0x2D else u

def isBracket (u : UInt16) : Bool :=
  u = 0x5B || u = 0x5D

/-- Whether a name reaches some server as an override, in one of the ways it may be read. -/
def isOverrideFieldName (key : JsString) : Bool :=
  let name := (key.takeWhile (· ≠ 0x00)).dropWhile fun u => isWhite u || isBracket u
  let base := name.takeWhile fun u => !isBracket u
  let dotted :=
    if base.head? = some 0x2E then [(base.dropWhile (· = 0x2E)).takeWhile (· ≠ 0x2E)] else []
  (base :: dotted).any fun reading =>
    let read := P.toLowerCase (reading.map fun u => if u = 0x2E || isWhite u then 0x5F else u)
    read = utf16 "_method" || OVERRIDE_HEADERS.contains read

end Names

/-! ## The body -/

/-- `%XX` -/
def percentEscape : Pattern ℕ
  | 0x25 :: a :: b :: _ => do
    let x ← hexVal a
    let y ← hexVal b
    return (x * 16 + y, 2)
  | _ => none

def percentDecoded (text : JsString) : JsString :=
  replace percentEscape (fun n => [.ofNat n]) text

/-- `\uXXXX`, its letter in either case. -/
def unicodeEscape : Pattern UInt16
  | 0x5C :: u :: a :: b :: c :: d :: _ =>
    if lowerAscii u = 0x75 then (hexUnit a b c d).map fun x => (x, 5) else none
  | _ => none

/-- `"_method"` in any case, and a colon. -/
def methodKey : Pattern Unit := fun s =>
  let key := utf16 "\"_method\""
  if (s.take key.length).map lowerAscii = key then
    match (s.drop key.length).dropWhile isWhite with
    | 0x3A :: rest => some ((), s.length - rest.length - 1)
    | _ => none
  else none

/-- How many times a text writes the key. -/
def methodKeysWritten (body : JsString) : ℕ :=
  (matchAll methodKey (replace unicodeEscape (fun u => [u]) body)).length

def namesMethodKey (body : JsString) : Bool :=
  0 < methodKeysWritten body

section Parsed

variable (P : Platform)

mutual

/-- How many keys of that name a value holds. -/
def methodKeysParsed : Json → ℕ
  | .array items => methodKeysInItems items
  | .object fields => methodKeysInFields fields
  | _ => 0

def methodKeysInItems : List Json → ℕ
  | [] => 0
  | item :: items => methodKeysParsed item + methodKeysInItems items

def methodKeysInFields : List (JsString × Json) → ℕ
  | [] => 0
  | (name, inner) :: fields =>
    (if P.toLowerCase name = utf16 "_method" then 1 else 0) + methodKeysParsed inner +
      methodKeysInFields fields

end

/-- The overrides at the top of a JSON value. -/
def methodFields : Json → List JsString
  | .object fields => (fields.filter fun f => P.toLowerCase f.1 = utf16 "_method").map fun f =>
    match f.2 with
    | .string s => s
    | _ => NOT_A_METHOD
  | _ => []

end Parsed

/-- `%XX` as a byte. -/
def percentByte : Bytes → Option UInt8
  | 0x25 :: x :: y :: _ => do
    return .ofNat ((← hexVal (.ofNat x.toNat)) * 16 + (← hexVal (.ofNat y.toNat)))
  | _ => none

/-- Bytes with the escapes read, after those of an escape that are still to be passed over. -/
def percentBytes : ℕ → Bytes → Bytes
  | _, [] => []
  | n + 1, _ :: rest => percentBytes n rest
  | 0, b :: rest =>
    match percentByte (b :: rest) with
    | some byte => byte :: percentBytes 2 rest
    | none => b :: percentBytes 0 rest

/-- A field of a form : `+` is a blank, and `%XX` a byte. -/
def formDecoded (s : JsString) : JsString :=
  decode (percentBytes 0 (utf8 (s.map fun u => if u = 0x2B then 0x20 else u)))

/-- `new URLSearchParams(body)` -/
def urlSearchParams (body : JsString) : List (JsString × JsString) :=
  let body := if body.head? = some 0x3F then body.tail else body
  ((split 0x26 body).filter fun part => part ≠ []).map fun part =>
    (formDecoded (part.takeWhile (· ≠ 0x3D)), formDecoded ((part.dropWhile (· ≠ 0x3D)).drop 1))

/-! ## What cannot be read -/

/-- A line break before blanks. -/
def foldedBreak : Pattern Unit
  | 0x0A :: rest => folded 0 rest
  | 0x0D :: 0x0A :: rest => folded 1 rest
  | _ => none
where
  folded (n : ℕ) (rest : JsString) : Option (Unit × ℕ) :=
    let blanks := rest.takeWhile fun u => u = 0x20 || u = 0x09
    if blanks = [] then none else some ((), n + blanks.length)

/-- `text.split(/\r?\n/)` -/
def splitLines (text : JsString) : List JsString :=
  let pieces := split 0x0A text
  pieces.dropLast.map (fun line => if line.getLast? = some 0x0D then line.dropLast else line) ++
    pieces.getLast?.toList

def isDisposition (line : JsString) : Bool :=
  let word := utf16 "content-disposition"
  let text := line.dropWhile isWhite
  (text.take word.length).map lowerAscii = word &&
    ((text.drop word.length).dropWhile isWhite).head? = some 0x3A

/-- The rest behind the closing quote of a string. A backslash takes the next unit with it, unless that ends
a line. -/
def afterQuoted : JsString → Option JsString
  | [] => none
  | u :: rest =>
    if u = 0x22 then some rest
    else if u = 0x5C then
      match rest with
      | [] => none
      | v :: rest => if isLineTerminator v then none else afterQuoted rest
    else afterQuoted rest

/-- A `name` parameter. `extended` is set where a star stands before its `=`, and `piece` holds the digits of
a numbered one. -/
structure NameParameter where
  extended : Bool
  piece : Option JsString
  value : JsString

/-- The star of a parameter, its digits, and the star behind those. -/
def parameterStar (s : JsString) : Bool × Option JsString × JsString :=
  match s with
  | 0x2A :: rest =>
    let digits := rest.takeWhile isDigit
    let piece := if digits = [] then none else some digits
    match rest.drop digits.length with
    | 0x2A :: rest' => (true, piece, rest')
    | rest' => (digits = [], piece, rest')
  | _ => (false, none, s)

def nameParameter : Pattern NameParameter
  | 0x3B :: s =>
    let word := s.dropWhile isWhite
    if (word.take 4).map lowerAscii = utf16 "name" then
      let (extended, piece, rest) := parameterStar (word.drop 4)
      match rest.dropWhile isWhite with
      | 0x3D :: rest =>
        let text := rest.dropWhile isWhite
        let after :=
          match text with
          | 0x22 :: quoted => (afterQuoted quoted).getD (text.dropWhile (· ≠ 0x3B))
          | _ => text.dropWhile (· ≠ 0x3B)
        some (⟨extended, piece, text.take (text.length - after.length)⟩, s.length - after.length)
      | _ => none
    else none
  | _ => none

/-- `\\(.)` -/
def backslashed : Pattern UInt16
  | 0x5C :: u :: _ => if isLineTerminator u then none else some (u, 1)
  | _ => none

/-- The charset and the language before a value. -/
def dropCharset (value : JsString) : JsString :=
  match (value.dropWhile (· ≠ 0x27)).drop 1 with
  | [] => value
  | rest =>
    match rest.dropWhile (· ≠ 0x27) with
    | [] => value
    | _ :: text => text

def NameParameter.text (p : NameParameter) : JsString :=
  let value := trim p.value
  let value :=
    if value.head? = some 0x22 then replace backslashed (fun u => [u]) (value.drop 1).dropLast else value
  percentDecoded (if p.extended then dropCharset value else value)

/-- The names of a line, the numbered pieces of one put together. -/
def dispositionNames (line : JsString) : List JsString :=
  let found := matchAll nameParameter line
  let pieces := found.filterMap fun p => p.piece.map fun digits => (digitsVal digits, p.text)
  (found.filter fun p => p.piece = none).map NameParameter.text ++
    if pieces = [] then []
    else [((pieces.mergeSort fun a b => a.1 ≤ b.1).map Prod.snd).flatten]

def ASCII_READING_CHARSETS : List JsString :=
  ["utf-8", "utf8", "iso-8859-1", "latin1", "windows-1252"].map utf16

/-- `*` with digits, and one more `*`. -/
def charsetStars (s : JsString) : JsString :=
  let s :=
    match s with
    | 0x2A :: rest =>
      let digits := rest.takeWhile isDigit
      if digits = [] then s else rest.drop digits.length
    | _ => s
  match s with
  | 0x2A :: rest => rest
  | _ => s

def isCharsetUnit (u : UInt16) : Bool :=
  !(u = 0x22 || u = 0x3B || u = 0x2C || isWhite u)

/-- The value of a charset in quotes or without, with what follows it. A quote that is not closed begins an
empty one. -/
def charsetValue (s : JsString) : JsString × JsString :=
  match s with
  | 0x22 :: rest =>
    match rest.dropWhile isCharsetUnit with
    | 0x22 :: after => (rest.takeWhile isCharsetUnit, after)
    | _ => ([], s)
  | _ => (s.takeWhile isCharsetUnit, s.dropWhile isCharsetUnit)

def charsetParameter : Pattern JsString := fun s =>
  let word := utf16 "charset"
  if word.isPrefixOf s then
    match (charsetStars ((s.drop word.length).dropWhile isWhite)).dropWhile isWhite with
    | 0x3D :: rest =>
      let (value, after) := charsetValue (rest.dropWhile isWhite)
      some (value, s.length - after.length - 1)
    | _ => none
  else none

/-- Whether a charset is named that the body cannot be read in. -/
def foreignCharset (contentType : JsString) : Bool :=
  (matchAll charsetParameter contentType).any fun value => !ASCII_READING_CHARSETS.contains value

/-! ## Requests -/

inductive BodyReadings
  | one (body : JsString)
  | several (bodies : List JsString)

def BodyReadings.list : BodyReadings → List JsString
  | .one body => [body]
  | .several bodies => bodies

structure Request where
  method : JsString
  headers : List (JsString × JsString)
  url : JsString
  body : Option BodyReadings

structure BodyOverrides where
  declared : List JsString
  other : List JsString
  unreadable : Bool

section Gate

variable (P : Platform)

/-- Whether a `Content-Encoding` other than `identity` is named. -/
def encodedBody (headers : List (JsString × JsString)) : Bool :=
  (headers.filter fun h => headerKey P h.1 = utf16 "content-encoding").any fun h =>
    (split 0x2C h.2).any fun coding =>
      !(["", "identity"].map utf16).contains (P.toLowerCase (trim coding))

def multipartNamesMethod (body : JsString) : Bool :=
  (splitLines (replace foldedBreak (fun _ => [0x20]) body)).any fun line =>
    isDisposition line && (dispositionNames line).any (isOverrideFieldName P)

/-- The values of the content types, as one text. -/
def contentType (headers : List (JsString × JsString)) : JsString :=
  P.toLowerCase ((utf16 ", ").intercalate
    ((headers.filter fun h => P.toLowerCase (trim h.1) = utf16 "content-type").map Prod.snd))

/-- `text.includes(word)` -/
def includes (text word : JsString) : Bool :=
  (indexOf text word 0).isSome

/-- A text whose first unit behind white space opens a JSON value or string. -/
def opensJson (body : JsString) : Bool :=
  (body.dropWhile isWhite).head?.any fun u => u = 0x5B || u = 0x7B || u = 0x22

def bodyOverrides (body : JsString) (headers : List (JsString × JsString)) : BodyOverrides :=
  let type := contentType P headers
  let parsed := parse body
  let duplicateKey := parsed.any fun v => methodKeysParsed P v < methodKeysWritten body
  let json := parsed.map (methodFields P)
  let jsonDeclared := includes type (utf16 "json")
  let formDeclared := includes type (utf16 "application/x-www-form-urlencoded")
  let form :=
    if jsonDeclared && !formDeclared && json.isSome then []
    else ((urlSearchParams body).filter fun f => isOverrideFieldName P f.1).map Prod.snd
  let looksJson := jsonDeclared || opensJson body
  { declared := (if jsonDeclared then json.getD [] else []) ++ if formDeclared then form else []
    other := (if jsonDeclared then [] else json.getD []) ++ if formDeclared then [] else form
    unreadable := (looksJson && json.isNone && namesMethodKey body) || duplicateKey ||
      (includes type (utf16 "multipart/") && multipartNamesMethod P body) ||
        (body ≠ [] && (encodedBody P headers || foreignCharset type)) }

def isKnown (raw : JsString) : Bool :=
  KNOWN_METHODS.contains (P.asMethod raw)

/-- What one reading of the body names. -/
def readingCandidates (headers : List (JsString × JsString)) (reading : JsString) : List JsString :=
  let fromBody := bodyOverrides P reading headers
  fromBody.declared ++ fromBody.other.filter (isKnown P) ++
    if fromBody.unreadable then [utf16 "DELETE"] else []

/-- Every override of a request : of the headers, of the query, and of the body where one is sent. -/
def overrideCandidates (r : Request) : List JsString :=
  (r.headers.filter fun h => OVERRIDE_HEADERS.contains (headerKey P h.1)).map Prod.snd ++
    (((P.searchParams r.url).getD []).filter fun q => isOverrideFieldName P q.1).map Prod.snd ++
    match r.body with
    | none => []
    | some body =>
      if isReadMethod (P.asMethod r.method) then []
      else body.list.flatMap (readingCandidates P r.headers)

/-- One candidate against the method so far. -/
def raise (effective raw : JsString) : Option JsString :=
  let m := P.asMethod raw
  if m = [] then some effective
  else if !KNOWN_METHODS.contains m then none
  else if 0 < rank m ∧ rank effective ≤ rank m then some m
  else some effective

def effectiveWriteMethod (r : Request) : Option JsString :=
  let effective := P.asMethod r.method
  if KNOWN_METHODS.contains effective then (overrideCandidates P r).foldlM (raise P) effective else none

/-- Every write a server may run the request as. -/
def writeMethodsNamed (r : Request) : List JsString :=
  ((((r.method :: overrideCandidates P r).map P.asMethod).filter fun m =>
    KNOWN_METHODS.contains m && 0 < rank m).eraseDups).mergeSort fun a b => !decide (b < a)

end Gate

end Lynox.Outbound
