import Lynox.Data.Fields
import Lynox.Text.Json
import Mathlib.Algebra.Order.Floor.Ring
import Mathlib.Data.Rat.Floor

/-!
# The tar writer

Ustar headers, with a pax extended header where ustar cannot hold the value. A block is 512 zeros,
written over at the offsets of its fields. `digest` is the sha256 of some bytes in hexadecimal digits; it
stands in the names of placeholders and in the result of a file.
-/

namespace Lynox.Tar

open Fields Text

def BLOCK : Nat := 512

/-- The largest value 11 octal digits hold. -/
def USTAR_MAX_SIZE : Nat := 8 ^ 11 - 1

/-! ## Names -/

/-- A part of a component an extractor could read as a way up : dots and spaces alone. -/
def isDots (sub : JsString) : Bool :=
  sub ≠ [] && sub.all fun u => u == 0x2E || u == 0x20

def componentProblem (name part : JsString) : Option JsString :=
  if part = [] then some (utf16 "empty component in " ++ quote name)
  else ((part.splitOn 0x5C).find? isDots).map fun sub =>
    utf16 "component " ++ quote sub ++ utf16 " refused in " ++ quote name

/-- Why a name is not a plain relative entry name. -/
def tarNameProblem (name : JsString) : Option JsString :=
  if name = [] then some (utf16 "empty entry name")
  else if 0 ∈ name then some (utf16 "entry name contains NUL")
  else (name.splitOn 0x2F).findSome? (componentProblem name)

def isPrintable (u : UInt16) : Bool :=
  0x20 ≤ u ∧ u ≤ 0x7E

def fitsUstarName (name : JsString) : Bool :=
  byteLength name ≤ 100 && name.all isPrintable

/-- A stand-in for a name that is kept elsewhere. -/
def placeholderName (digest : Bytes → JsString) (name : JsString) : JsString :=
  let safe := name.map fun u => if isPrintable u then u else 0x5F
  if safe.length ≤ 100 then safe else safe.take 60 ++ 0x7E :: (digest (utf8 name)).take 39

/-! ## Pax records -/

/-- The length of a record counts its own digits. -/
def settle (bodyLen : Nat) : (fuel len : Nat) → Nat
  | 0, len => len
  | fuel + 1, len =>
    let next := bodyLen + (numeral 10 len).length
    if len ≠ next then settle bodyLen fuel next else len

/-- The digits of a number as bytes. -/
def digitBytes (ds : List Nat) : Bytes :=
  ds.map fun d => .ofNat (0x30 + d)

def paxRecord (key value : JsString) : Bytes :=
  let body := 0x20 :: utf8 key ++ 0x3D :: utf8 value ++ [0x0A]
  let len := settle body.length body.length (body.length + 1)
  digitBytes (numeral 10 len) ++ body

/-! ## Headers -/

def octal (value width : Nat) : Bytes :=
  let digits := numeral 8 value
  digitBytes (List.replicate (width - 1 - digits.length) 0 ++ digits) ++ [0]

/-- At most `len` bytes are written. -/
def write (buf : Bytes) (bytes : Bytes) (off len : Nat) : Bytes :=
  put buf off (bytes.take len)

inductive EntryType
  | file
  | pax
  deriving DecidableEq

def EntryType.byte : EntryType → UInt8
  | file => 0x30
  | pax => 0x78

/-- The fields of a header but its checksum, which is blank. -/
def headerFields (name : JsString) (size : Nat) (mtime : ℚ) (type : EntryType) : Bytes :=
  let buf := List.replicate BLOCK 0
  let buf := write buf (utf8 name) 0 100
  let buf := write buf (octal 0o644 8) 100 8
  let buf := write buf (octal 0 8) 108 8
  let buf := write buf (octal 0 8) 116 8
  let buf := write buf (octal (min size USTAR_MAX_SIZE) 12) 124 12
  let buf := write buf (octal (min USTAR_MAX_SIZE ⌊mtime⌋.toNat) 12) 136 12
  let buf := write buf (List.replicate 8 0x20) 148 8
  let buf := write buf [type.byte] 156 1
  let buf := write buf (utf8 (utf16 "ustar") ++ [0]) 257 6
  write buf (utf8 (utf16 "00")) 263 2

def sum (buf : Bytes) : Nat :=
  (buf.map UInt8.toNat).sum

def header (name : JsString) (size : Nat) (mtime : ℚ) (type : EntryType) : Bytes :=
  let buf := headerFields name size mtime type
  write buf (octal (sum buf) 7 ++ [0x20]) 148 8

def padding (size : Nat) : Bytes :=
  let rest := size % BLOCK
  if rest = 0 then [] else List.replicate (BLOCK - rest) 0

/-! ## The writer -/

/-- How many bytes a call of `writeSync` writes : some of those it is given. -/
structure Device where
  count : (call given : Nat) → Nat
  progress : ∀ call given, 0 < given → 0 < count call given ∧ count call given ≤ given

structure Stat where
  size : Nat
  mtimeMs : ℚ
  deriving DecidableEq

/-- A file that is read while it may change : what each call reads, and what it is before and
after. -/
structure Source where
  read : (call want : Nat) → Bytes
  within : ∀ call want, (read call want).length ≤ want
  before : Stat
  after : Stat

structure TarFileResult where
  sha256 : JsString
  unchanged : Bool

structure TarWriter where
  out : Bytes
  calls : Nat
  finished : Bool

namespace TarWriter

def new : TarWriter :=
  ⟨[], 0, false⟩

/-- All bytes are written, in as many calls as it takes. -/
def writeAll (device : Device) : (fuel : Nat) → TarWriter → Bytes → TarWriter
  | 0, w, _ => w
  | fuel + 1, w, buf =>
    if buf = [] then w
    else
      let n := device.count w.calls buf.length
      writeAll device fuel { w with out := w.out ++ buf.take n, calls := w.calls + 1 } (buf.drop n)

def write (device : Device) (w : TarWriter) (buf : Bytes) : TarWriter :=
  w.writeAll device buf.length buf

/-- The pax records of an entry ustar cannot hold. -/
def paxRecords (name : JsString) (size : Nat) : Bytes :=
  (if fitsUstarName name then [] else paxRecord (utf16 "path") name) ++
    if USTAR_MAX_SIZE < size then paxRecord (utf16 "size") (shownDigits size) else []

def writePax (device : Device) (digest : Bytes → JsString) (w : TarWriter) (name : JsString)
    (size : Nat) (mtime : ℚ) : TarWriter :=
  let pax := paxRecords name size
  if pax = [] then w
  else
    let named := placeholderName digest (utf16 "PaxHeader/" ++ name)
    ((w.write device (header named pax.length mtime .pax)).write device pax).write device
      (padding pax.length)

def writeHeaders (device : Device) (digest : Bytes → JsString) (w : TarWriter) (name : JsString)
    (size : Nat) (mtime : ℚ) : Except JsString TarWriter :=
  match tarNameProblem name with
  | some problem => .error problem
  | none =>
    let w := w.writePax device digest name size mtime
    let shown := if fitsUstarName name then name else placeholderName digest name
    .ok (w.write device (header shown size mtime .file))

/-- Chunks are read and written until the size is reached or the source ends : the bytes that were. -/
def copy (device : Device) (source : Source) (size : Nat) :
    (fuel call : Nat) → (content : Bytes) → TarWriter → TarWriter × Bytes
  | 0, _, content, w => (w, content)
  | fuel + 1, call, content, w =>
    if size ≤ content.length then (w, content)
    else
      let part := source.read call (min (64 * 1024) (size - content.length))
      if part = [] then (w, content)
      else copy device source size fuel (call + 1) (content ++ part) (w.write device part)

def addFile (device : Device) (digest : Bytes → JsString) (w : TarWriter) (name : JsString)
    (source : Source) (size : Nat) (mtime : ℚ) : Except JsString (TarWriter × TarFileResult) :=
  if w.finished then .error (utf16 "tar already finished")
  else
    match w.writeHeaders device digest name size mtime with
    | .error e => .error e
    | .ok w =>
      let (w, content) := w.copy device source size size 0 []
      let short := content.length < size
      let zeros := List.replicate (size - content.length) 0
      let w := if short then w.write device zeros else w
      let w := w.write device (padding size)
      let moved := source.after.size ≠ size ∨ source.after.mtimeMs ≠ source.before.mtimeMs ∨
        source.before.size ≠ size
      .ok (w, ⟨digest (if short then content ++ zeros else content), !short && !moved⟩)

def addBuffer (device : Device) (digest : Bytes → JsString) (w : TarWriter) (name : JsString)
    (data : Bytes) (mtime : ℚ) : Except JsString TarWriter :=
  if w.finished then .error (utf16 "tar already finished")
  else
    match w.writeHeaders device digest name data.length mtime with
    | .error e => .error e
    | .ok w => .ok ((w.write device data).write device (padding data.length))

def finish (device : Device) (w : TarWriter) : TarWriter :=
  if w.finished then w
  else
    let zeros := List.replicate BLOCK 0
    { (w.write device zeros).write device zeros with finished := true }

end TarWriter

/-- The longest string of the engine. -/
def MAX_STRING_LENGTH : Nat := 2 ^ 29 - 24

/-- The largest whole number all smaller ones are numbers with. -/
def MAX_SAFE_INTEGER : Nat := 2 ^ 53 - 1

structure Name where
  text : JsString
  short : text.length ≤ MAX_STRING_LENGTH

structure Size where
  value : Nat
  safe : value ≤ MAX_SAFE_INTEGER

structure Buffer where
  bytes : Bytes
  safe : bytes.length ≤ MAX_SAFE_INTEGER

/-- An entry that is added : a file that is read, or bytes at hand. -/
inductive Entry
  | file (name : Name) (source : Source) (size : Size) (mtime : ℚ)
  | buffer (name : Name) (data : Buffer) (mtime : ℚ)

def Entry.name : Entry → Name
  | file name _ _ _ => name
  | buffer name _ _ => name

def TarWriter.add (device : Device) (digest : Bytes → JsString) (w : TarWriter) :
    Entry → Except JsString TarWriter
  | .file name source size mtime =>
    (w.addFile device digest name.text source size.value mtime).map Prod.fst
  | .buffer name data mtime => w.addBuffer device digest name.text data.bytes mtime

/-- The entries are added one after the other. -/
def TarWriter.addAll (device : Device) (digest : Bytes → JsString) :
    TarWriter → List Entry → Except JsString TarWriter
  | w, [] => .ok w
  | w, entry :: entries =>
    match w.add device digest entry with
    | .error e => .error e
    | .ok w => addAll device digest w entries

end Lynox.Tar
