import Lynox.Data.Fields
import Lynox.Text.Utf8

/-!
# A ustar and pax reader

What an archive holds by the format : headers of 512 bytes whose checksum is right, each before its
content in whole blocks; a pax header holds the path and the size of the entry behind it; two blocks
of zeros end the archive.
-/

namespace Lynox.Tar

open Fields Text

/-- An entry of an archive. -/
structure TarEntry where
  name : JsString
  size : Nat
  content : Bytes
  deriving DecidableEq

namespace Reader

def block : Nat := 512

/-- The bytes a size takes in whole blocks. -/
def inBlocks (size : Nat) : Nat :=
  (size + (block - 1)) / block * block

/-- Digits of a base at the front, and what stands behind them. -/
def digitsOf (base : Nat) (bytes : Bytes) : List Nat × Bytes :=
  let isDigit (b : UInt8) : Bool := 0x30 ≤ b.toNat && b.toNat < 0x30 + base
  ((bytes.takeWhile isDigit).map fun b => b.toNat - 0x30, bytes.dropWhile isDigit)

/-- An octal field : its digits end with it, a NUL or a space. -/
def octalField (field : Bytes) : Option Nat :=
  match digitsOf 8 field with
  | ([], _) => none
  | (ds, []) => some (value 8 ds)
  | (ds, b :: _) => if b = 0 ∨ b = 0x20 then some (value 8 ds) else none

/-- A text field up to its first NUL. -/
def textField (field : Bytes) : Bytes :=
  field.takeWhile (· ≠ 0)

/-- The sum of a header whose checksum is blank. -/
def checksum (header : Bytes) : Nat :=
  ((put header 148 (List.replicate 8 0x20)).map UInt8.toNat).sum

def isHeader (header : Bytes) : Bool :=
  octalField (slice header 148 8) == some (checksum header) &&
    slice header 257 6 == [0x75, 0x73, 0x74, 0x61, 0x72, 0] && slice header 263 2 == [0x30, 0x30]

def ustarName (header : Bytes) : Bytes :=
  let front := textField (slice header 345 155)
  let name := textField (slice header 0 100)
  if front = [] then name else front ++ 0x2F :: name

/-- What a pax header says of the entry behind it. -/
structure Pax where
  path : Option Bytes
  size : Option Nat

def Pax.empty : Pax :=
  ⟨none, none⟩

/-- One record : its length, a space, a key, an equals sign, a value and a line feed. -/
def paxRecord (bytes : Bytes) : Option ((Bytes × Bytes) × Bytes) :=
  match digitsOf 10 bytes with
  | (d :: ds, 0x20 :: rest) =>
    let start := ds.length + 2
    let len := value 10 (d :: ds)
    let body := rest.take (len - start)
    if len ≤ start ∨ bytes.length < len ∨ body.getLast? ≠ some 0x0A then none
    else
      match body.dropLast.span (· ≠ 0x3D) with
      | (key, _ :: val) => some ((key, val), rest.drop (len - start))
      | _ => none
  | _ => none

def decimal (bytes : Bytes) : Option Nat :=
  match digitsOf 10 bytes with
  | (d :: ds, []) => some (value 10 (d :: ds))
  | _ => none

/-- Records of other keys are passed over. -/
def Pax.set (pax : Pax) (key val : Bytes) : Option Pax :=
  if key = utf8 (utf16 "path") then some { pax with path := some val }
  else if key = utf8 (utf16 "size") then (decimal val).map fun n => { pax with size := some n }
  else some pax

def readPax : (fuel : Nat) → Bytes → Pax → Option Pax
  | _, [], pax => some pax
  | 0, _ :: _, _ => none
  | fuel + 1, bytes, pax =>
    match paxRecord bytes with
    | none => none
    | some ((key, val), rest) => (pax.set key val).bind (readPax fuel rest)

/-- The entries from a header on. -/
def readEntries : (fuel : Nat) → Bytes → Pax → Option (List TarEntry)
  | 0, _, _ => none
  | fuel + 1, bytes, pax =>
    let header := slice bytes 0 block
    if header = List.replicate block 0 then
      if slice bytes block block = List.replicate block 0 then some [] else none
    else if header.length < block ∨ !isHeader header then none
    else
      match octalField (slice header 124 12), slice header 156 1 with
      | some size, [0x78] =>
        let records := slice bytes block size
        if records.length < size then none
        else
          (readPax size records Pax.empty).bind fun pax =>
            readEntries fuel (bytes.drop (block + inBlocks size)) pax
      | some size, [0x30] =>
        let size := pax.size.getD size
        let content := slice bytes block size
        if content.length < size then none
        else
          (readEntries fuel (bytes.drop (block + inBlocks size)) Pax.empty).map fun entries =>
            ⟨decode (pax.path.getD (ustarName header)), size, content⟩ :: entries
      | _, _ => none

end Reader

/-- The entries of an archive. -/
def readArchive (bytes : Bytes) : Option (List TarEntry) :=
  Reader.readEntries bytes.length bytes Reader.Pax.empty

end Lynox.Tar
