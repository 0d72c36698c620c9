import Mathlib.Data.List.Flatten
import Mathlib.Tactic.Ring

/-!
# TLS records and hellos

The bytes of records, of a client hello with its extensions, and of the start of a server's hello.
A message is carried by handshake records that may cut it anywhere (`Carries`).
-/

namespace Lynox.Tls

/-- A number as two bytes, the high one first. -/
def be16 (n : Nat) : List UInt8 :=
  [UInt8.ofNat (n / 256), UInt8.ofNat (n % 256)]

def be24 (n : Nat) : List UInt8 :=
  [UInt8.ofNat (n / 65536), UInt8.ofNat (n / 256 % 256), UInt8.ofNat (n % 256)]

/-- A list of bytes behind its length. -/
structure Vec (width : Nat) where
  content : List UInt8
  short : content.length < 256 ^ width

def Vec.encode8 (v : Vec 1) : List UInt8 :=
  UInt8.ofNat v.content.length :: v.content

def Vec.encode16 (v : Vec 2) : List UInt8 :=
  be16 v.content.length ++ v.content

/-! ## Records -/

structure Record where
  type : UInt8
  version : UInt8 × UInt8
  payload : Vec 2

def Record.encode (r : Record) : List UInt8 :=
  r.type :: r.version.1 :: r.version.2 :: r.payload.encode16

def recordBytes (records : List Record) : List UInt8 :=
  records.flatMap Record.encode

def payloads (records : List Record) : List UInt8 :=
  records.flatMap fun r => r.payload.content

/-- Handshake records with content. -/
def Handshake (records : List Record) : Prop :=
  ∀ r ∈ records, r.type = 22 ∧ r.payload.content ≠ []

instance (records : List Record) : Decidable (Handshake records) :=
  inferInstanceAs (Decidable (∀ r ∈ records, r.type = 22 ∧ r.payload.content ≠ []))

/-- The bytes are handshake records, and the message is all they carry. -/
def Carries (bytes message : List UInt8) : Prop :=
  ∃ records, Handshake records ∧ bytes = recordBytes records ∧ payloads records = message

/-! ## The client hello -/

inductive Extension
  /-- The list of server names, each with its type, and what stands behind the list. -/
  | serverName (names : List (UInt8 × Vec 2)) (behind : List UInt8)
  | other (type : Nat) (data : List UInt8)

namespace Extension

def type : Extension → Nat
  | serverName _ _ => 0
  | other type _ => type

def nameList (names : List (UInt8 × Vec 2)) : List UInt8 :=
  names.flatMap fun name => name.1 :: name.2.encode16

def data : Extension → List UInt8
  | serverName names behind => be16 (nameList names).length ++ nameList names ++ behind
  | other _ data => data

def encode (e : Extension) : List UInt8 :=
  be16 e.type ++ be16 e.data.length ++ e.data

/-- The lengths and the type can be written. -/
def Valid : Extension → Prop
  | serverName names behind =>
    (nameList names).length < 65536 ∧ (serverName names behind).data.length < 65536
  | other type data => type ≠ 0 ∧ type < 65536 ∧ data.length < 65536

/-- The host names of an extension : the server names of type 0. -/
def hostNames : Extension → List (List UInt8)
  | serverName names _ => (names.filter fun name => name.1 = 0).map fun name => name.2.content
  | other _ _ => []

end Extension

/-- The body of a client hello. What stands behind its extensions is kept apart. -/
structure ClientHello where
  start : List UInt8
  session : Vec 1
  ciphers : Vec 2
  compression : Vec 1
  extensions : List Extension
  behind : List UInt8
  start_length : start.length = 34
  valid : ∀ e ∈ extensions, e.Valid
  short : (extensions.flatMap Extension.encode).length < 65536

namespace ClientHello

def encode (h : ClientHello) : List UInt8 :=
  h.start ++ h.session.encode8 ++ h.ciphers.encode16 ++ h.compression.encode8 ++
    be16 (h.extensions.flatMap Extension.encode).length ++
    h.extensions.flatMap Extension.encode ++ h.behind

def hostNames (h : ClientHello) : List (List UInt8) :=
  h.extensions.flatMap Extension.hostNames

/-- The handshake message of a hello. -/
def message (h : ClientHello) : List UInt8 :=
  1 :: be24 h.encode.length ++ h.encode

end ClientHello

/-- The body of a client hello without extensions. -/
structure BareHello where
  start : List UInt8
  session : Vec 1
  ciphers : Vec 2
  compression : Vec 1
  start_length : start.length = 34

def BareHello.encode (h : BareHello) : List UInt8 :=
  h.start ++ h.session.encode8 ++ h.ciphers.encode16 ++ h.compression.encode8

/-- A client hello, with extensions or without. -/
inductive Hello
  | bare (h : BareHello)
  | extended (h : ClientHello)

namespace Hello

def encode : Hello → List UInt8
  | bare h => h.encode
  | extended h => h.encode

def extensions : Hello → List Extension
  | bare _ => []
  | extended h => h.extensions

def hostNames (h : Hello) : List (List UInt8) :=
  h.extensions.flatMap Extension.hostNames

/-- The handshake message of a hello. -/
def message (h : Hello) : List UInt8 :=
  1 :: be24 h.encode.length ++ h.encode

end Hello

/-! ## The server's hello -/

/-- The random of a ServerHello that is really a HelloRetryRequest. -/
def helloRetryRandom : List UInt8 :=
  [0xcf, 0x21, 0xad, 0x74, 0xe5, 0x9a, 0x61, 0x11, 0xbe, 0x1d, 0x8c, 0x02, 0x1e, 0x65, 0xb8, 0x91,
    0xc2, 0xa2, 0x11, 0x16, 0x7a, 0xbb, 0x8c, 0x5e, 0x07, 0x9e, 0x09, 0xe2, 0xc8, 0xa8, 0x33, 0x9c]

/-- The first message of the server is a HelloRetryRequest : its type, three bytes of length and two
of version stand before the random. -/
def StartsRetry (bytes : List UInt8) : Prop :=
  ∃ records tail head more, Handshake records ∧ bytes = recordBytes records ++ tail ∧
    head.length = 5 ∧ payloads records = 2 :: head ++ helloRetryRandom ++ more

section Facts

variable {b₁ b₂ b₃ : UInt8}

theorem be16_bytes (b₁ b₂ : UInt8) : be16 (b₁.toNat * 256 + b₂.toNat) = [b₁, b₂] := by
  have h := b₂.toNat_lt
  rw [be16, show (b₁.toNat * 256 + b₂.toNat) / 256 = b₁.toNat by omega,
    show (b₁.toNat * 256 + b₂.toNat) % 256 = b₂.toNat by omega, UInt8.ofNat_toNat,
    UInt8.ofNat_toNat]

theorem be16_lt (b₁ b₂ : UInt8) : b₁.toNat * 256 + b₂.toNat < 65536 := by
  have h₁ := b₁.toNat_lt
  have h₂ := b₂.toNat_lt
  omega

theorem be24_bytes (b₁ b₂ b₃ : UInt8) :
    be24 (b₁.toNat * 65536 + b₂.toNat * 256 + b₃.toNat) = [b₁, b₂, b₃] := by
  have h₂ := b₂.toNat_lt
  have h₃ := b₃.toNat_lt
  rw [be24, show (b₁.toNat * 65536 + b₂.toNat * 256 + b₃.toNat) / 65536 = b₁.toNat by omega,
    show (b₁.toNat * 65536 + b₂.toNat * 256 + b₃.toNat) / 256 % 256 = b₂.toNat by omega,
    show (b₁.toNat * 65536 + b₂.toNat * 256 + b₃.toNat) % 256 = b₃.toNat by omega,
    UInt8.ofNat_toNat, UInt8.ofNat_toNat, UInt8.ofNat_toNat]

theorem encode8_eq (v : Vec 1) : v.encode8 = [UInt8.ofNat v.content.length] ++ v.content :=
  rfl

theorem recordBytes_cons (r : Record) (records : List Record) :
    recordBytes (r :: records) = r.encode ++ recordBytes records :=
  List.flatMap_cons

theorem payloads_cons (r : Record) (records : List Record) :
    payloads (r :: records) = r.payload.content ++ payloads records :=
  List.flatMap_cons

theorem length_encode (r : Record) : r.encode.length = 5 + r.payload.content.length := by
  simp [Record.encode, Vec.encode16, be16]
  omega

theorem length_recordBytes_cons (r : Record) (records : List Record) :
    (recordBytes (r :: records)).length =
      5 + r.payload.content.length + (recordBytes records).length := by
  rw [recordBytes_cons, List.length_append, length_encode]

theorem length_bare (h : BareHello) : h.encode.length =
    38 + h.session.content.length + h.ciphers.content.length + h.compression.content.length := by
  simp only [BareHello.encode, Vec.encode8, Vec.encode16, be16, List.length_append,
    List.length_cons, List.length_nil, h.start_length]
  omega

theorem length_payloads_le (records : List Record) :
    (payloads records).length ≤ (recordBytes records).length := by
  induction records with
  | nil => exact Nat.le_refl _
  | cons r records ih =>
    rw [length_recordBytes_cons, payloads_cons, List.length_append]
    omega

theorem length_le_recordBytes (records : List Record) :
    records.length ≤ (recordBytes records).length := by
  induction records with
  | nil => exact Nat.zero_le _
  | cons r records ih =>
    rw [length_recordBytes_cons, List.length_cons]
    omega

end Facts

end Lynox.Tls
