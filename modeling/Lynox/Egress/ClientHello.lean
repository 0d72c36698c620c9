import Lynox.Data.Throws
import Lynox.Egress.Policy
import Lynox.Tls.Hello

/-!
# The server name of a TLS client hello

`parseClientHello` puts the hello together from its handshake records and reads the server name out
of its extensions; `isHelloRetryRequest` looks at the start of the server's handshake. Both say
`more` while bytes are missing.
-/

namespace Lynox.Egress

open Text Throws

/-- A client hello spread over several records is read up to this size. -/
def MAX_HELLO_BYTES : Nat := 64 * 1024

inductive HelloResult
  | more
  | hello (sni : Option JsString) (bytes : Nat)
  | bad (error : String)
  deriving DecidableEq

/-- Why no hello could be read yet, or at all. -/
inductive Unread
  | more
  | bad (error : String)
  deriving DecidableEq

def Unread.result : Unread → HelloResult
  | .more => .more
  | .bad error => .bad error

/-- The extensions that carry an encrypted inner hello. -/
def ENCRYPTED_HELLO_EXTENSIONS : List Nat :=
  [0xfe0d, 0xffce]

/-! ## Records -/

/-- The type and the length of the record in front, and what is behind its head. -/
def recordHead : Bytes → Option (UInt8 × Nat × Bytes)
  | type :: _ :: _ :: l₁ :: l₂ :: body => some (type, l₁.toNat * 256 + l₂.toNat, body)
  | _ => none

/-- What a client may send between its two hellos : one change_cipher_spec record and early data. -/
def skipBeforeSecond : Nat → (off : Nat) → Bytes → (ccs : Nat) → Except Unread (Nat × Bytes)
  | 0, _, _, _ => .error .more
  | n + 1, off, buf, ccs =>
    if buf.head? ≠ some 20 ∧ buf.head? ≠ some 23 then .ok (off, buf)
    else
      match recordHead buf with
      | none => .error .more
      | some (type, len, body) =>
        if len = 0 ∨ 16384 + 256 < len then .error (.bad "bad record length")
        else if MAX_HELLO_BYTES < off + 5 + len then .error (.bad "hello too large")
        else if body.length < len then .error .more
        else if type = 20 ∧ (len ≠ 1 ∨ body.head? ≠ some 1 ∨ 1 < ccs + 1) then
          .error (.bad "bad change_cipher_spec")
        else
          skipBeforeSecond n (off + 5 + len) (body.drop len) (if type = 20 then ccs + 1 else ccs)

/-- The length of the message whose first bytes are `hs`. -/
def messageLength (hs : Bytes) : Except Unread (Option Nat) :=
  match hs with
  | type :: l₁ :: l₂ :: l₃ :: _ =>
    if type ≠ 1 then .error (.bad "not a client hello")
    else
      let need := 4 + (l₁.toNat * 65536 + l₂.toNat * 256 + l₃.toNat)
      if MAX_HELLO_BYTES < need then .error (.bad "hello too large") else .ok (some need)
  | _ => .ok none

/-- The records that carry a message : how far they go, their content and the message's length. -/
def readRecords : Nat → (off : Nat) → Bytes → (hs : Bytes) → (need : Option Nat) →
    Except Unread (Nat × Bytes × Nat)
  | 0, _, _, _, _ => .error .more
  | n + 1, off, buf, hs, need =>
    match need.filter (· ≤ hs.length) with
    | some m => .ok (off, hs, m)
    | none =>
      match recordHead buf with
      | none => .error (if MAX_HELLO_BYTES ≤ off + buf.length then .bad "hello too large" else .more)
      | some (type, len, body) =>
        if type ≠ 22 then .error (.bad "not a TLS handshake")
        else if len = 0 ∨ 16384 + 2048 < len then .error (.bad "bad record length")
        else if body.length < len then
          .error (if MAX_HELLO_BYTES < off + 5 + len then .bad "hello too large" else .more)
        else do
          let hs := hs ++ body.take len
          let need ← if need.isSome then .ok need else messageLength hs
          readRecords n (off + 5 + len) (body.drop len) hs need

/-! ## The hello -/

/-- A byte of the hello; reading past its end is an error. -/
def readUInt8 (h : Bytes) (p : Nat) : Except String Nat :=
  match h.drop p with
  | b :: _ => .ok b.toNat
  | [] => .error "truncated hello"

def readUInt16BE (h : Bytes) (p : Nat) : Except String Nat :=
  match h.drop p with
  | b₁ :: b₂ :: _ => .ok (b₁.toNat * 256 + b₂.toNat)
  | _ => .error "truncated hello"

/-- The names of a server_name list that ends at `listEnd`, after those read before. -/
def readNames (h : Bytes) (listEnd : Nat) : Nat → (q : Nat) → (sni : Option JsString) →
    Except String (Option JsString)
  | 0, _, _ => .error "truncated hello"
  | n + 1, q, sni =>
    if listEnd ≤ q then .ok sni
    else do
      let nameType ← readUInt8 h q
      let nameLen ← readUInt16BE h (q + 1)
      if listEnd < q + 3 + nameLen then .error "bad server_name entry"
      else if nameType = 0 then
        if sni.isSome then .error "two host names"
        else
          readNames h listEnd n (q + 3 + nameLen)
            (some (toLowerCase (latin1 ((h.drop (q + 3)).take nameLen))))
      else readNames h listEnd n (q + 3 + nameLen) sni

/-- The extensions that end at `extEnd`, after those read before. -/
def readExtensions (h : Bytes) (extEnd : Nat) : Nat → (p : Nat) → (sni : Option JsString) →
    Except String (Option JsString)
  | 0, _, _ => .error "truncated hello"
  | n + 1, p, sni =>
    if extEnd ≤ p then .ok sni
    else do
      let type ← readUInt16BE h p
      let len ← readUInt16BE h (p + 2)
      if extEnd < p + 4 + len then .error "truncated extension"
      else if type ∈ ENCRYPTED_HELLO_EXTENSIONS then .error "encrypted client hello"
      else if type = 0 then do
        let listLen ← readUInt16BE h (p + 4)
        if p + 4 + len < p + 6 + listLen then .error "bad server_name list"
        else
          let sni ← readNames h (p + 6 + listLen) (listLen + 1) (p + 6) sni
          readExtensions h extEnd n (p + 4 + len) sni
      else readExtensions h extEnd n (p + 4 + len) sni

/-- The server name of the body of a client hello. -/
def readSni (h : Bytes) : Except String (Option JsString) := do
  let p := 2 + 32
  let session ← readUInt8 h p
  let p := p + 1 + session
  let ciphers ← readUInt16BE h p
  let p := p + 2 + ciphers
  let compression ← readUInt8 h p
  let p := p + 1 + compression
  if h.length < p then .error "truncated hello"
  else if p = h.length then .ok none
  else
    let extensions ← readUInt16BE h p
    let extEnd := p + 2 + extensions
    if h.length < extEnd then .error "truncated extensions"
    else readExtensions h extEnd (h.length + 1) (p + 2) none

/-- Where the records of the hello begin. -/
def helloStart (buf : Bytes) (afterRetry : Bool) : Except Unread (Nat × Bytes) :=
  if afterRetry then skipBeforeSecond (buf.length + 1) 0 buf 0 else .ok (0, buf)

/-- The server name of the client hello at the start of `buf`, and where its records end. -/
def parseClientHello (buf : Bytes) (afterRetry : Bool) : HelloResult :=
  match helloStart buf afterRetry with
  | .error stop => stop.result
  | .ok (off, behind) =>
    match readRecords (behind.length + 1) off behind [] none with
    | .error stop => stop.result
    | .ok (off, hs, need) =>
      if need < hs.length then .bad "more than one handshake message"
      else
        match readSni ((hs.take need).drop 4) with
        | .error e => .bad e
        | .ok sni => .hello sni off

/-! ## The server's answer -/

/-- The random of a ServerHello that is really a HelloRetryRequest. -/
def HELLO_RETRY_RANDOM : Bytes :=
  [0xcf, 0x21, 0xad, 0x74, 0xe5, 0x9a, 0x61, 0x11, 0xbe, 0x1d, 0x8c, 0x02, 0x1e, 0x65, 0xb8, 0x91,
    0xc2, 0xa2, 0x11, 0x16, 0x7a, 0xbb, 0x8c, 0x5e, 0x07, 0x9e, 0x09, 0xe2, 0xc8, 0xa8, 0x33, 0x9c]

inductive RetryResult
  | yes
  | no
  | more
  deriving DecidableEq

/-- The start of the server's handshake, put together across records. -/
def readServerStart : Nat → Bytes → (hs : Bytes) → Except RetryResult Bytes
  | 0, _, _ => .error .more
  | n + 1, buf, hs =>
    if 38 ≤ hs.length then .ok hs
    else
      match recordHead buf with
      | none => .error .more
      | some (type, len, body) =>
        if type ≠ 22 ∨ len = 0 then .error .no
        else if body.length < len then .error .more
        else readServerStart n (body.drop len) (hs ++ body.take len)

def isHelloRetryRequest (buf : Bytes) : RetryResult :=
  match readServerStart (buf.length + 1) buf [] with
  | .error r => r
  | .ok h => if h.head? = some 2 ∧ (h.take 38).drop 6 = HELLO_RETRY_RANDOM then .yes else .no

/-! ## What is read is a hello -/

section Read

variable {buf rest hs body x y : Bytes} {type : UInt8} {n off off' len m : Nat}
  {need : Option Nat}

/-- What stands in front of the rest is one record. -/
theorem recordHead_eq_some (h : recordHead buf = some (type, len, body)) (hlen : len ≤ body.length) :
    ∃ r : Tls.Record, r.type = type ∧ r.payload.content = body.take len ∧
      buf = r.encode ++ body.drop len := by
  match buf, h with
  | _ :: v₁ :: v₂ :: l₁ :: l₂ :: _, rfl =>
    have hlength : (body.take (l₁.toNat * 256 + l₂.toNat)).length =
        l₁.toNat * 256 + l₂.toNat := List.length_take_of_le hlen
    refine ⟨⟨type, (v₁, v₂), ⟨body.take (l₁.toNat * 256 + l₂.toNat), ?_⟩⟩, rfl, rfl, ?_⟩
    · rw [hlength]
      exact Tls.be16_lt l₁ l₂
    · simp [Tls.Record.encode, Tls.Vec.encode16, hlength, Tls.be16_bytes]

theorem recordHead_append (h : recordHead buf = some (type, len, body)) (x : Bytes) :
    recordHead (buf ++ x) = some (type, len, body ++ x) := by
  match buf, h with
  | _ :: _ :: _ :: _ :: _ :: _, rfl => rfl

theorem recordHead_encode (r : Tls.Record) (rest : Bytes) :
    recordHead (r.encode ++ rest) =
      some (r.type, r.payload.content.length, r.payload.content ++ rest) := by
  have h := r.payload.short
  have hlen : (UInt8.ofNat (r.payload.content.length / 256)).toNat * 256 +
      (UInt8.ofNat (r.payload.content.length % 256)).toNat = r.payload.content.length := by
    rw [UInt8.toNat_ofNat', UInt8.toNat_ofNat']
    omega
  simp only [Tls.Record.encode, Tls.Vec.encode16, Tls.be16, List.cons_append, List.nil_append,
    recordHead, hlen]

/-- The head of bytes that begin with a record is the record's. -/
theorem recordHead_split {r : Tls.Record} (h : recordHead buf = some (type, len, body))
    (hx : buf ++ x = r.encode ++ y) :
    type = r.type ∧ len = r.payload.content.length ∧ body ++ x = r.payload.content ++ y := by
  have h₁ := recordHead_append h x
  rw [hx, recordHead_encode] at h₁
  obtain ⟨h₂, h₃⟩ := Prod.mk.inj (Option.some.inj h₁)
  obtain ⟨h₃, h₄⟩ := Prod.mk.inj h₃
  exact ⟨h₂.symm, h₃.symm, h₄.symm⟩

theorem messageLength_append (h : messageLength x = .ok (some m)) (y : Bytes) :
    messageLength (x ++ y) = .ok (some m) := by
  match x, h with
  | type :: l₁ :: l₂ :: l₃ :: x, h => exact h

/-- The message begins as a client hello of its length does. -/
theorem messageLength_eq_ok (h : messageLength hs = .ok (some m)) :
    m ≤ MAX_HELLO_BYTES ∧ 4 ≤ m ∧ hs.take 4 = 1 :: Tls.be24 (m - 4) := by
  match hs, h with
  | type :: l₁ :: l₂ :: l₃ :: hs, h =>
    simp only [messageLength] at h
    split at h
    · cases h
    · next htype =>
      split at h
      · cases h
      · next hsmall =>
        cases h
        refine ⟨Nat.not_lt.1 hsmall, Nat.le_add_right _ _, ?_⟩
        rw [Nat.add_sub_cancel_left, Tls.be24_bytes, not_not.1 htype]
        rfl

/-- What was read are handshake records, with all of the message in them. -/
theorem readRecords_eq_ok : ∀ {n off : Nat} {buf hs : Bytes} {need : Option Nat},
    (∀ k, need = some k → messageLength hs = .ok (some k)) →
      readRecords n off buf hs need = .ok (off', body, m) →
        ∃ records rest, Tls.Handshake records ∧ buf = Tls.recordBytes records ++ rest ∧
          off' = off + (Tls.recordBytes records).length ∧ body = hs ++ Tls.payloads records ∧
          m ≤ body.length ∧ messageLength body = .ok (some m)
  | 0, _, _, _, _, _, h => by cases h
  | n + 1, off, buf, hs, need, hneed, h => by
    unfold readRecords at h
    split at h
    · next k hfilter =>
      obtain ⟨hk, hle⟩ := Option.filter_eq_some_iff.1 hfilter
      cases h
      exact ⟨[], buf, by simp [Tls.Handshake], by simp [Tls.recordBytes], by simp [Tls.recordBytes],
        by simp [Tls.payloads], of_decide_eq_true hle, hneed m hk⟩
    · split at h
      · cases h
      · next type len rest hhead =>
        split at h
        · cases h
        · next htype =>
          split at h
          · cases h
          · next hlen =>
            split at h
            · cases h
            · next hshort =>
              obtain ⟨r, hr, hcontent, hbuf⟩ := recordHead_eq_some hhead (Nat.not_lt.1 hshort)
              have hlength : r.encode.length = 5 + len := by
                rw [Tls.length_encode, hcontent, List.length_take_of_le (Nat.not_lt.1 hshort)]
              have hnext : ∃ need', readRecords n (off + 5 + len) (rest.drop len)
                  (hs ++ rest.take len) need' = .ok (off', body, m) ∧
                  ∀ k, need' = some k → messageLength (hs ++ rest.take len) = .ok (some k) := by
                cases need with
                | some k =>
                  refine ⟨some k, h, fun k' hk' => ?_⟩
                  cases hk'
                  exact messageLength_append (hneed k rfl) _
                | none =>
                  simp only [Option.isSome_none, Bool.false_eq_true, if_false] at h
                  cases hm : messageLength (hs ++ rest.take len) with
                  | error e =>
                    rw [hm] at h
                    cases h
                  | ok need' =>
                    rw [hm] at h
                    exact ⟨need', h, fun k hk => by rw [hk]⟩
              obtain ⟨need', hnext, hneed'⟩ := hnext
              obtain ⟨records, tail, hrecords, htail, hoff, hbody, hm, hmessage⟩ :=
                readRecords_eq_ok hneed' hnext
              refine ⟨r :: records, tail, ?_, ?_, ?_, ?_, hm, hmessage⟩
              · intro r' hr'
                rcases List.mem_cons.1 hr' with rfl | hr'
                · refine ⟨hr.trans (not_not.1 htype), fun hnil => ?_⟩
                  have hzero := congrArg List.length hnil
                  rw [hcontent, List.length_take_of_le (Nat.not_lt.1 hshort)] at hzero
                  exact hlen (.inl hzero)
                · exact hrecords r' hr'
              · rw [hbuf, htail, Tls.recordBytes_cons, List.append_assoc]
              · rw [hoff, Tls.recordBytes_cons, List.length_append, hlength]
                omega
              · rw [hbody, Tls.payloads_cons, hcontent, List.append_assoc]

end Read

/-! ## The server name -/

section Sni

variable {h : Bytes} {a b c p k listEnd extEnd : Nat} {sni sni' : Option JsString}

/-- The bytes from `a` to `b`. -/
def subarray (h : Bytes) (a b : Nat) : Bytes :=
  (h.drop a).take (b - a)

theorem length_subarray (hb : b ≤ h.length) : (subarray h a b).length = b - a := by
  rw [subarray, List.length_take, List.length_drop]
  omega

theorem subarray_append (hab : a ≤ b) (hbc : b ≤ c) :
    subarray h a b ++ subarray h b c = subarray h a c := by
  obtain ⟨d, rfl⟩ := Nat.exists_eq_add_of_le hab
  obtain ⟨e, rfl⟩ := Nat.exists_eq_add_of_le hbc
  rw [subarray, subarray, subarray, Nat.add_sub_cancel_left, Nat.add_sub_cancel_left,
    show a + d + e - a = d + e by omega, List.take_add, List.drop_drop]

theorem subarray_self (h : Bytes) (a : Nat) : subarray h a a = [] := by
  simp [subarray]

theorem readUInt8_eq_ok (hr : readUInt8 h p = .ok k) :
    p + 1 ≤ h.length ∧ k < 256 ∧ subarray h p (p + 1) = [UInt8.ofNat k] := by
  unfold readUInt8 at hr
  split at hr
  · next x rest hdrop =>
    cases hr
    have hlength := congrArg List.length hdrop
    rw [List.length_drop, List.length_cons] at hlength
    refine ⟨by omega, x.toNat_lt, ?_⟩
    rw [subarray, hdrop, Nat.add_sub_cancel_left, UInt8.ofNat_toNat]
    rfl
  · cases hr

theorem readUInt16BE_eq_ok (hr : readUInt16BE h p = .ok k) :
    p + 2 ≤ h.length ∧ k < 65536 ∧ subarray h p (p + 2) = Tls.be16 k := by
  unfold readUInt16BE at hr
  split at hr
  · next x y rest hdrop =>
    cases hr
    have hlength := congrArg List.length hdrop
    rw [List.length_drop, List.length_cons, List.length_cons] at hlength
    refine ⟨by omega, Tls.be16_lt x y, ?_⟩
    rw [subarray, hdrop, Nat.add_sub_cancel_left, Tls.be16_bytes]
    rfl
  · cases hr

/-- A name as it is compared. -/
def serverName (name : Bytes) : JsString :=
  toLowerCase (latin1 name)

/-- The names that were read are those of the list. -/
theorem readNames_eq_ok : ∀ {n q : Nat} {sni : Option JsString}, q ≤ listEnd → listEnd ≤ h.length →
    readNames h listEnd n q sni = .ok sni' →
      ∃ names : List (UInt8 × Tls.Vec 2),
        subarray h q listEnd = Tls.Extension.nameList names ∧
          sni'.toList = sni.toList ++
            ((names.filter fun name => name.1 = 0).map fun name => serverName name.2.content)
  | 0, _, _, _, _, hr => by cases hr
  | n + 1, q, sni, hq, hend, hr => by
    unfold readNames at hr
    split at hr
    · next hdone =>
      cases hr
      obtain rfl := Nat.le_antisymm hq hdone
      exact ⟨[], subarray_self h _, by simp⟩
    · obtain ⟨nameType, htype, hr⟩ := ok_of_bind hr
      obtain ⟨nameLen, hlen, hr⟩ := ok_of_bind hr
      obtain ⟨_, htypeLt, htypeBytes⟩ := readUInt8_eq_ok htype
      obtain ⟨_, hlenLt, hlenBytes⟩ := readUInt16BE_eq_ok hlen
      split at hr
      · cases hr
      · next hfits =>
        have hfits' : q + 3 + nameLen ≤ listEnd := Nat.not_lt.1 hfits
        have hname : (subarray h (q + 3) (q + 3 + nameLen)).length = nameLen := by
          rw [length_subarray (hfits'.trans hend), Nat.add_sub_cancel_left]
        have hslice : (h.drop (q + 3)).take nameLen = subarray h (q + 3) (q + 3 + nameLen) := by
          rw [subarray, Nat.add_sub_cancel_left]
        have hshort : (subarray h (q + 3) (q + 3 + nameLen)).length < 256 ^ 2 := by
          rw [hname]
          exact hlenLt
        have hentry : ∀ names : List (UInt8 × Tls.Vec 2),
            subarray h (q + 3 + nameLen) listEnd = Tls.Extension.nameList names →
              subarray h q listEnd = Tls.Extension.nameList
                ((UInt8.ofNat nameType, ⟨subarray h (q + 3) (q + 3 + nameLen), hshort⟩) :: names) := by
          intro names hnames
          rw [Tls.Extension.nameList, List.flatMap_cons, ← Tls.Extension.nameList, ← hnames,
            Tls.Vec.encode16, hname, ← hlenBytes, ← List.singleton_append, ← htypeBytes,
            ← List.append_assoc, subarray_append (by omega) (by omega),
            subarray_append (by omega) (by omega), subarray_append (by omega) (by omega)]
        split at hr
        · next hzero =>
          split at hr
          · cases hr
          · next hnone =>
            obtain ⟨names, hnames, hsni⟩ := readNames_eq_ok hfits' hend hr
            refine ⟨_, hentry names hnames, ?_⟩
            rw [hsni, Option.not_isSome_iff_eq_none.1 hnone, hslice, hzero]
            rfl
        · next hother =>
          obtain ⟨names, hnames, hsni⟩ := readNames_eq_ok hfits' hend hr
          refine ⟨_, hentry names hnames, ?_⟩
          have hne : UInt8.ofNat nameType ≠ 0 := by
            intro heq
            have hnat := congrArg UInt8.toNat heq
            rw [UInt8.toNat_ofNat', Nat.mod_eq_of_lt htypeLt] at hnat
            exact hother hnat
          rw [hsni, List.filter_cons_of_neg (by simpa using hne)]

/-- The extensions that were read, none of them with an encrypted hello. -/
theorem readExtensions_eq_ok : ∀ {n p : Nat} {sni : Option JsString}, p ≤ extEnd →
    extEnd ≤ h.length → readExtensions h extEnd n p sni = .ok sni' →
      ∃ exts : List Tls.Extension,
        subarray h p extEnd = exts.flatMap Tls.Extension.encode ∧
          (∀ e ∈ exts, e.Valid ∧ e.type ∉ ENCRYPTED_HELLO_EXTENSIONS) ∧
            sni'.toList = sni.toList ++ (exts.flatMap Tls.Extension.hostNames).map serverName
  | 0, _, _, _, _, hr => by cases hr
  | n + 1, p, sni, hp, hend, hr => by
    unfold readExtensions at hr
    split at hr
    · next hdone =>
      cases hr
      obtain rfl := Nat.le_antisymm hp hdone
      exact ⟨[], subarray_self h _, by simp, by simp⟩
    · obtain ⟨type, htype, hr⟩ := ok_of_bind hr
      obtain ⟨len, hlen, hr⟩ := ok_of_bind hr
      obtain ⟨_, htypeLt, htypeBytes⟩ := readUInt16BE_eq_ok htype
      obtain ⟨_, hlenLt, hlenBytes⟩ := readUInt16BE_eq_ok hlen
      split at hr
      · cases hr
      · next hfits =>
        have hfits' : p + 4 + len ≤ extEnd := Nat.not_lt.1 hfits
        have hdata : (subarray h (p + 4) (p + 4 + len)).length = len := by
          rw [length_subarray (hfits'.trans hend), Nat.add_sub_cancel_left]
        -- an extension with the type and the data that were read, and those behind it
        have hcons : ∀ (e : Tls.Extension) (exts : List Tls.Extension), e.type = type →
            e.data = subarray h (p + 4) (p + 4 + len) →
            subarray h (p + 4 + len) extEnd = exts.flatMap Tls.Extension.encode →
              subarray h p extEnd = (e :: exts).flatMap Tls.Extension.encode := by
          intro e exts he hdata' hexts
          rw [List.flatMap_cons, ← hexts, Tls.Extension.encode, he, hdata', hdata, ← htypeBytes,
            ← hlenBytes, subarray_append (by omega) (by omega),
            subarray_append (by omega) (by omega), subarray_append (by omega) (by omega)]
        split at hr
        · cases hr
        · next hplain =>
          split at hr
          · next hzero =>
            obtain ⟨listLen, hlist, hr⟩ := ok_of_bind hr
            obtain ⟨_, hlistLt, hlistBytes⟩ := readUInt16BE_eq_ok hlist
            split at hr
            · cases hr
            · next hinside =>
              have hinside' : p + 6 + listLen ≤ p + 4 + len := Nat.not_lt.1 hinside
              obtain ⟨sni₁, hnames, hr⟩ := ok_of_bind hr
              obtain ⟨names, hnamesBytes, hsni₁⟩ :=
                readNames_eq_ok (Nat.le_add_right _ _) (by omega) hnames
              obtain ⟨exts, hexts, hvalid, hsni⟩ := readExtensions_eq_ok hfits' hend hr
              have hlistLength : (Tls.Extension.nameList names).length = listLen := by
                rw [← hnamesBytes, length_subarray (by omega), Nat.add_sub_cancel_left]
              have hall : (Tls.Extension.serverName names
                  (subarray h (p + 6 + listLen) (p + 4 + len))).data =
                  subarray h (p + 4) (p + 4 + len) := by
                rw [Tls.Extension.data, hlistLength, ← hnamesBytes, ← hlistBytes,
                  subarray_append (by omega) (by omega), subarray_append (by omega) (by omega)]
              refine ⟨.serverName names (subarray h (p + 6 + listLen) (p + 4 + len)) :: exts,
                hcons _ _ hzero.symm hall hexts, ?_, ?_⟩
              · intro e he
                rcases List.mem_cons.1 he with rfl | he
                · refine ⟨⟨hlistLength ▸ hlistLt, ?_⟩, (by decide : 0 ∉ ENCRYPTED_HELLO_EXTENSIONS)⟩
                  rw [hall, hdata]
                  exact hlenLt
                · exact hvalid e he
              · rw [hsni, hsni₁, List.flatMap_cons, List.map_append, ← List.append_assoc]
                congr 2
                rw [Tls.Extension.hostNames, List.map_map]
                rfl
          · next hother =>
            obtain ⟨exts, hexts, hvalid, hsni⟩ := readExtensions_eq_ok hfits' hend hr
            refine ⟨.other type (subarray h (p + 4) (p + 4 + len)) :: exts,
              hcons _ _ rfl rfl hexts, ?_, ?_⟩
            · intro e he
              rcases List.mem_cons.1 he with rfl | he
              · exact ⟨⟨hother, htypeLt, hdata.symm ▸ hlenLt⟩, hplain⟩
              · exact hvalid e he
            · rw [hsni, List.flatMap_cons]
              rfl

/-- A hello without an encrypted one, whose host names are the one that was read. -/
def NamesOnly (hello : Tls.ClientHello) (host : JsString) : Prop :=
  (∀ e ∈ hello.extensions, e.type ∉ ENCRYPTED_HELLO_EXTENSIONS) ∧
    hello.hostNames.map serverName = [host]

theorem readSni_eq_ok {host : JsString} (hr : readSni h = .ok (some host)) :
    ∃ hello : Tls.ClientHello, hello.encode = h ∧ NamesOnly hello host := by
  unfold readSni at hr
  obtain ⟨session, hsession, hr⟩ := ok_of_bind hr
  obtain ⟨ciphers, hciphers, hr⟩ := ok_of_bind hr
  obtain ⟨compression, hcompression, hr⟩ := ok_of_bind hr
  obtain ⟨_, hsessionLt, hsessionBytes⟩ := readUInt8_eq_ok hsession
  obtain ⟨_, hciphersLt, hciphersBytes⟩ := readUInt16BE_eq_ok hciphers
  obtain ⟨_, hcompressionLt, hcompressionBytes⟩ := readUInt8_eq_ok hcompression
  dsimp only at *
  split at hr
  · cases hr
  · split at hr
    · cases hr
    · obtain ⟨extensions, hextensions, hr⟩ := ok_of_bind hr
      obtain ⟨_, hextensionsLt, hextensionsBytes⟩ := readUInt16BE_eq_ok hextensions
      split at hr
      · cases hr
      · next hfits =>
        have hfits' := Nat.not_lt.1 hfits
        obtain ⟨exts, hexts, hvalid, hsni⟩ := readExtensions_eq_ok (Nat.le_add_right _ _) hfits' hr
        have hlen₁ : (subarray h 35 (35 + session)).length = session := by
          rw [length_subarray (by omega), Nat.add_sub_cancel_left]
        have hlen₂ : (subarray h (37 + session) (37 + session + ciphers)).length = ciphers := by
          rw [length_subarray (by omega), Nat.add_sub_cancel_left]
        have hlen₃ : (subarray h (38 + session + ciphers)
            (38 + session + ciphers + compression)).length = compression := by
          rw [length_subarray (by omega), Nat.add_sub_cancel_left]
        have hlen₄ : (exts.flatMap Tls.Extension.encode).length = extensions := by
          rw [← hexts, length_subarray hfits', Nat.add_sub_cancel_left]
        refine ⟨⟨subarray h 0 34, ⟨subarray h 35 (35 + session), hlen₁.symm ▸ hsessionLt⟩,
          ⟨subarray h (37 + session) (37 + session + ciphers), hlen₂.symm ▸ hciphersLt⟩,
          ⟨subarray h (38 + session + ciphers) (38 + session + ciphers + compression),
            hlen₃.symm ▸ hcompressionLt⟩, exts, h.drop (40 + session + ciphers + compression +
            extensions), length_subarray (by omega), fun e he => (hvalid e he).1,
            hlen₄.symm ▸ hextensionsLt⟩, ?_, fun e he => (hvalid e he).2, ?_⟩
        · have h₁ : [UInt8.ofNat session] = subarray h 34 35 := hsessionBytes.symm
          have h₂ : Tls.be16 ciphers = subarray h (35 + session) (37 + session) := by
            rw [show 37 + session = 35 + session + 2 by omega]
            exact hciphersBytes.symm
          have h₃ : [UInt8.ofNat compression] =
              subarray h (37 + session + ciphers) (38 + session + ciphers) := by
            rw [show 38 + session + ciphers = 37 + session + ciphers + 1 by omega,
              show 37 + session + ciphers = 35 + session + 2 + ciphers by omega]
            exact hcompressionBytes.symm
          have h₄ : Tls.be16 extensions = subarray h (38 + session + ciphers + compression)
              (40 + session + ciphers + compression) := by
            rw [show 40 + session + ciphers + compression =
                38 + session + ciphers + compression + 2 by omega,
              show 38 + session + ciphers + compression =
                35 + session + 2 + ciphers + 1 + compression by omega]
            exact hextensionsBytes.symm
          have h₅ : exts.flatMap Tls.Extension.encode =
              subarray h (40 + session + ciphers + compression)
                (40 + session + ciphers + compression + extensions) := by
            rw [← hexts]
            congr 1 <;> omega
          have h₆ : h.drop (40 + session + ciphers + compression + extensions) =
              subarray h (40 + session + ciphers + compression + extensions) h.length := by
            rw [subarray, ← List.length_drop, List.take_length]
          have h₀ : subarray h 0 h.length = h := by
            rw [subarray, Nat.sub_zero, List.drop_zero, List.take_length]
          simp only [Tls.ClientHello.encode, Tls.encode8_eq, Tls.Vec.encode16]
          rw [hlen₁, hlen₂, hlen₃, hlen₄, h₁, h₂, h₃, h₄, h₅, h₆]
          simp only [← List.append_assoc]
          rw [subarray_append (by omega) (by omega), subarray_append (by omega) (by omega),
            subarray_append (by omega) (by omega), subarray_append (by omega) (by omega),
            subarray_append (by omega) (by omega), subarray_append (by omega) (by omega),
            subarray_append (by omega) (by omega), subarray_append (by omega) (by omega),
            subarray_append (by omega) (by omega), h₀]
        · rw [Tls.ClientHello.hostNames]
          simpa using hsni.symm

end Sni

/-! ## What is passed on -/

/-- The bytes are the records of one client hello that names the host and nothing else. -/
def IsHello (host : JsString) (bytes : Bytes) : Prop :=
  ∃ hello : Tls.ClientHello, hello.encode.length < 2 ^ 24 ∧ Tls.Carries bytes hello.message ∧
    NamesOnly hello host

/-- Early data, and at most one change_cipher_spec among it. -/
def Skippable (bytes : Bytes) : Prop :=
  ∃ records : List Tls.Record, bytes = Tls.recordBytes records ∧
    (∀ r ∈ records, r.type = 23 ∨ r.type = 20 ∧ r.payload.content = [1]) ∧
      records.countP (fun r => r.type = 20) ≤ 1

section Passed

variable {buf rest hs body x s : Bytes} {n off off' m ccs k : Nat} {host : JsString}

theorem skipBeforeSecond_eq_ok : ∀ {n off : Nat} {buf : Bytes} {ccs : Nat}, ccs ≤ 1 →
    skipBeforeSecond n off buf ccs = .ok (off', rest) →
      ∃ records : List Tls.Record, buf = Tls.recordBytes records ++ rest ∧
        off' = off + (Tls.recordBytes records).length ∧
          (∀ r ∈ records, r.type = 23 ∨ r.type = 20 ∧ r.payload.content = [1]) ∧
            ccs + records.countP (fun r => r.type = 20) ≤ 1
  | 0, _, _, _, _, h => by cases h
  | n + 1, off, buf, ccs, hccs, h => by
    unfold skipBeforeSecond at h
    split at h
    · cases h
      exact ⟨[], by simp [Tls.recordBytes], by simp [Tls.recordBytes], by simp, by simpa using hccs⟩
    · next hkind =>
      split at h
      · cases h
      · next type len tail hhead =>
        split at h
        · cases h
        · split at h
          · cases h
          · split at h
            · cases h
            · next hshort =>
              split at h
              · cases h
              · next hspec =>
                obtain ⟨r, hr, hcontent, hbuf⟩ := recordHead_eq_some hhead (Nat.not_lt.1 hshort)
                have hlength : r.encode.length = 5 + len := by
                  rw [Tls.length_encode, hcontent, List.length_take_of_le (Nat.not_lt.1 hshort)]
                have htype : type = 20 ∨ type = 23 := by
                  have hfirst : buf.head? = some type := by
                    rw [hbuf, Tls.Record.encode, List.cons_append, List.head?_cons, hr]
                  rw [hfirst] at hkind
                  by_contra hno
                  rw [not_or] at hno
                  exact hkind ⟨fun he => hno.1 (Option.some.inj he),
                    fun he => hno.2 (Option.some.inj he)⟩
                have hccs' : (if type = 20 then ccs + 1 else ccs) ≤ 1 := by
                  split
                  · next h20 => exact Nat.not_lt.1 fun hlt => hspec ⟨h20, .inr (.inr hlt)⟩
                  · exact hccs
                obtain ⟨records, htail, hoff, hrecords, hcount⟩ := skipBeforeSecond_eq_ok hccs' h
                refine ⟨r :: records, ?_, ?_, ?_, ?_⟩
                · rw [hbuf, htail, Tls.recordBytes_cons, List.append_assoc]
                · rw [hoff, Tls.recordBytes_cons, List.length_append, hlength]
                  omega
                · intro r' hr'
                  rcases List.mem_cons.1 hr' with rfl | hr'
                  · rcases htype with h20 | h23
                    · refine .inr ⟨hr.trans h20, ?_⟩
                      have hlen : len = 1 := by
                        by_contra hne
                        exact hspec ⟨h20, .inl hne⟩
                      have hone : tail.head? = some 1 := by
                        by_contra hne
                        exact hspec ⟨h20, .inr (.inl hne)⟩
                      obtain ⟨tail', rfl⟩ := List.head?_eq_some_iff.1 hone
                      rw [hcontent, hlen]
                      rfl
                    · exact .inl (hr.trans h23)
                  · exact hrecords r' hr'
                · rw [List.countP_cons, hr]
                  by_cases h20 : type = 20
                  · simp only [h20, if_true, decide_true] at hcount ⊢
                    omega
                  · simp only [h20, if_false, decide_false, Bool.false_eq_true] at hcount ⊢
                    omega

/-- The records that were read carry one hello that names the host. -/
theorem isHello_of_read (hread : readRecords n off buf [] none = .ok (off', hs, m))
    (hone : ¬ m < hs.length) (hsni : readSni ((hs.take m).drop 4) = .ok (some host)) :
    ∃ hello rest, IsHello host hello ∧ buf = hello ++ rest ∧ off' = off + hello.length := by
  obtain ⟨records, rest, hrecords, hbuf, hoff, hbody, hle, hmessage⟩ :=
    readRecords_eq_ok (fun k hk => by cases hk) hread
  obtain ⟨hello, hencode, hnames⟩ := readSni_eq_ok hsni
  obtain ⟨hsmall, hfour, hhead⟩ := messageLength_eq_ok hmessage
  have hm : m = hs.length := Nat.le_antisymm hle (Nat.not_lt.1 hone)
  rw [hm, List.take_length] at hencode
  have hlength : hello.encode.length = m - 4 := by
    rw [hencode, List.length_drop, hm]
  refine ⟨Tls.recordBytes records, rest, ⟨hello, ?_, ⟨records, hrecords, rfl, ?_⟩, hnames⟩, hbuf, hoff⟩
  · rw [MAX_HELLO_BYTES] at hsmall
    omega
  · rw [Tls.ClientHello.message, hlength, hencode, ← hhead,
      List.take_append_drop, hbody, List.nil_append]

/-- What a hello that names a server was read from. -/
theorem parseClientHello_eq_hello {afterRetry : Bool}
    (h : parseClientHello buf afterRetry = .hello (some host) k) : ∃ off behind hs m,
      helloStart buf afterRetry = .ok (off, behind) ∧
      readRecords (behind.length + 1) off behind [] none = .ok (k, hs, m) ∧ ¬ m < hs.length ∧
      readSni ((hs.take m).drop 4) = .ok (some host) := by
  unfold parseClientHello at h
  split at h
  · next stop _ => cases stop <;> cases h
  · next off behind hok =>
    split at h
    · next stop _ => cases stop <;> cases h
    · next off' hs m hread =>
      split at h
      · cases h
      · next hone =>
        split at h
        · cases h
        · next sni hsni =>
          cases h
          exact ⟨off, behind, hs, m, hok, hread, hone, hsni⟩

/-- The first hello : its records, from the first byte on. -/
theorem parseClientHello_first (h : parseClientHello buf false = .hello (some host) k) :
    IsHello host (buf.take k) := by
  obtain ⟨off, behind, hs, m, hstart, hread, hone, hsni⟩ := parseClientHello_eq_hello h
  cases (show Except.ok (0, buf) = .ok (off, behind) from hstart)
  obtain ⟨hello, rest, hhello, rfl, hoff⟩ := isHello_of_read hread hone hsni
  rw [hoff, Nat.zero_add, List.take_left]
  exact hhello

/-- The second hello, behind what may stand in front of it. -/
theorem parseClientHello_second (h : parseClientHello buf true = .hello (some host) k) :
    ∃ skipped hello, buf.take k = skipped ++ hello ∧ Skippable skipped ∧ IsHello host hello := by
  obtain ⟨off, behind, hs, m, hstart, hread, hone, hsni⟩ := parseClientHello_eq_hello h
  obtain ⟨records, hbuf, hoff, hrecords, hcount⟩ := skipBeforeSecond_eq_ok (Nat.zero_le 1) hstart
  obtain ⟨hello, rest, hhello, rfl, hoff'⟩ := isHello_of_read hread hone hsni
  refine ⟨Tls.recordBytes records, hello, ?_, ⟨records, rfl, hrecords, by omega⟩, hhello⟩
  rw [hbuf, hoff', hoff, Nat.zero_add, ← List.append_assoc, ← List.length_append, List.take_left]

/-! ## The server's retry -/

/-- The start of a HelloRetryRequest is read as one, or waited for. -/
theorem readServerStart_of_records : ∀ {records : List Tls.Record} {n : Nat} {buf hs x : Bytes},
    Tls.Handshake records → buf ++ x = Tls.recordBytes records ++ rest →
      38 ≤ (hs ++ Tls.payloads records).length →
        readServerStart n buf hs = .error .more ∨
          ∃ h, readServerStart n buf hs = .ok h ∧
            h.take 38 = (hs ++ Tls.payloads records).take 38
  | _, 0, _, _, _, _, _, _ => .inl rfl
  | records, n + 1, buf, hs, x, hrecords, hbuf, hlong => by
    unfold readServerStart
    split
    · next hdone => exact .inr ⟨hs, rfl, (List.take_append_of_le_length hdone).symm⟩
    · next hmore =>
      cases records with
      | nil =>
        rw [show Tls.payloads [] = [] from rfl, List.append_nil] at hlong
        exact absurd hlong hmore
      | cons r records =>
        cases hhead : recordHead buf with
        | none => exact .inl rfl
        | some head =>
          obtain ⟨type, len, body⟩ := head
          dsimp only
          rw [Tls.recordBytes_cons, List.append_assoc] at hbuf
          obtain ⟨rfl, rfl, hbody⟩ := recordHead_split hhead hbuf
          obtain ⟨h22, hne⟩ := hrecords r List.mem_cons_self
          rw [if_neg (by simp [h22, hne])]
          split
          · exact .inl rfl
          · next hshort =>
            -- the record is there as a whole
            have hle : r.payload.content.length ≤ body.length := Nat.not_lt.1 hshort
            have htake := congrArg (List.take r.payload.content.length) hbody
            have hdrop := congrArg (List.drop r.payload.content.length) hbody
            rw [List.take_append_of_le_length hle, List.take_left] at htake
            rw [List.drop_append_of_le_length hle, List.drop_left] at hdrop
            rw [htake, Tls.payloads_cons, ← List.append_assoc]
            refine readServerStart_of_records
              (fun r' hr' => hrecords r' (List.mem_cons_of_mem r hr')) hdrop ?_
            rw [List.append_assoc, ← Tls.payloads_cons]
            exact hlong

/-- While the server's bytes begin with a HelloRetryRequest, no start of them is read as another
answer. -/
theorem isHelloRetryRequest_ne_no (h : Tls.StartsRetry s) (hbuf : buf <+: s) :
    isHelloRetryRequest buf ≠ .no := by
  obtain ⟨records, tail, head, more, hrecords, rfl, hhead, hpayloads⟩ := h
  obtain ⟨x, hx⟩ := hbuf
  have hstart : (Tls.payloads records).take 38 = 2 :: head ++ HELLO_RETRY_RANDOM := by
    rw [hpayloads, List.take_append_of_le_length (by simp [hhead, Tls.helloRetryRandom]),
      List.take_of_length_le (by simp [hhead, Tls.helloRetryRandom])]
    rfl
  have hlong : 38 ≤ ([] ++ Tls.payloads records).length := by
    simp [hpayloads, hhead, Tls.helloRetryRandom]
    omega
  unfold isHelloRetryRequest
  rcases readServerStart_of_records (n := buf.length + 1) hrecords hx hlong with hread | ⟨h, hread, htake⟩
  · rw [hread]
    decide
  · rw [hread]
    dsimp only
    rw [List.nil_append, hstart] at htake
    have hfirst : h.head? = some 2 := by
      cases h with
      | nil => cases htake
      | cons b h => exact congrArg some (List.cons.inj htake).1
    rw [if_pos ⟨hfirst, by rw [htake, List.cons_append, List.drop_succ_cons, ← hhead, List.drop_left]⟩]
    decide

end Passed

end Lynox.Egress
