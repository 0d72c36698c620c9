import Lynox.Egress.ClientHello

/-!
# Every client hello is read

A hello is read back from its records however it is cut into them. Its host name is the one that
was written, a hello with an encrypted one or with two host names is refused, and of a start of
its records more is asked for.
-/

namespace Lynox.Egress

open Text Throws

/-! ## Records -/

section Records

variable {records : List Tls.Record} {r : Tls.Record} {rest hs x y front back : Bytes}
  {n off m : Nat} {need : Option Nat}

theorem messageLength_short (h : hs.length < 4) : messageLength hs = .ok none := by
  match hs, h with
  | [], _ => rfl
  | [_], _ => rfl
  | [_, _], _ => rfl
  | [_, _, _], _ => rfl
  | _ :: _ :: _ :: _ :: _, h =>
    simp only [List.length_cons] at h
    omega

theorem messageLength_long (h : 4 ≤ x.length) (y : Bytes) :
    messageLength (x ++ y) = messageLength x := by
  match x, h with
  | _ :: _ :: _ :: _ :: _, _ => rfl

/-- A start of a message has its length, or none yet. -/
theorem messageLength_front (h : messageLength (x ++ y) = .ok (some m)) :
    messageLength x = .ok none ∨ messageLength x = .ok (some m) := by
  rcases Nat.lt_or_ge x.length 4 with hshort | hlong
  · exact .inl (messageLength_short hshort)
  · exact .inr ((messageLength_long hlong y).symm.trans h)

/-- While content is to come, the message is not complete. -/
theorem need_filter_eq_none (hneed : messageLength hs = .ok need) (hy : y ≠ [])
    (hwhole : ∀ m, messageLength (hs ++ y) = .ok m → m = some (hs ++ y).length) :
    need.filter (· ≤ hs.length) = none := by
  refine Option.filter_eq_none_iff.2 fun m hm => ?_
  subst hm
  have hlength := Option.some.inj (hwhole _ (messageLength_append hneed y))
  have hpos := List.length_pos_iff.2 hy
  rw [List.length_append] at hlength
  simp only [decide_eq_true_eq]
  omega

/-- One record in front, while its message is not complete. -/
theorem readRecords_encode (htype : r.type = 22) (hne : r.payload.content ≠ [])
    (hneed : messageLength hs = .ok need) (hmore : need.filter (· ≤ hs.length) = none) :
    readRecords (n + 1) off (r.encode ++ rest) hs need =
      if 16384 + 2048 < r.payload.content.length then .error (.bad "bad record length")
      else messageLength (hs ++ r.payload.content) >>= fun need =>
        readRecords n (off + 5 + r.payload.content.length) rest (hs ++ r.payload.content) need := by
  have hpos : r.payload.content.length ≠ 0 := fun h => hne (List.length_eq_zero_iff.1 h)
  rw [readRecords, hmore]
  simp only [recordHead_encode, htype, ne_eq, not_true_eq_false, if_false, hpos, false_or,
    List.take_left, List.drop_left, List.length_append]
  split
  · rfl
  · rw [if_neg (by omega)]
    cases need with
    | none => rfl
    | some m =>
      rw [messageLength_append hneed]
      rfl

/-- The records of a message, whatever stands behind them. -/
theorem readRecords_of_records : ∀ {records : List Tls.Record} {n off : Nat} {hs : Bytes}
    {need : Option Nat}, Tls.Handshake records →
      (∀ r ∈ records, r.payload.content.length ≤ 16384 + 2048) → records.length < n →
      messageLength hs = .ok need →
      messageLength (hs ++ Tls.payloads records) = .ok (some (hs ++ Tls.payloads records).length) →
        readRecords n off (Tls.recordBytes records ++ rest) hs need =
          .ok (off + (Tls.recordBytes records).length, hs ++ Tls.payloads records,
            (hs ++ Tls.payloads records).length)
  | _, 0, _, _, _, _, _, hn, _, _ => absurd hn (Nat.not_lt_zero _)
  | [], n + 1, off, hs, need, _, _, _, hneed, hwhole => by
    rw [show Tls.payloads [] = [] from rfl, List.append_nil] at hwhole ⊢
    rw [hneed] at hwhole
    rw [Except.ok.inj hwhole, readRecords, Option.filter_some_pos (by simp)]
    rfl
  | r :: records, n + 1, off, hs, need, hrecords, hshort, hn, hneed, hwhole => by
    obtain ⟨htype, hne⟩ := hrecords r List.mem_cons_self
    rw [Tls.payloads_cons] at hwhole
    have hmore := need_filter_eq_none (y := r.payload.content ++ Tls.payloads records) hneed
      (List.append_ne_nil_of_left_ne_nil hne _) fun m hm => Except.ok.inj (hm.symm.trans hwhole)
    rw [← List.append_assoc] at hwhole
    have hnext : ∃ need', messageLength (hs ++ r.payload.content) = .ok need' := by
      rcases messageLength_front hwhole with h | h
      · exact ⟨_, h⟩
      · exact ⟨_, h⟩
    obtain ⟨need', hneed'⟩ := hnext
    rw [Tls.recordBytes_cons, List.append_assoc, readRecords_encode htype hne hneed hmore,
      if_neg (Nat.not_lt.2 (hshort r List.mem_cons_self)), hneed']
    refine (readRecords_of_records (fun r' hr' => hrecords r' (List.mem_cons_of_mem r hr'))
      (fun r' hr' => hshort r' (List.mem_cons_of_mem r hr'))
      (Nat.lt_of_succ_lt_succ hn) hneed' hwhole).trans ?_
    rw [Tls.payloads_cons, List.append_assoc, ← Tls.recordBytes_cons, Tls.length_recordBytes_cons,
      ← Nat.add_assoc, ← Nat.add_assoc]

/-- Nothing but the whole message is read from its records. -/
theorem readRecords_only : ∀ {records : List Tls.Record} {n off off' : Nat} {hs body : Bytes}
    {need : Option Nat}, Tls.Handshake records → messageLength hs = .ok need →
      (∀ m, messageLength (hs ++ Tls.payloads records) = .ok m →
        m = some (hs ++ Tls.payloads records).length) →
      readRecords n off (Tls.recordBytes records ++ rest) hs need = .ok (off', body, m) →
        body = hs ++ Tls.payloads records ∧ m = (hs ++ Tls.payloads records).length
  | _, 0, _, _, _, _, _, _, _, _, h => by cases h
  | [], n + 1, off, off', hs, body, need, _, hneed, hwhole, h => by
    rw [show Tls.payloads [] = [] from rfl, List.append_nil] at hwhole ⊢
    rw [hwhole _ hneed, readRecords, Option.filter_some_pos (by simp)] at h
    cases h
    exact ⟨rfl, rfl⟩
  | r :: records, n + 1, off, off', hs, body, need, hrecords, hneed, hwhole, h => by
    obtain ⟨htype, hne⟩ := hrecords r List.mem_cons_self
    rw [Tls.payloads_cons] at hwhole ⊢
    have hmore := need_filter_eq_none (y := r.payload.content ++ Tls.payloads records) hneed
      (List.append_ne_nil_of_left_ne_nil hne _) hwhole
    rw [Tls.recordBytes_cons, List.append_assoc, readRecords_encode htype hne hneed hmore] at h
    split at h
    · cases h
    · obtain ⟨need', hneed', h⟩ := ok_of_bind h
      rw [← List.append_assoc] at hwhole ⊢
      exact readRecords_only (fun r' hr' => hrecords r' (List.mem_cons_of_mem r hr')) hneed' hwhole h

/-- Of a start of the records more is asked for, while all of them fit into the limit. -/
theorem readRecords_of_front : ∀ {records : List Tls.Record} {n off : Nat} {front back hs : Bytes}
    {need : Option Nat}, Tls.Handshake records →
      (∀ r ∈ records, r.payload.content.length ≤ 16384 + 2048) →
      off + (Tls.recordBytes records).length ≤ MAX_HELLO_BYTES →
      front ++ back = Tls.recordBytes records → back ≠ [] → messageLength hs = .ok need →
      messageLength (hs ++ Tls.payloads records) = .ok (some (hs ++ Tls.payloads records).length) →
        readRecords n off front hs need = .error .more
  | _, 0, _, _, _, _, _, _, _, _, _, _, _, _ => rfl
  | [], _ + 1, _, _, _, _, _, _, _, _, hsplit, hback, _, _ =>
    absurd (List.append_eq_nil_iff.1 hsplit).2 hback
  | r :: records, n + 1, off, front, back, hs, need, hrecords, hshort, hmax, hsplit, hback, hneed,
      hwhole => by
    obtain ⟨htype, hne⟩ := hrecords r List.mem_cons_self
    rw [Tls.payloads_cons] at hwhole
    have hmore := need_filter_eq_none (y := r.payload.content ++ Tls.payloads records) hneed
      (List.append_ne_nil_of_left_ne_nil hne _) fun m hm => Except.ok.inj (hm.symm.trans hwhole)
    rw [← List.append_assoc] at hwhole
    have hlength := congrArg List.length hsplit
    rw [List.length_append, Tls.length_recordBytes_cons] at hlength
    rw [Tls.length_recordBytes_cons] at hmax
    have hpos := List.length_pos_iff.2 hback
    rw [Tls.recordBytes_cons] at hsplit
    rcases Nat.lt_or_ge front.length r.encode.length with hpart | hall
    · -- the record is not there as a whole
      rw [Tls.length_encode] at hpart
      rw [readRecords, hmore]
      cases hhead : recordHead front with
      | none =>
        dsimp only
        rw [if_neg (by omega)]
      | some head =>
        obtain ⟨type, len, body⟩ := head
        obtain ⟨rfl, rfl, hbody⟩ := recordHead_split hhead hsplit
        have hbodyLength := congrArg List.length hbody
        rw [List.length_append, List.length_append] at hbodyLength
        have hlen : r.payload.content.length ≠ 0 := fun h => hne (List.length_eq_zero_iff.1 h)
        have hfits := hshort r List.mem_cons_self
        dsimp only
        rw [if_neg (not_not.2 htype), if_neg (by omega), if_pos (by omega), if_neg (by omega)]
    · obtain ⟨body, rfl⟩ := List.prefix_of_prefix_length_le
        (hsplit ▸ List.prefix_append r.encode (Tls.recordBytes records)) (List.prefix_append front back)
        hall
      rw [readRecords_encode htype hne hneed hmore,
        if_neg (Nat.not_lt.2 (hshort r List.mem_cons_self))]
      rw [List.append_assoc] at hsplit
      rcases messageLength_front hwhole with hneed' | hneed'
      all_goals
        rw [hneed']
        exact readRecords_of_front (fun r' hr' => hrecords r' (List.mem_cons_of_mem r hr'))
          (fun r' hr' => hshort r' (List.mem_cons_of_mem r hr')) (by omega)
          (List.append_cancel_left hsplit) hback hneed' hwhole

end Records

/-! ## The server name -/

section Names

variable {h t x : Bytes} {b : UInt8} {p k n : Nat} {sni : Option JsString}

theorem drop_add (hd : h.drop p = x ++ t) : h.drop (p + x.length) = t := by
  rw [← List.drop_drop, hd, List.drop_left]

theorem readUInt8_of_drop (hd : h.drop p = b :: t) : readUInt8 h p = .ok b.toNat := by
  rw [readUInt8, hd]

theorem readUInt16BE_of_drop (hd : h.drop p = Tls.be16 k ++ t) (hk : k < 65536) :
    readUInt16BE h p = .ok k := by
  rw [readUInt16BE, hd, Tls.be16]
  simp only [List.cons_append, UInt8.toNat_ofNat']
  congr 1
  omega

/-- The host name of a hello with the host names given. -/
def onlyName : List JsString → Except String (Option JsString)
  | [] => .ok none
  | [name] => .ok (some name)
  | _ => .error "two host names"

theorem onlyName_of_length {names : List JsString} (hn : names.length ≤ 1) :
    onlyName names = .ok names.head? := by
  match names, hn with
  | [], _ => rfl
  | [_], _ => rfl

theorem onlyName_error {names : List JsString} (hn : 2 ≤ names.length) :
    onlyName names = .error "two host names" := by
  match names, hn with
  | _ :: _ :: _, _ => rfl

/-- The host names of a server_name list, as they are compared. -/
def listNames (names : List (UInt8 × Tls.Vec 2)) : List JsString :=
  (names.filter fun name => name.1 = 0).map fun name => serverName name.2.content

theorem length_nameList_cons (name : UInt8 × Tls.Vec 2) (names : List (UInt8 × Tls.Vec 2)) :
    (Tls.Extension.nameList (name :: names)).length =
      3 + name.2.content.length + (Tls.Extension.nameList names).length := by
  rw [Tls.Extension.nameList, List.flatMap_cons, ← Tls.Extension.nameList]
  simp [Tls.Vec.encode16, Tls.be16]
  omega

theorem length_le_nameList (names : List (UInt8 × Tls.Vec 2)) :
    names.length ≤ (Tls.Extension.nameList names).length := by
  induction names with
  | nil => exact Nat.zero_le _
  | cons name names ih =>
    rw [length_nameList_cons, List.length_cons]
    omega

/-- The names of a list are read after those before it. -/
theorem readNames_nameList : ∀ {names : List (UInt8 × Tls.Vec 2)} {n q : Nat}
    {sni : Option JsString}, h.drop q = Tls.Extension.nameList names ++ t → names.length < n →
      readNames h (q + (Tls.Extension.nameList names).length) n q sni =
        onlyName (sni.toList ++ listNames names)
  | _, 0, _, _, _, hn => absurd hn (Nat.not_lt_zero _)
  | [], n + 1, q, sni, _, _ => by
    rw [readNames, if_pos (by simp [Tls.Extension.nameList])]
    cases sni <;> rfl
  | name :: names, n + 1, q, sni, hd, hn => by
    have hshort : name.2.content.length < 65536 := name.2.short
    have hlen := length_nameList_cons name names
    rw [Tls.Extension.nameList, List.flatMap_cons, ← Tls.Extension.nameList,
      Tls.Vec.encode16] at hd
    simp only [List.cons_append, List.append_assoc] at hd
    have hd₁ : h.drop (q + 1) = Tls.be16 name.2.content.length ++
        (name.2.content ++ (Tls.Extension.nameList names ++ t)) := drop_add (x := [name.1]) hd
    have hd₃ : h.drop (q + 3) = name.2.content ++ (Tls.Extension.nameList names ++ t) :=
      drop_add hd₁
    have hnext := drop_add hd₃
    rw [readNames, if_neg (by omega), readUInt8_of_drop hd, readUInt16BE_of_drop hd₁ hshort]
    simp only [bind, Except.bind]
    rw [if_neg (by omega), hlen, ← Nat.add_assoc, ← Nat.add_assoc, hd₃, List.take_left]
    have ih : ∀ sni, readNames h (q + 3 + name.2.content.length +
        (Tls.Extension.nameList names).length) n (q + 3 + name.2.content.length) sni =
          onlyName (sni.toList ++ listNames names) :=
      fun sni => readNames_nameList hnext (Nat.lt_of_succ_lt_succ hn)
    by_cases hzero : name.1 = 0
    · have hnames : listNames (name :: names) = serverName name.2.content :: listNames names := by
        rw [listNames, List.filter_cons_of_pos (by simpa using hzero), List.map_cons, ← listNames]
      rw [if_pos (by rw [hzero]; rfl), hnames]
      cases sni with
      | none => exact ih _
      | some first => rfl
    · have hnames : listNames (name :: names) = listNames names := by
        rw [listNames, List.filter_cons_of_neg (by simpa using hzero), ← listNames]
      have hne : ¬ name.1.toNat = 0 := fun h0 => hzero (UInt8.toNat_inj.1 h0)
      rw [if_neg hne, hnames]
      exact ih sni

/-- No extension holds an encrypted hello. -/
def Unencrypted (exts : List Tls.Extension) : Prop :=
  ∀ e ∈ exts, e.type ∉ ENCRYPTED_HELLO_EXTENSIONS

instance (exts : List Tls.Extension) : Decidable (Unencrypted exts) :=
  inferInstanceAs (Decidable (∀ e ∈ exts, e.type ∉ ENCRYPTED_HELLO_EXTENSIONS))

/-- The host names of the extensions, as they are compared. -/
def extensionNames (exts : List Tls.Extension) : List JsString :=
  (exts.flatMap Tls.Extension.hostNames).map serverName

theorem extensionNames_serverName (names : List (UInt8 × Tls.Vec 2)) (behind : Bytes)
    (exts : List Tls.Extension) :
    extensionNames (.serverName names behind :: exts) = listNames names ++ extensionNames exts := by
  rw [extensionNames, List.flatMap_cons, List.map_append, ← extensionNames, Tls.Extension.hostNames,
    List.map_map]
  rfl

theorem length_extension (e : Tls.Extension) : e.encode.length = 4 + e.data.length := by
  simp [Tls.Extension.encode, Tls.be16]
  omega

/-- The name that is known after an extension without an encrypted hello. -/
def nameAfter (sni : Option JsString) : Tls.Extension → Except String (Option JsString)
  | .serverName names _ => onlyName (sni.toList ++ listNames names)
  | .other _ _ => .ok sni

/-- One extension in front : an encrypted hello stops the reading, the names of a server_name list
are read, and any other extension is passed over. -/
theorem readExtensions_cons {e : Tls.Extension} {extEnd : Nat} (hvalid : e.Valid)
    (hd : h.drop p = e.encode ++ t) (hend : p + e.encode.length ≤ extEnd) :
    readExtensions h extEnd (n + 1) p sni =
      if e.type ∈ ENCRYPTED_HELLO_EXTENSIONS then .error "encrypted client hello"
      else nameAfter sni e >>= readExtensions h extEnd n (p + e.encode.length) := by
  have htype : e.type < 65536 := by
    cases e with
    | serverName names behind => exact Nat.zero_lt_succ _
    | other type data => exact hvalid.2.1
  have hdata : e.data.length < 65536 := by
    cases e with
    | serverName names behind => exact hvalid.2
    | other type data => exact hvalid.2.2
  have hlength := length_extension e
  rw [Tls.Extension.encode, List.append_assoc, List.append_assoc] at hd
  have hd₂ : h.drop (p + 2) = Tls.be16 e.data.length ++ (e.data ++ t) := drop_add hd
  have hd₄ : h.drop (p + 4) = e.data ++ t := drop_add hd₂
  rw [readExtensions, if_neg (by omega), readUInt16BE_of_drop hd htype,
    readUInt16BE_of_drop hd₂ hdata]
  simp only [bind, Except.bind]
  rw [if_neg (by omega), hlength, ← Nat.add_assoc]
  split
  · rfl
  · cases e with
    | serverName names behind =>
      rw [Tls.Extension.data, List.append_assoc, List.append_assoc] at hd₄
      have hd₆ : h.drop (p + 6) = Tls.Extension.nameList names ++ (behind ++ t) := drop_add hd₄
      have hlist : (Tls.Extension.serverName names behind).data.length =
          2 + (Tls.Extension.nameList names).length + behind.length := by
        simp [Tls.Extension.data, Tls.be16]
        omega
      rw [if_pos (show (Tls.Extension.serverName names behind).type = 0 from rfl),
        readUInt16BE_of_drop hd₄ hvalid.1]
      dsimp only
      rw [if_neg (by omega), readNames_nameList hd₆ (Nat.lt_succ_of_le (length_le_nameList names))]
      rfl
    | other type data =>
      have hne : (Tls.Extension.other type data).type ≠ 0 := hvalid.1
      rw [if_neg hne]
      rfl

theorem onlyName_bind {names more : List JsString}
    {f : Option JsString → Except String (Option JsString)}
    (hf : ∀ sni, f sni = onlyName (sni.toList ++ more)) :
    onlyName names >>= f = onlyName (names ++ more) := by
  match names with
  | [] => exact hf none
  | [name] => exact hf (some name)
  | _ :: _ :: _ => rfl

/-- The host names of extensions without an encrypted hello are read after those before them. -/
theorem readExtensions_of_unencrypted : ∀ {exts : List Tls.Extension} {n p : Nat}
    {sni : Option JsString}, (∀ e ∈ exts, e.Valid) → Unencrypted exts →
      h.drop p = exts.flatMap Tls.Extension.encode ++ t → exts.length < n →
        readExtensions h (p + (exts.flatMap Tls.Extension.encode).length) n p sni =
          onlyName (sni.toList ++ extensionNames exts)
  | _, 0, _, _, _, _, _, hn => absurd hn (Nat.not_lt_zero _)
  | [], n + 1, p, sni, _, _, _, _ => by
    rw [readExtensions, if_pos (by simp)]
    cases sni <;> rfl
  | e :: exts, n + 1, p, sni, hvalid, hplain, hd, hn => by
    rw [List.flatMap_cons, List.append_assoc] at hd
    have hnext := drop_add hd
    have ih : ∀ sni, readExtensions h (p + e.encode.length +
        (exts.flatMap Tls.Extension.encode).length) n (p + e.encode.length) sni =
          onlyName (sni.toList ++ extensionNames exts) :=
      fun sni => readExtensions_of_unencrypted (fun e' he' => hvalid e' (List.mem_cons_of_mem e he'))
        (fun e' he' => hplain e' (List.mem_cons_of_mem e he')) hnext (Nat.lt_of_succ_lt_succ hn)
    rw [List.flatMap_cons, List.length_append, ← Nat.add_assoc,
      readExtensions_cons (hvalid e List.mem_cons_self) hd (Nat.le_add_right _ _),
      if_neg (hplain e List.mem_cons_self)]
    cases e with
    | serverName names behind =>
      rw [nameAfter, extensionNames_serverName, onlyName_bind ih, List.append_assoc]
    | other type data => exact ih sni

/-- Extensions among which there is an encrypted hello are refused. -/
theorem readExtensions_of_encrypted : ∀ {exts : List Tls.Extension} {n p : Nat}
    {sni : Option JsString}, (∀ e ∈ exts, e.Valid) → ¬ Unencrypted exts →
      h.drop p = exts.flatMap Tls.Extension.encode ++ t →
        ∃ error, readExtensions h (p + (exts.flatMap Tls.Extension.encode).length) n p sni =
          .error error
  | _, 0, _, _, _, _, _ => ⟨_, rfl⟩
  | [], _ + 1, _, _, _, hplain, _ => absurd (fun _ he => absurd he List.not_mem_nil) hplain
  | e :: exts, n + 1, p, sni, hvalid, hplain, hd => by
    rw [List.flatMap_cons, List.append_assoc] at hd
    rw [List.flatMap_cons, List.length_append, ← Nat.add_assoc,
      readExtensions_cons (hvalid e List.mem_cons_self) hd (Nat.le_add_right _ _)]
    by_cases he : e.type ∈ ENCRYPTED_HELLO_EXTENSIONS
    · exact ⟨_, if_pos he⟩
    · rw [if_neg he]
      have hbehind : ¬ Unencrypted exts := by
        intro hrest
        refine hplain fun e' he' => ?_
        rcases List.mem_cons.1 he' with rfl | he'
        · exact he
        · exact hrest e' he'
      cases nameAfter sni e with
      | error error => exact ⟨error, rfl⟩
      | ok sni' =>
        exact readExtensions_of_encrypted (fun e' he' => hvalid e' (List.mem_cons_of_mem e he'))
          hbehind (drop_add hd)

theorem length_le_extensions (exts : List Tls.Extension) :
    exts.length ≤ (exts.flatMap Tls.Extension.encode).length := by
  induction exts with
  | nil => exact Nat.zero_le _
  | cons e exts ih =>
    rw [List.flatMap_cons, List.length_append, length_extension, List.length_cons]
    omega

/-- What is read behind the compression methods. -/
theorem readSni_of_head {start tail : Bytes} {session : Tls.Vec 1} {ciphers : Tls.Vec 2}
    {compression : Tls.Vec 1} (hstart : start.length = 34)
    (hh : h = start ++ session.encode8 ++ ciphers.encode16 ++ compression.encode8 ++ tail) :
    ∃ p, h.drop p = tail ∧ p + tail.length = h.length ∧
      readSni h =
        if p = h.length then .ok none
        else readUInt16BE h p >>= fun extensions =>
          if h.length < p + 2 + extensions then .error "truncated extensions"
          else readExtensions h (p + 2 + extensions) (h.length + 1) (p + 2) none := by
  have hd₀ : h.drop 34 = session.encode8 ++ (ciphers.encode16 ++ (compression.encode8 ++ tail)) := by
    rw [hh, ← hstart]
    simp only [List.append_assoc, List.drop_left]
  have hd₁ := drop_add hd₀
  have hd₂ := drop_add hd₁
  have hd₃ := drop_add hd₂
  have hsession : (UInt8.ofNat session.content.length).toNat = session.content.length :=
    UInt8.toNat_ofNat_of_lt' session.short
  have hcompression : (UInt8.ofNat compression.content.length).toNat = compression.content.length :=
    UInt8.toNat_ofNat_of_lt' compression.short
  have hlen₁ : session.encode8.length = 1 + session.content.length := Nat.add_comm _ _
  have hlen₂ : ciphers.encode16.length = 2 + ciphers.content.length := by
    simp [Tls.Vec.encode16, Tls.be16]
    omega
  have hlen₃ : compression.encode8.length = 1 + compression.content.length := Nat.add_comm _ _
  rw [Tls.Vec.encode16, List.append_assoc] at hd₁
  rw [hlen₁] at hd₁
  rw [hlen₁, hlen₂] at hd₂
  rw [hlen₁, hlen₂, hlen₃] at hd₃
  simp only [← Nat.add_assoc] at hd₁ hd₂ hd₃
  have hlength : 34 + 1 + session.content.length + 2 + ciphers.content.length + 1 +
      compression.content.length + tail.length = h.length := by
    rw [hh]
    simp only [List.length_append, hstart, hlen₁, hlen₂, hlen₃]
    omega
  refine ⟨_, hd₃, hlength, ?_⟩
  unfold readSni
  dsimp only
  rw [readUInt8_of_drop hd₀, hsession]
  simp only [bind, Except.bind]
  rw [readUInt16BE_of_drop hd₁ ciphers.short]
  dsimp only
  rw [readUInt8_of_drop hd₂, hcompression]
  dsimp only
  rw [if_neg (by omega)]

theorem readSni_bare (hello : Tls.BareHello) : readSni hello.encode = .ok none := by
  obtain ⟨p, _, hp, hread⟩ :=
    readSni_of_head hello.start_length (List.append_nil hello.encode).symm
  rw [hread, if_pos (show p = hello.encode.length from hp)]

/-- The name of a hello with extensions is read from them. -/
theorem readSni_extended (hello : Tls.ClientHello) :
    ∃ p, hello.encode.drop p = hello.extensions.flatMap Tls.Extension.encode ++ hello.behind ∧
      readSni hello.encode = readExtensions hello.encode
        (p + (hello.extensions.flatMap Tls.Extension.encode).length) (hello.encode.length + 1) p
        none := by
  have hencode : hello.encode = hello.start ++ hello.session.encode8 ++ hello.ciphers.encode16 ++
      hello.compression.encode8 ++
        (Tls.be16 (hello.extensions.flatMap Tls.Extension.encode).length ++
          (hello.extensions.flatMap Tls.Extension.encode ++ hello.behind)) := by
    simp only [Tls.ClientHello.encode, List.append_assoc]
  obtain ⟨p, hd, hp, hread⟩ := readSni_of_head hello.start_length hencode
  simp only [List.length_append, show ∀ k, (Tls.be16 k).length = 2 from fun _ => rfl] at hp
  refine ⟨p + 2, drop_add hd, ?_⟩
  rw [hread, if_neg (by omega), readUInt16BE_of_drop hd hello.short]
  simp only [bind, Except.bind]
  rw [if_neg (by omega)]

/-- A hello without an encrypted one has the host names that are in its extensions. -/
theorem readSni_of_unencrypted {hello : Tls.Hello} (hplain : Unencrypted hello.extensions) :
    readSni hello.encode = onlyName (hello.hostNames.map serverName) := by
  cases hello with
  | bare hello => exact readSni_bare hello
  | extended hello =>
    obtain ⟨p, hd, hread⟩ := readSni_extended hello
    have hn : hello.extensions.length < hello.encode.length + 1 := by
      have hlength := congrArg List.length hd
      have hle := length_le_extensions hello.extensions
      rw [List.length_drop, List.length_append] at hlength
      omega
    rw [Tls.Hello.encode, hread, readExtensions_of_unencrypted hello.valid hplain hd hn]
    rfl

/-- A hello with an encrypted one, or with two host names, is refused. -/
theorem readSni_refused {hello : Tls.Hello}
    (h : ¬ Unencrypted hello.extensions ∨ 2 ≤ hello.hostNames.length) :
    ∃ error, readSni hello.encode = .error error := by
  by_cases hplain : Unencrypted hello.extensions
  · rw [readSni_of_unencrypted hplain, onlyName_error]
    · exact ⟨_, rfl⟩
    · rw [List.length_map]
      exact h.resolve_left (not_not.2 hplain)
  · cases hello with
    | bare hello => exact absurd (fun _ he => absurd he List.not_mem_nil) hplain
    | extended hello =>
      obtain ⟨p, hd, hread⟩ := readSni_extended hello
      rw [Tls.Hello.encode, hread]
      exact readExtensions_of_encrypted hello.valid hplain hd

end Names

/-! ## The whole hello -/

section Exact

variable {hello : Tls.Hello} {records : List Tls.Record} {rest : Bytes} {afterRetry : Bool}

/-- The length in front of the message is the hello's. -/
theorem messageLength_message (hello : Tls.Hello) (hlen : hello.encode.length < 2 ^ 24) :
    messageLength hello.message =
      if MAX_HELLO_BYTES < hello.message.length then .error (.bad "hello too large")
      else .ok (some hello.message.length) := by
  have hneed : 4 + ((UInt8.ofNat (hello.encode.length / 65536)).toNat * 65536 +
      (UInt8.ofNat (hello.encode.length / 256 % 256)).toNat * 256 +
      (UInt8.ofNat (hello.encode.length % 256)).toNat) = hello.message.length := by
    simp only [Tls.Hello.message, Tls.be24, UInt8.toNat_ofNat', List.cons_append,
      List.length_cons, List.nil_append]
    omega
  rw [← hneed]
  rfl

/-- The records of a message begin with a handshake record, and so does every start of them. -/
theorem helloStart_of_records {front back : Bytes} (hrecords : Tls.Handshake records)
    (hne : records ≠ []) (hfront : front ++ back = Tls.recordBytes records ++ rest) :
    helloStart front afterRetry = .ok (0, front) := by
  have hhead : ∀ b ∈ front.head?, b = 22 := by
    cases records with
    | nil => exact absurd rfl hne
    | cons r records =>
      cases front with
      | nil => simp
      | cons b front =>
        rw [Tls.recordBytes_cons] at hfront
        intro b' hb'
        rw [← Option.some.inj hb', (List.cons.inj hfront).1]
        exact (hrecords r List.mem_cons_self).1
  cases afterRetry with
  | false => rfl
  | true =>
    rw [helloStart, if_pos rfl, skipBeforeSecond, if_pos]
    exact ⟨fun h => absurd (hhead 20 h) (by decide), fun h => absurd (hhead 23 h) (by decide)⟩

theorem records_ne_nil (hcut : Tls.payloads records = hello.message) : records ≠ [] := by
  rintro rfl
  cases hcut

/-- A hello within the limit is read from its records. -/
theorem parseClientHello_of_records (hlen : hello.encode.length < 2 ^ 24)
    (hrecords : Tls.Handshake records) (hcut : Tls.payloads records = hello.message)
    (hshort : ∀ r ∈ records, r.payload.content.length ≤ 16384 + 2048)
    (hmax : hello.message.length ≤ MAX_HELLO_BYTES) :
    parseClientHello (Tls.recordBytes records ++ rest) afterRetry =
      match readSni hello.encode with
      | .error e => .bad e
      | .ok sni => .hello sni (Tls.recordBytes records).length := by
  have hmessage := messageLength_message hello hlen
  rw [if_neg (Nat.not_lt.2 hmax), ← hcut] at hmessage
  have hn : records.length < (Tls.recordBytes records ++ rest).length + 1 := by
    have hle := Tls.length_le_recordBytes records
    rw [List.length_append]
    omega
  rw [parseClientHello, helloStart_of_records hrecords (records_ne_nil hcut) (List.append_nil _)]
  dsimp only
  rw [readRecords_of_records hrecords hshort hn (messageLength_short (by decide)) hmessage]
  dsimp only
  rw [if_neg (Nat.lt_irrefl _), List.take_length, List.nil_append, hcut, Nat.zero_add]
  rfl

/-- A hello that cannot be read is never accepted, whatever its records. -/
theorem parseClientHello_ne_hello (hlen : hello.encode.length < 2 ^ 24)
    (hrecords : Tls.Handshake records) (hcut : Tls.payloads records = hello.message)
    (hsni : ∃ error, readSni hello.encode = .error error) (sni : Option JsString) (bytes : Nat) :
    parseClientHello (Tls.recordBytes records ++ rest) afterRetry ≠ .hello sni bytes := by
  have hwhole : ∀ m, messageLength ([] ++ Tls.payloads records) = .ok m →
      m = some ([] ++ Tls.payloads records).length := by
    intro m hm
    rw [List.nil_append, hcut] at hm ⊢
    rw [messageLength_message hello hlen] at hm
    split at hm
    · cases hm
    · exact (Except.ok.inj hm).symm
  rw [parseClientHello, helloStart_of_records hrecords (records_ne_nil hcut) (List.append_nil _)]
  dsimp only
  split
  · next stop _ => cases stop <;> exact HelloResult.noConfusion
  · next off body m hread =>
    obtain ⟨rfl, rfl⟩ := readRecords_only hrecords (messageLength_short (by decide)) hwhole hread
    obtain ⟨error, herror⟩ := hsni
    rw [if_neg (Nat.lt_irrefl _), List.take_length, List.nil_append, hcut,
      show hello.message.drop 4 = hello.encode from rfl, herror]
    exact HelloResult.noConfusion

/-- Of a start of the records of a hello within the limit more is asked for. -/
theorem parseClientHello_of_front {front back : Bytes} (hlen : hello.encode.length < 2 ^ 24)
    (hrecords : Tls.Handshake records) (hcut : Tls.payloads records = hello.message)
    (hshort : ∀ r ∈ records, r.payload.content.length ≤ 16384 + 2048)
    (hmax : (Tls.recordBytes records).length ≤ MAX_HELLO_BYTES)
    (hfront : front ++ back = Tls.recordBytes records) (hback : back ≠ []) :
    parseClientHello front afterRetry = .more := by
  have hmessage := messageLength_message hello hlen
  rw [← hcut] at hmessage
  rw [if_neg] at hmessage
  · rw [parseClientHello, helloStart_of_records hrecords (records_ne_nil hcut)
      (hfront.trans (List.append_nil _).symm)]
    dsimp only
    rw [readRecords_of_front hrecords hshort (by rw [Nat.zero_add]; exact hmax) hfront hback
      (messageLength_short (by decide)) hmessage]
    rfl
  · exact Nat.not_lt.2 ((Tls.length_payloads_le records).trans hmax)

/-- However a hello is cut into records within the limit, it is read with its one host name or with
none, and more is asked for before its last byte; with an encrypted hello or with two host names it
is never accepted. -/
theorem parseClientHello_exact (hello : Tls.Hello) (hlen : hello.encode.length < 2 ^ 24)
    (records : List Tls.Record) (hrecords : Tls.Handshake records)
    (hcut : Tls.payloads records = hello.message) (afterRetry : Bool) :
    ((∀ r ∈ records, r.payload.content.length ≤ 16384) →
        (Tls.recordBytes records).length ≤ MAX_HELLO_BYTES →
        (Unencrypted hello.extensions → hello.hostNames.length ≤ 1 → ∀ rest,
          parseClientHello (Tls.recordBytes records ++ rest) afterRetry =
            .hello (hello.hostNames.head?.map serverName) (Tls.recordBytes records).length) ∧
        ∀ front, front <+: Tls.recordBytes records → front ≠ Tls.recordBytes records →
          parseClientHello front afterRetry = .more) ∧
      (¬ Unencrypted hello.extensions ∨ 2 ≤ hello.hostNames.length → ∀ rest sni bytes,
        parseClientHello (Tls.recordBytes records ++ rest) afterRetry ≠ .hello sni bytes) := by
  refine ⟨fun hshort hmax => ⟨fun hplain hone rest => ?_, ?_⟩, fun hbad rest sni bytes => ?_⟩
  · have hsmall : hello.message.length ≤ MAX_HELLO_BYTES :=
      hcut ▸ (Tls.length_payloads_le records).trans hmax
    rw [parseClientHello_of_records hlen hrecords hcut
      (fun r hr => (hshort r hr).trans (by decide)) hsmall, readSni_of_unencrypted hplain,
      onlyName_of_length (by rwa [List.length_map]), List.head?_map]
  · rintro front ⟨back, hfront⟩ hne
    refine parseClientHello_of_front hlen hrecords hcut
      (fun r hr => (hshort r hr).trans (by decide)) hmax hfront ?_
    rintro rfl
    exact hne ((List.append_nil front).symm.trans hfront)
  · exact parseClientHello_ne_hello hlen hrecords hcut (readSni_refused hbad) sni bytes

end Exact

/-- A hello with the one host name `A`. -/
private def helloToA : Tls.Hello :=
  .extended ⟨List.replicate 34 0, ⟨[], by decide⟩, ⟨[0x13, 0x01], by decide⟩, ⟨[0], by decide⟩,
    [.serverName [(0, ⟨[0x41], by decide⟩)] []], [], by decide, by
      intro e he
      rw [List.mem_singleton.1 he]
      exact ⟨by decide, by decide⟩, by decide⟩

/-- In two records, the first of which holds a part of the message's head. -/
theorem parseClientHello_exact_two_records :
    parseClientHello (Tls.recordBytes [⟨22, (3, 1), ⟨helloToA.message.take 2, by decide⟩⟩,
      ⟨22, (3, 3), ⟨helloToA.message.drop 2, by decide⟩⟩] ++ [20, 3, 3]) true =
        .hello (some [0x61]) 67 :=
  ((parseClientHello_exact helloToA (by decide) _ (by decide) (by decide) true).1
    (by decide) (by decide)).1 (by decide) (by decide) _

end Lynox.Egress
