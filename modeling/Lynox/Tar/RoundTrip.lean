import Lynox.Tar.Header

/-!
# The tar round trip

What the writer wrote is read back : a pax record, whose length counts itself (`settle_spec`,
`paxRecord_read`), the pax header of an entry (`readPax_paxRecords`), an entry with its padding
(`readEntries_entry`), and from these the whole archive (`archive_round_trip`).
-/

namespace Lynox.Tar

open Fields Text

/-! ## A length that counts itself -/

section Settle

variable {bodyLen : Nat}

/-- A record is at most twice as long as its body. -/
theorem digits_le (hbody : 0 < bodyLen) {len : Nat} (h : len ≤ 2 * bodyLen) :
    (numeral 10 len).length ≤ bodyLen := by
  refine length_numeral_le (by omega) hbody ?_
  have hpow : 2 * bodyLen < 10 ^ bodyLen := by
    clear h
    induction bodyLen with
    | zero => omega
    | succ n ih =>
      rcases Nat.eq_zero_or_pos n with rfl | hn
      · norm_num
      · have := ih hn
        rw [pow_succ]
        omega
  omega

/-- A length that is not settled grows, and stays below twice the body. -/
theorem settle_spec (hbody : 0 < bodyLen) :
    ∀ (fuel len : Nat), len ≤ bodyLen + (numeral 10 len).length → len ≤ 2 * bodyLen →
      2 * bodyLen < len + fuel →
      settle bodyLen fuel len ≤ 2 * bodyLen ∧
        settle bodyLen fuel len = bodyLen + (numeral 10 (settle bodyLen fuel len)).length
  | 0, len, _, hle, hfuel => by omega
  | fuel + 1, len, hgrow, hle, hfuel => by
    unfold settle
    dsimp only
    split
    · next hne =>
      have hdigits := digits_le hbody hle
      refine settle_spec hbody fuel _ ?_ (by omega) (by omega)
      exact Nat.add_le_add_left (length_numeral_mono 10 hgrow) _
    · next heq => exact ⟨hle, not_not.1 heq⟩

theorem settle_length (hbody : 0 < bodyLen) :
    settle bodyLen bodyLen (bodyLen + 1) ≤ 2 * bodyLen ∧
      settle bodyLen bodyLen (bodyLen + 1) =
        bodyLen + (numeral 10 (settle bodyLen bodyLen (bodyLen + 1))).length :=
  settle_spec hbody bodyLen (bodyLen + 1)
    (Nat.add_le_add_left (length_numeral_pos 10 (bodyLen + 1)) _) (by omega) (by omega)

/-- The loop that settles a length ends with one. -/
inductive Settles (bodyLen : Nat) : Nat → Nat → Prop
  | done {len : Nat} (h : len = bodyLen + (numeral 10 len).length) : Settles bodyLen len len
  | next {len last : Nat} (h : len ≠ bodyLen + (numeral 10 len).length)
      (hnext : Settles bodyLen (bodyLen + (numeral 10 len).length) last) : Settles bodyLen len last

theorem settles_settle : ∀ (fuel len : Nat),
    settle bodyLen fuel len = bodyLen + (numeral 10 (settle bodyLen fuel len)).length →
      Settles bodyLen len (settle bodyLen fuel len)
  | 0, _, h => .done h
  | fuel + 1, len, h => by
    unfold settle at h ⊢
    dsimp only at h ⊢
    split_ifs at h ⊢ with hne
    · exact .next hne (settles_settle fuel _ h)
    · exact .done (not_not.1 hne)

theorem Settles.unique {len last last' : Nat} (h : Settles bodyLen len last)
    (h' : Settles bodyLen len last') : last = last' := by
  induction h with
  | done h =>
    cases h' with
    | done => rfl
    | next hne => exact absurd h hne
  | next hne _ ih =>
    cases h' with
    | done h => exact absurd h hne
    | next _ hnext => exact ih hnext

end Settle

/-! ## Pax records -/

section Records

variable {key : JsString}

theorem length_digitBytes (ds : List Nat) : (digitBytes ds).length = ds.length :=
  List.length_map _

theorem paxRecord_eq (key val : JsString) : ∃ len,
    paxRecord key val =
      digitBytes (numeral 10 len) ++ 0x20 :: (utf8 key ++ 0x3D :: utf8 val ++ [0x0A]) ∧
    len = (utf8 key ++ 0x3D :: utf8 val ++ [0x0A]).length + 1 + (numeral 10 len).length :=
  ⟨_, rfl, (settle_length (Nat.succ_pos _)).2⟩

/-- The loop ends, and the number a record begins with is how many bytes it has. -/
theorem paxRecord_counts_itself (key val : JsString) : ∃ len body,
    body = 0x20 :: utf8 key ++ 0x3D :: utf8 val ++ [0x0A] ∧
    (∀ last, Settles body.length (body.length + 1) last ↔ last = len) ∧
    paxRecord key val = digitBytes (numeral 10 len) ++ body ∧
    Reader.digitsOf 10 (paxRecord key val) = (numeral 10 len, body) ∧
    value 10 (numeral 10 len) = (paxRecord key val).length := by
  obtain ⟨body, hbody⟩ : ∃ body, body = 0x20 :: utf8 key ++ 0x3D :: utf8 val ++ [0x0A] := ⟨_, rfl⟩
  have hpos : 0 < body.length := by simp [hbody]
  obtain ⟨-, hlen⟩ := settle_length hpos
  have hsettles := settles_settle body.length (body.length + 1) hlen
  have hrecord : paxRecord key val =
      digitBytes (numeral 10 (settle body.length body.length (body.length + 1))) ++ body := by
    rw [hbody]
    rfl
  refine ⟨_, body, hbody, fun last => ⟨fun h => h.unique hsettles, fun h => h ▸ hsettles⟩, hrecord, ?_, ?_⟩
  · rw [hrecord]
    exact digitsOf_digitBytes le_rfl (numeral_lt (by omega)) (by simp [hbody])
  · rw [value_numeral, hrecord, List.length_append, length_digitBytes]
    exact hlen.trans (Nat.add_comm _ _)

theorem length_paxRecord_le (key val : JsString) :
    (paxRecord key val).length ≤ 2 * ((utf8 key).length + (utf8 val).length + 3) := by
  obtain ⟨body, hbody⟩ : ∃ body, body = utf8 key ++ 0x3D :: utf8 val ++ [0x0A] := ⟨_, rfl⟩
  obtain ⟨hle, hlen⟩ := settle_length (Nat.succ_pos body.length)
  have hrecord : paxRecord key val = digitBytes (numeral 10 (settle body.length.succ
      body.length.succ (body.length.succ + 1))) ++ 0x20 :: body := by
    rw [hbody]
    rfl
  have hbodyLen : body.length = (utf8 key).length + (utf8 val).length + 2 := by
    rw [hbody]
    simp only [List.length_append, List.length_cons, List.length_nil]
    omega
  rw [hrecord, List.length_append, List.length_cons, length_digitBytes]
  omega

theorem two_le_length_paxRecord (key val : JsString) : 2 ≤ (paxRecord key val).length := by
  obtain ⟨len, hrecord, -⟩ := paxRecord_eq key val
  rw [hrecord]
  simp only [List.length_append, List.length_cons]
  omega

/-- A record is read as its key and its value. -/
theorem paxRecord_read (hkey : 0x3D ∉ utf8 key) (val : JsString) (rest : Bytes) :
    Reader.paxRecord (paxRecord key val ++ rest) = some ((utf8 key, utf8 val), rest) := by
  obtain ⟨len, hrecord, hlen⟩ := paxRecord_eq key val
  obtain ⟨body, hbody⟩ : ∃ body, body = utf8 key ++ 0x3D :: utf8 val ++ [0x0A] := ⟨_, rfl⟩
  rw [← hbody] at hrecord hlen
  have hread : Reader.digitsOf 10 (paxRecord key val ++ rest) =
      (numeral 10 len, 0x20 :: (body ++ rest)) := by
    rw [hrecord, List.append_assoc]
    exact digitsOf_digitBytes le_rfl (numeral_lt (by omega)) (by simp)
  have hbytes : (paxRecord key val ++ rest).length = len + rest.length := by
    rw [hrecord]
    simp only [List.length_append, List.length_cons, length_digitBytes]
    omega
  have hvalue := value_numeral 10 len
  unfold Reader.paxRecord
  rw [hread]
  cases hds : numeral 10 len with
  | nil => exact absurd hds (numeral_ne_nil 10 len)
  | cons d ds =>
    rw [hds] at hlen hvalue
    have hstart : len - (ds.length + 2) = body.length := by
      rw [List.length_cons] at hlen
      omega
    have hpos : 0 < body.length := by
      rw [hbody]
      simp
    have hlast : body.getLast? = some 0x0A := by
      rw [hbody, List.getLast?_append]
      rfl
    have hfront : body.dropLast = utf8 key ++ 0x3D :: utf8 val := by
      rw [hbody, List.dropLast_concat]
    have hspan : (utf8 key ++ 0x3D :: utf8 val).span (· ≠ 0x3D) =
        (utf8 key, 0x3D :: utf8 val) := by
      have hall : ∀ b ∈ utf8 key, decide (b ≠ 0x3D) = true := by
        intro b hb
        exact decide_eq_true fun heq => hkey (heq ▸ hb)
      rw [List.span_eq_takeWhile_dropWhile, List.takeWhile_append_of_pos hall,
        List.dropWhile_append_of_pos hall, List.takeWhile_cons_of_neg (by simp),
        List.dropWhile_cons_of_neg (by simp), List.append_nil]
    simp only [hvalue, hstart, List.take_left, List.drop_left, hlast, hfront, hspan]
    rw [if_neg]
    rw [hbytes]
    rintro (hshort | hshort | hnot)
    · omega
    · omega
    · exact hnot rfl

/-- A text of ASCII is its units as bytes. -/
theorem utf8_ascii {s : JsString} (h : ∀ u ∈ s, u.toNat < 0x80) :
    utf8 s = s.map fun u => .ofNat u.toNat := by
  have hns : ∀ n ∈ s.map UInt16.toNat, n < 0x80 := by
    intro n hn
    obtain ⟨u, hu, rfl⟩ := List.mem_map.1 hn
    exact h u hu
  have hflat : utf8 ((s.map UInt16.toNat).flatMap units) = (s.map UInt16.toNat).flatMap bytes :=
    utf8_flatMap fun n hn => .inl (by
      have := hns n hn
      omega)
  rw [flatMap_units_toNat] at hflat
  rw [hflat, List.flatMap_map]
  clear hflat hns
  induction s with
  | nil => rfl
  | cons u s ih =>
    have hu : bytes u.toNat = [.ofNat u.toNat] := if_pos (h u List.mem_cons_self)
    rw [List.flatMap_cons, ih fun v hv => h v (List.mem_cons_of_mem u hv), hu]
    rfl

theorem shownDigits_eq (n : Nat) : shownDigits n = (numeral 10 n).map digit := by
  unfold shownDigits numeral
  split
  · rfl
  · rfl

theorem utf8_shownDigits (n : Nat) : utf8 (shownDigits n) = digitBytes (numeral 10 n) := by
  have hdigit : ∀ d ∈ numeral 10 n, (digit d).toNat = 0x30 + d := by
    intro d hd
    have hlt := numeral_lt (by omega) d hd
    exact toNat_ofNat (by omega)
  rw [shownDigits_eq, utf8_ascii, List.map_map]
  · exact List.map_congr_left fun d hd => congrArg UInt8.ofNat (hdigit d hd)
  · intro u hu
    obtain ⟨d, hd, rfl⟩ := List.mem_map.1 hu
    have hlt := numeral_lt (by omega) d hd
    rw [hdigit d hd]
    omega

/-- A number is read as it is shown. -/
theorem decimal_shownDigits (n : Nat) : Reader.decimal (utf8 (shownDigits n)) = some n := by
  have hread : Reader.digitsOf 10 (digitBytes (numeral 10 n)) = (numeral 10 n, []) := by
    have h := digitsOf_digitBytes le_rfl (numeral_lt (b := 10) (n := n) (by omega))
      (show ∀ b ∈ ([] : Bytes).head?, ¬ (0x30 ≤ b.toNat ∧ b.toNat < 0x30 + 10) by simp)
    rwa [List.append_nil] at h
  have hvalue := value_numeral 10 n
  rw [Reader.decimal, utf8_shownDigits, hread]
  cases hds : numeral 10 n with
  | nil => exact absurd hds (numeral_ne_nil 10 n)
  | cons d ds =>
    rw [hds] at hvalue
    exact congrArg some hvalue

/-- A record sets its key. -/
theorem readPax_paxRecord (hkey : 0x3D ∉ utf8 key) (val : JsString) (fuel : Nat) (rest : Bytes)
    (pax : Reader.Pax) : Reader.readPax (fuel + 1) (paxRecord key val ++ rest) pax =
    (pax.set (utf8 key) (utf8 val)).bind (Reader.readPax fuel rest) := by
  have hread := paxRecord_read hkey val rest
  have hlen := two_le_length_paxRecord key val
  cases hbytes : paxRecord key val ++ rest with
  | nil =>
    rw [(List.append_eq_nil_iff.1 hbytes).1] at hlen
    simp at hlen
  | cons b bytes =>
    rw [hbytes] at hread
    rw [Reader.readPax, hread]
    exact List.cons_ne_nil b bytes

/-- What the pax header of an entry says of it. -/
def paxOf (name : JsString) (size : Nat) : Reader.Pax :=
  ⟨if fitsUstarName name then none else some (utf8 name),
    if USTAR_MAX_SIZE < size then some size else none⟩

theorem readPax_sizeRecord (size fuel : Nat) (pax : Reader.Pax) :
    Reader.readPax (fuel + 1) (paxRecord (utf16 "size") (shownDigits size)) pax =
      some { pax with size := some size } := by
  have hkey : 0x3D ∉ utf8 (utf16 "size") := by decide
  have hset : pax.set (utf8 (utf16 "size")) (utf8 (shownDigits size)) =
      some { pax with size := some size } := by
    rw [Reader.Pax.set, if_neg (by decide), if_pos rfl, decimal_shownDigits]
    rfl
  have hread := readPax_paxRecord hkey (shownDigits size) fuel [] pax
  rw [List.append_nil, hset] at hread
  rw [hread]
  cases fuel with
  | zero => rfl
  | succ fuel => rfl

/-- The pax records of an entry are read as what they say of it. -/
theorem readPax_paxRecords (name : JsString) (size : Nat) {fuel : Nat} (hfuel : 2 ≤ fuel) :
    Reader.readPax fuel (TarWriter.paxRecords name size) Reader.Pax.empty =
      some (paxOf name size) := by
  obtain ⟨fuel, rfl⟩ : ∃ k, fuel = k + 1 + 1 := ⟨fuel - 2, by omega⟩
  have hkey : 0x3D ∉ utf8 (utf16 "path") := by decide
  unfold TarWriter.paxRecords paxOf
  by_cases hname : fitsUstarName name
  · rw [if_pos hname, if_pos hname, List.nil_append]
    split
    · exact readPax_sizeRecord size (fuel + 1) _
    · rfl
  · have hset : Reader.Pax.empty.set (utf8 (utf16 "path")) (utf8 name) =
        some ⟨some (utf8 name), none⟩ :=
      if_pos rfl
    rw [if_neg hname, if_neg hname, readPax_paxRecord hkey, hset, Option.bind_some]
    split
    · exact readPax_sizeRecord size fuel _
    · rfl

end Records

/-! ## The length of a pax header -/

section Lengths

theorem length_pieces_le (s : JsString) : (pieces s).length ≤ s.length := by
  induction s using pieces.induct with
  | case1 => exact le_rfl
  | case2 u => exact le_rfl
  | case3 u v rest hpair ih =>
    rw [pieces, if_pos hpair]
    simp only [List.length_cons]
    omega
  | case4 u v rest hpair ih =>
    rw [pieces, if_neg hpair]
    simp only [List.length_cons] at ih ⊢
    omega

theorem length_utf8_le (s : JsString) : (utf8 s).length ≤ 4 * s.length := by
  have hpiece : ∀ p : Piece, p.bytes.length ≤ 4 := by
    rintro (n | u)
    · exact length_bytes_le n
    · exact length_bytes_le replacement
  have hsum : ∀ ps : List Piece, (ps.flatMap Piece.bytes).length ≤ 4 * ps.length := by
    intro ps
    induction ps with
    | nil => exact le_rfl
    | cons p ps ih =>
      have hp := hpiece p
      rw [List.flatMap_cons, List.length_append, List.length_cons]
      omega
  have hpieces := length_pieces_le s
  have h := hsum (pieces s)
  unfold utf8
  omega

/-- A pax header holds its length. -/
theorem length_paxRecords_le (name : Name) (size : Size) :
    (TarWriter.paxRecords name.text size.value).length ≤ USTAR_MAX_SIZE := by
  have hname := length_utf8_le name.text
  have hshort := name.short
  have hdigits : (utf8 (shownDigits size.value)).length ≤ 16 := by
    have hsafe := size.safe
    rw [utf8_shownDigits, length_digitBytes]
    refine length_numeral_le (by omega) (by omega) ?_
    norm_num [MAX_SAFE_INTEGER] at hsafe ⊢
    omega
  have hpath := length_paxRecord_le (utf16 "path") name.text
  have hsize := length_paxRecord_le (utf16 "size") (shownDigits size.value)
  have hkeys : (utf8 (utf16 "path")).length = 4 ∧ (utf8 (utf16 "size")).length = 4 := by decide
  rw [hkeys.1] at hpath
  rw [hkeys.2] at hsize
  norm_num [MAX_STRING_LENGTH] at hshort
  norm_num [USTAR_MAX_SIZE, TarWriter.paxRecords, List.length_append]
  split
  · split
    · rw [List.length_nil]
      omega
    · simp
  · split
    · omega
    · rw [List.length_nil]
      omega

end Lengths

/-! ## Entries are read -/

section Read

variable {header content pax name rest : Bytes} {size : Nat} {said : Reader.Pax}

theorem inBlocks_eq (size : Nat) : Reader.inBlocks size = size + (padding size).length := by
  unfold Reader.inBlocks padding Reader.block
  dsimp only
  split
  · next h =>
    unfold BLOCK at h
    rw [List.length_nil]
    omega
  · next h =>
    unfold BLOCK at h ⊢
    rw [List.length_replicate]
    omega

/-- What a reader takes of a header and the content behind it. -/
theorem parts (hheader : header.length = BLOCK) (hcontent : content.length = size) (rest : Bytes) :
    slice (header ++ content ++ padding size ++ rest) 0 Reader.block = header ∧
      slice (header ++ content ++ padding size ++ rest) Reader.block size = content ∧
      (header ++ content ++ padding size ++ rest).drop (Reader.block + Reader.inBlocks size) =
        rest := by
  refine ⟨?_, ?_, ?_⟩
  · rw [List.append_assoc, List.append_assoc]
    exact slice_append_left hheader _
  · rw [List.append_assoc]
    exact slice_append hheader hcontent _
  · refine List.drop_left' ?_
    rw [inBlocks_eq, List.length_append, List.length_append, hheader, hcontent, Nat.add_assoc]
    rfl

theorem readEntries_pax (h : HeaderOf header name pax.length .pax) (hmax : pax.length ≤ USTAR_MAX_SIZE)
    (fuel : Nat) (rest : Bytes) (said : Reader.Pax) :
    Reader.readEntries (fuel + 1) (header ++ pax ++ padding pax.length ++ rest) said =
      (Reader.readPax pax.length pax Reader.Pax.empty).bind (Reader.readEntries fuel rest) := by
  obtain ⟨hfront, hpax, hrest⟩ := parts h.length (rfl : pax.length = pax.length) rest
  have hnonzero : ¬ header = List.replicate Reader.block 0 := h.ne_zeroBlock
  have hwhole : ¬ (header.length < Reader.block ∨ (!Reader.isHeader header) = true) := by
    rw [h.isHeader, h.length]
    simp [BLOCK, Reader.block]
  rw [Reader.readEntries]
  simp only [hfront]
  rw [if_neg hnonzero, if_neg hwhole, h.octal_size, h.type, min_eq_left hmax]
  simp only [EntryType.byte, hpax, hrest, lt_irrefl, if_false]

theorem readEntries_file (h : HeaderOf header name size .file) (hcontent : content.length = size)
    (hsize : said.size.getD (min size USTAR_MAX_SIZE) = size) (fuel : Nat) (rest : Bytes) :
    Reader.readEntries (fuel + 1) (header ++ content ++ padding size ++ rest) said =
      (Reader.readEntries fuel rest Reader.Pax.empty).map fun entries =>
        ⟨decode (said.path.getD (Reader.ustarName header)), size, content⟩ :: entries := by
  obtain ⟨hfront, hread, hrest⟩ := parts h.length hcontent rest
  have hnonzero : ¬ header = List.replicate Reader.block 0 := h.ne_zeroBlock
  have hwhole : ¬ (header.length < Reader.block ∨ (!Reader.isHeader header) = true) := by
    rw [h.isHeader, h.length]
    simp [BLOCK, Reader.block]
  rw [Reader.readEntries]
  simp only [hfront]
  rw [if_neg hnonzero, if_neg hwhole, h.octal_size, h.type]
  simp only [EntryType.byte, hsize, hread, hrest, hcontent, lt_irrefl, if_false]

end Read

/-! ## What is written -/

section Written

variable {device : Device} {digest : Bytes → JsString} {w w' : TarWriter}

/-- The bytes of a pax header, none for an entry that needs no record. -/
def paxBytes (digest : Bytes → JsString) (name : JsString) (size : Nat) (mtime : ℚ) : Bytes :=
  let pax := TarWriter.paxRecords name size
  if pax = [] then []
  else header (placeholderName digest (utf16 "PaxHeader/" ++ name)) pax.length mtime .pax ++ pax ++
    padding pax.length

def shownName (digest : Bytes → JsString) (name : JsString) : JsString :=
  if fitsUstarName name then name else placeholderName digest name

/-- The bytes of an entry. -/
def entryBytes (digest : Bytes → JsString) (name : JsString) (size : Nat) (mtime : ℚ)
    (content : Bytes) : Bytes :=
  paxBytes digest name size mtime ++
    (header (shownName digest name) size mtime .file ++ content ++ padding size)

/-- The parts a source is read in, until one is empty. -/
def Source.given (source : Source) : (fuel call left : Nat) → Bytes
  | 0, _, _ => []
  | fuel + 1, call, left =>
    if left = 0 then []
    else
      let part := source.read call (min (64 * 1024) left)
      if part = [] then [] else part ++ source.given fuel (call + 1) (left - part.length)

/-- What a source holds in an archive : the bytes it gave, and zeros up to its size. -/
def Source.content (source : Source) (size : Nat) : Bytes :=
  let given := source.given size 0 size
  given ++ List.replicate (size - given.length) 0

def Entry.size : Entry → Size
  | .file _ _ size _ => size
  | .buffer _ data _ => ⟨data.bytes.length, data.safe⟩

def Entry.content : Entry → Bytes
  | .file _ source size _ => source.content size.value
  | .buffer _ data _ => data.bytes

def Entry.mtime : Entry → ℚ
  | .file _ _ _ mtime => mtime
  | .buffer _ _ mtime => mtime

/-- The entry as it was added. -/
def Entry.added (entry : Entry) : TarEntry :=
  ⟨entry.name.text, entry.size.value, entry.content⟩

def Entry.bytes (digest : Bytes → JsString) (entry : Entry) : Bytes :=
  entryBytes digest entry.name.text entry.size.value entry.mtime entry.content

/-- Bytes were written behind what was there. -/
def Wrote (w : TarWriter) (bytes : Bytes) (w' : TarWriter) : Prop :=
  w'.out = w.out ++ bytes ∧ w'.finished = w.finished

theorem Wrote.trans {xs ys : Bytes} {w'' : TarWriter} (h : Wrote w xs w') (h' : Wrote w' ys w'') :
    Wrote w (xs ++ ys) w'' :=
  ⟨by rw [h'.1, h.1, List.append_assoc], h'.2.trans h.2⟩

theorem Wrote.nil (w : TarWriter) : Wrote w [] w :=
  ⟨(List.append_nil _).symm, rfl⟩

theorem writeAll_spec (device : Device) : ∀ (fuel : Nat) (w : TarWriter) (buf : Bytes),
    buf.length ≤ fuel → Wrote w buf (w.writeAll device fuel buf)
  | 0, w, buf, h => by
    rw [List.length_eq_zero_iff.1 (Nat.le_zero.1 h)]
    exact .nil w
  | fuel + 1, w, buf, h => by
    unfold TarWriter.writeAll
    split
    · next hnil =>
      rw [hnil]
      exact .nil w
    · next hbuf =>
      obtain ⟨hpos, -⟩ := device.progress w.calls buf.length (List.length_pos_of_ne_nil hbuf)
      obtain ⟨hout, hfinished⟩ := writeAll_spec device fuel
        { w with out := w.out ++ buf.take (device.count w.calls buf.length), calls := w.calls + 1 }
        (buf.drop (device.count w.calls buf.length)) (by
          rw [List.length_drop]
          omega)
      refine ⟨hout.trans ?_, hfinished⟩
      rw [List.append_assoc, List.take_append_drop]

/-- All bytes of a buffer are written, however many calls it takes. -/
theorem write_spec (device : Device) (w : TarWriter) (buf : Bytes) :
    Wrote w buf (w.write device buf) :=
  writeAll_spec device buf.length w buf le_rfl

theorem writePax_spec (device : Device) (digest : Bytes → JsString) (w : TarWriter)
    (name : JsString) (size : Nat) (mtime : ℚ) :
    Wrote w (paxBytes digest name size mtime) (w.writePax device digest name size mtime) := by
  unfold TarWriter.writePax paxBytes
  dsimp only
  split
  · exact .nil w
  · exact ((write_spec device w _).trans (write_spec device _ _)).trans (write_spec device _ _)

theorem writeHeaders_spec {name : JsString} {size : Nat} {mtime : ℚ}
    (h : w.writeHeaders device digest name size mtime = .ok w') :
    Wrote w (paxBytes digest name size mtime ++ header (shownName digest name) size mtime .file)
      w' := by
  unfold TarWriter.writeHeaders at h
  split at h
  · exact nomatch h
  · rw [← Except.ok.inj h]
    exact (writePax_spec device digest w name size mtime).trans (write_spec device _ _)

/-- The parts of a source are written as they are read. -/
theorem copy_spec (device : Device) (source : Source) (size : Nat) :
    ∀ (fuel call : Nat) (content : Bytes) (w : TarWriter),
      (w.copy device source size fuel call content).2 =
          content ++ source.given fuel call (size - content.length) ∧
        Wrote w (source.given fuel call (size - content.length))
          (w.copy device source size fuel call content).1
  | 0, _, content, w => ⟨(List.append_nil content).symm, .nil w⟩
  | fuel + 1, call, content, w => by
    unfold TarWriter.copy Source.given
    by_cases hdone : size ≤ content.length
    · rw [if_pos hdone, if_pos (Nat.sub_eq_zero_of_le hdone)]
      exact ⟨(List.append_nil content).symm, .nil w⟩
    · rw [if_neg hdone, if_neg (Nat.sub_ne_zero_of_lt (not_le.1 hdone))]
      dsimp only
      split
      · exact ⟨(List.append_nil content).symm, .nil w⟩
      · obtain ⟨hcontent, hwrote⟩ := copy_spec device source size fuel (call + 1)
          (content ++ source.read call (min (64 * 1024) (size - content.length)))
          (w.write device (source.read call (min (64 * 1024) (size - content.length))))
        rw [List.length_append, ← Nat.sub_sub] at hcontent hwrote
        refine ⟨?_, (write_spec device w _).trans hwrote⟩
        rw [hcontent, List.append_assoc]

/-- No more is read than the size. -/
theorem Source.length_given_le (source : Source) :
    ∀ fuel call left : Nat, (source.given fuel call left).length ≤ left
  | 0, _, left => Nat.zero_le left
  | fuel + 1, call, left => by
    unfold Source.given
    split
    · exact Nat.zero_le left
    · have hwithin := source.within call (min (64 * 1024) left)
      have hrest := source.length_given_le fuel (call + 1)
        (left - (source.read call (min (64 * 1024) left)).length)
      dsimp only
      split
      · exact Nat.zero_le left
      · rw [List.length_append]
        omega

theorem Source.length_content (source : Source) (size : Nat) :
    (source.content size).length = size := by
  have h := source.length_given_le size 0 size
  rw [Source.content, List.length_append, List.length_replicate]
  omega

theorem Entry.length_content : ∀ entry : Entry, entry.content.length = entry.size.value
  | .file _ source size _ => source.length_content size.value
  | .buffer _ _ _ => rfl

theorem addFile_spec {name : JsString} {source : Source} {size : Nat} {mtime : ℚ}
    {result : TarWriter × TarFileResult}
    (h : w.addFile device digest name source size mtime = .ok result) :
    Wrote w (entryBytes digest name size mtime (source.content size)) result.1 := by
  unfold TarWriter.addFile at h
  split at h
  · exact nomatch h
  · split at h
    · exact nomatch h
    · next w₁ heq =>
      obtain ⟨hcontent, hcopied⟩ := copy_spec device source size size 0 [] w₁
      rw [List.nil_append, List.length_nil, Nat.sub_zero] at hcontent
      rw [List.length_nil, Nat.sub_zero] at hcopied
      dsimp only at h
      rw [hcontent] at h
      rw [← Except.ok.inj h]
      have hfilled : Wrote w₁ (source.content size)
          (if (source.given size 0 size).length < size then
            (w₁.copy device source size size 0 []).1.write device
              (List.replicate (size - (source.given size 0 size).length) 0)
          else (w₁.copy device source size size 0 []).1) := by
        split
        · exact hcopied.trans (write_spec device _ _)
        · next hlong =>
          rw [Source.content, Nat.sub_eq_zero_of_le (not_lt.1 hlong), List.replicate_zero,
            List.append_nil]
          exact hcopied
      have hwrote := ((writeHeaders_spec heq).trans hfilled).trans
        (write_spec device _ (padding size))
      rwa [List.append_assoc, List.append_assoc, ← List.append_assoc (header ..)] at hwrote

theorem addBuffer_spec {name : JsString} {data : Bytes} {mtime : ℚ}
    (h : w.addBuffer device digest name data mtime = .ok w') :
    Wrote w (entryBytes digest name data.length mtime data) w' := by
  unfold TarWriter.addBuffer at h
  split at h
  · exact nomatch h
  · split at h
    · exact nomatch h
    · next heq =>
      cases h
      have hwrote := ((writeHeaders_spec heq).trans (write_spec device _ data)).trans
        (write_spec device _ (padding data.length))
      rwa [List.append_assoc, List.append_assoc, ← List.append_assoc (header ..)] at hwrote

/-- An entry is written behind what was there. -/
theorem add_spec : ∀ {entry : Entry}, w.add device digest entry = .ok w' →
    Wrote w (entry.bytes digest) w'
  | .file name source size mtime, h => by
    obtain ⟨result, hadd, rfl⟩ : ∃ result,
        w.addFile device digest name.text source size.value mtime = .ok result ∧ result.1 = w' := by
      have hmap : (w.addFile device digest name.text source size.value mtime).map Prod.fst =
        .ok w' := h
      cases hadd : w.addFile device digest name.text source size.value mtime with
      | error e =>
        rw [hadd] at hmap
        exact nomatch hmap
      | ok result =>
        rw [hadd] at hmap
        exact ⟨result, rfl, Except.ok.inj hmap⟩
    exact addFile_spec hadd
  | .buffer _ _ _, h => addBuffer_spec h

theorem addAll_spec : ∀ {entries : List Entry} {w : TarWriter},
    w.addAll device digest entries = .ok w' → Wrote w (entries.flatMap (Entry.bytes digest)) w'
  | [], w, h => Except.ok.inj h ▸ .nil w
  | entry :: entries, w, h => by
    unfold TarWriter.addAll at h
    split at h
    · exact nomatch h
    · next heq => exact (add_spec heq).trans (addAll_spec h)

/-- A writer that is not finished takes every entry whose name is no problem. -/
theorem add_accepts (device : Device) (digest : Bytes → JsString) (hopen : w.finished = false) :
    ∀ {entry : Entry}, tarNameProblem entry.name.text = none →
      ∃ w', w.add device digest entry = .ok w'
  | .file name source size mtime, hname => by
    unfold TarWriter.add TarWriter.addFile TarWriter.writeHeaders
    dsimp only
    rw [if_neg (by simp [hopen]), show tarNameProblem name.text = none from hname]
    exact ⟨_, rfl⟩
  | .buffer name data mtime, hname => by
    unfold TarWriter.add TarWriter.addBuffer TarWriter.writeHeaders
    dsimp only
    rw [if_neg (by simp [hopen]), show tarNameProblem name.text = none from hname]
    exact ⟨_, rfl⟩

theorem addAll_accepts (device : Device) (digest : Bytes → JsString) :
    ∀ {entries : List Entry} {w : TarWriter}, w.finished = false →
      (∀ entry ∈ entries, tarNameProblem entry.name.text = none) →
      ∃ w', w.addAll device digest entries = .ok w'
  | [], w, _, _ => ⟨w, rfl⟩
  | entry :: entries, w, hopen, hnames => by
    obtain ⟨w₁, hadd⟩ := add_accepts device digest hopen (hnames entry List.mem_cons_self)
    obtain ⟨w', hall⟩ := addAll_accepts device digest ((add_spec hadd).2.trans hopen)
      fun e he => hnames e (List.mem_cons_of_mem entry he)
    refine ⟨w', ?_⟩
    rw [TarWriter.addAll, hadd]
    exact hall

theorem finish_spec (device : Device) (h : w.finished = false) :
    (w.finish device).out = w.out ++ (zeroBlock ++ zeroBlock) := by
  have hwrote := (write_spec device w zeroBlock).trans (write_spec device _ zeroBlock)
  have hfinish : w.finish device =
      { (w.write device zeroBlock).write device zeroBlock with finished := true } :=
    if_neg (by
      rw [h]
      exact Bool.false_ne_true)
  rw [hfinish]
  dsimp only
  rw [hwrote.1]

end Written

/-! ## The archive -/

section Archive

variable {digest : Bytes → JsString} {entry : Entry} {rest : Bytes} {fuel : Nat}

/-- A name ustar holds is short and printable. -/
theorem ustar_of_fits {name : JsString} (h : fitsUstarName name = true) :
    (utf8 name).length ≤ 100 ∧ 0 ∉ utf8 name := by
  simp only [fitsUstarName, Bool.and_eq_true, decide_eq_true_eq, List.all_eq_true, isPrintable] at h
  obtain ⟨hlen, hprintable⟩ := h
  refine ⟨hlen, fun hzero => ?_⟩
  have hlow : ∀ u ∈ name, 0x20 ≤ u.toNat ∧ u.toNat ≤ 0x7E := by
    intro u hu
    obtain ⟨hlow, hhigh⟩ := hprintable u hu
    exact ⟨UInt16.le_iff_toNat_le.1 hlow, UInt16.le_iff_toNat_le.1 hhigh⟩
  rw [utf8_ascii fun u hu => by have := hlow u hu; omega] at hzero
  obtain ⟨u, hu, hbyte⟩ := List.mem_map.1 hzero
  have hbounds := hlow u hu
  have hval := congrArg UInt8.toNat hbyte
  rw [toNat_ofNat8 (by omega)] at hval
  simp at hval
  omega

/-- An entry is read behind what its pax header said. -/
theorem readEntries_said (digest : Bytes → JsString) (hwell : WellFormed entry.name.text)
    (fuel : Nat) (rest : Bytes) :
    Reader.readEntries (fuel + 1) (header (shownName digest entry.name.text) entry.size.value
        entry.mtime .file ++ entry.content ++ padding entry.size.value ++ rest)
      (paxOf entry.name.text entry.size.value) =
    (Reader.readEntries fuel rest Reader.Pax.empty).map (entry.added :: ·) := by
  have hspec := header_spec (shownName digest entry.name.text) entry.size.value entry.mtime .file
  have hsize : (paxOf entry.name.text entry.size.value).size.getD
      (min entry.size.value USTAR_MAX_SIZE) = entry.size.value := by
    unfold paxOf
    dsimp only
    split
    · rfl
    · next hsmall => exact min_eq_left (not_lt.1 hsmall)
  have hname : decode ((paxOf entry.name.text entry.size.value).path.getD (Reader.ustarName
      (header (shownName digest entry.name.text) entry.size.value entry.mtime .file))) =
      entry.name.text := by
    unfold paxOf
    dsimp only
    split
    · next hfits =>
      obtain ⟨hlen, hzero⟩ := ustar_of_fits hfits
      have hshown : shownName digest entry.name.text = entry.name.text := if_pos hfits
      rw [hshown] at hspec ⊢
      rw [Option.getD_none, hspec.ustarName hlen hzero, decode_utf8 hwell]
    · rw [Option.getD_some, decode_utf8 hwell]
  rw [readEntries_file hspec entry.length_content hsize, hname]
  rfl

/-- An entry that needs no record has none, and any record is two bytes or more. -/
theorem paxRecords_cases (name : JsString) (size : Nat) :
    (TarWriter.paxRecords name size = [] ∧ paxOf name size = Reader.Pax.empty) ∨
      2 ≤ (TarWriter.paxRecords name size).length := by
  have hpath := two_le_length_paxRecord (utf16 "path") name
  have hsize := two_le_length_paxRecord (utf16 "size") (shownDigits size)
  unfold TarWriter.paxRecords paxOf
  by_cases hfits : fitsUstarName name
  · rw [if_pos hfits, if_pos hfits]
    by_cases hlarge : USTAR_MAX_SIZE < size
    · rw [if_pos hlarge, List.nil_append]
      exact .inr hsize
    · rw [if_neg hlarge, if_neg hlarge]
      exact .inl ⟨rfl, rfl⟩
  · rw [if_neg hfits, List.length_append]
    exact .inr (hpath.trans (Nat.le_add_right _ _))

/-- An entry is read, and what is behind it. -/
theorem readEntries_entry (hwell : WellFormed entry.name.text)
    (hfuel : (entry.bytes digest ++ rest).length ≤ fuel) : ∃ left, rest.length ≤ left ∧
      Reader.readEntries fuel (entry.bytes digest ++ rest) Reader.Pax.empty =
        (Reader.readEntries left rest Reader.Pax.empty).map (entry.added :: ·) := by
  have hheader := (header_spec (shownName digest entry.name.text) entry.size.value entry.mtime
    .file).length
  unfold Entry.bytes entryBytes paxBytes at hfuel ⊢
  dsimp only at hfuel ⊢
  rcases paxRecords_cases entry.name.text entry.size.value with ⟨hnil, hempty⟩ | htwo
  · have hread := readEntries_said digest hwell
    rw [hempty] at hread
    rw [if_pos hnil] at hfuel ⊢
    simp only [List.nil_append, List.length_append, hheader, BLOCK] at hfuel
    obtain ⟨left, rfl⟩ : ∃ left, fuel = left + 1 := ⟨fuel - 1, by omega⟩
    refine ⟨left, by omega, ?_⟩
    rw [List.nil_append]
    exact hread left rest
  · have hpax : TarWriter.paxRecords entry.name.text entry.size.value ≠ [] := by
      intro hnil
      rw [hnil] at htwo
      simp at htwo
    have hmax := length_paxRecords_le entry.name entry.size
    have hspec := header_spec (placeholderName digest (utf16 "PaxHeader/" ++ entry.name.text))
      (TarWriter.paxRecords entry.name.text entry.size.value).length entry.mtime .pax
    rw [if_neg hpax] at hfuel ⊢
    simp only [List.length_append, hheader, hspec.length, BLOCK] at hfuel
    obtain ⟨left, rfl⟩ : ∃ left, fuel = left + 1 + 1 := ⟨fuel - 2, by omega⟩
    refine ⟨left, by omega, ?_⟩
    rw [List.append_assoc, readEntries_pax hspec hmax, readPax_paxRecords _ _ htwo,
      Option.bind_some, readEntries_said digest hwell left rest]

/-- Two blocks of zeros end an archive. -/
theorem readEntries_end (fuel : Nat) (said : Reader.Pax) :
    Reader.readEntries (fuel + 1) (zeroBlock ++ zeroBlock) said = some [] := by
  have hfirst : slice (zeroBlock ++ zeroBlock) 0 Reader.block = List.replicate Reader.block 0 :=
    slice_append_left length_zeroBlock zeroBlock
  have hsecond : slice (zeroBlock ++ zeroBlock) Reader.block Reader.block =
      List.replicate Reader.block 0 := by
    have h := slice_append length_zeroBlock length_zeroBlock []
    rwa [List.append_nil] at h
  rw [Reader.readEntries]
  simp only [hfirst, hsecond, if_true]

theorem readEntries_all : ∀ {entries : List Entry} {fuel : Nat},
    (∀ entry ∈ entries, WellFormed entry.name.text) →
    (entries.flatMap (Entry.bytes digest) ++ (zeroBlock ++ zeroBlock)).length ≤ fuel →
    Reader.readEntries fuel (entries.flatMap (Entry.bytes digest) ++ (zeroBlock ++ zeroBlock))
      Reader.Pax.empty = some (entries.map Entry.added)
  | [], fuel, _, hfuel => by
    rw [List.flatMap_nil, List.nil_append, List.length_append, length_zeroBlock, BLOCK] at hfuel
    obtain ⟨left, rfl⟩ : ∃ left, fuel = left + 1 := ⟨fuel - 1, by omega⟩
    exact readEntries_end left Reader.Pax.empty
  | entry :: entries, fuel, hwell, hfuel => by
    rw [List.flatMap_cons, List.append_assoc] at hfuel ⊢
    obtain ⟨left, hleft, hread⟩ := readEntries_entry (hwell entry List.mem_cons_self) hfuel
    rw [hread, readEntries_all (fun e he => hwell e (List.mem_cons_of_mem entry he)) hleft]
    rfl

/-- Bytes with their padding are whole blocks. -/
theorem dvd_padded (size : Nat) : BLOCK ∣ size + (padding size).length := by
  rw [← inBlocks_eq]
  exact Nat.dvd_mul_left _ _

theorem dvd_entry (digest : Bytes → JsString) (entry : Entry) :
    BLOCK ∣ (entry.bytes digest).length := by
  have hblock : ∀ (name : JsString) (size : Nat) (mtime : ℚ) (type : EntryType),
      BLOCK ∣ (header name size mtime type).length :=
    fun name size mtime type => (header_spec name size mtime type).length ▸ dvd_rfl
  have hpax : BLOCK ∣ (paxBytes digest entry.name.text entry.size.value entry.mtime).length := by
    unfold paxBytes
    dsimp only
    split
    · exact dvd_zero BLOCK
    · rw [List.length_append, List.length_append, Nat.add_assoc]
      exact (hblock _ _ _ _).add (dvd_padded _)
  rw [Entry.bytes, entryBytes, List.length_append, List.length_append, List.length_append,
    entry.length_content, Nat.add_assoc (header ..).length]
  exact hpax.add ((hblock _ _ _ _).add (dvd_padded _))

/-- What was added is read from the archive, name, size and content, in order, and two blocks of zeros
end it. -/
theorem archive_round_trip (device : Device) (digest : Bytes → JsString) (entries : List Entry)
    (w : TarWriter) (hwell : ∀ entry ∈ entries, WellFormed entry.name.text)
    (h : TarWriter.new.addAll device digest entries = .ok w) :
    readArchive (w.finish device).out = some (entries.map Entry.added) ∧
      BLOCK ∣ (w.finish device).out.length ∧
      ∃ front, (w.finish device).out = front ++ List.replicate (2 * BLOCK) 0 := by
  obtain ⟨hout, hopen⟩ := addAll_spec h
  have hfinish : (w.finish device).out =
      entries.flatMap (Entry.bytes digest) ++ (zeroBlock ++ zeroBlock) := by
    rw [finish_spec device hopen, hout]
    rfl
  have hblocks : zeroBlock ++ zeroBlock = List.replicate (2 * BLOCK) 0 := by
    rw [zeroBlock, List.replicate_append_replicate, Nat.two_mul]
  rw [hfinish]
  refine ⟨readEntries_all hwell le_rfl, ?_, _, congrArg _ hblocks⟩
  rw [List.length_append, List.length_append, length_zeroBlock, List.length_flatMap]
  refine (List.dvd_sum ?_).add (dvd_rfl.add dvd_rfl)
  intro n hn
  obtain ⟨entry, -, rfl⟩ := List.mem_map.1 hn
  exact dvd_entry digest entry

/-- A device that writes half of what it is given. -/
def halfDevice : Device :=
  ⟨fun _ given => (given + 1) / 2, by omega⟩

/-- A name ustar does not hold, before one it does. -/
def twoEntries : List Entry :=
  [.buffer ⟨utf16 "é/a", by decide⟩ ⟨[1, 2, 3], by decide⟩ 0,
    .buffer ⟨utf16 "b", by decide⟩ ⟨[], by decide⟩ 0]

theorem two_files_round_trip : ∃ w,
    TarWriter.new.addAll halfDevice (fun _ => []) twoEntries = .ok w ∧
      readArchive (w.finish halfDevice).out =
        some [⟨utf16 "é/a", 3, [1, 2, 3]⟩, ⟨utf16 "b", 0, []⟩] := by
  have hnames : ∀ entry ∈ twoEntries, tarNameProblem entry.name.text = none := by decide
  have hwell : ∀ entry ∈ twoEntries, WellFormed entry.name.text :=
    List.forall_mem_cons.2 ⟨WellFormed.utf16 "é/a",
      List.forall_mem_singleton.2 (WellFormed.utf16 "b")⟩
  have hopen : TarWriter.new.finished = false := rfl
  obtain ⟨w, hw⟩ := addAll_accepts halfDevice (fun _ => []) hopen hnames
  exact ⟨w, hw, (archive_round_trip halfDevice (fun _ => []) twoEntries w hwell hw).1⟩

end Archive

end Lynox.Tar
