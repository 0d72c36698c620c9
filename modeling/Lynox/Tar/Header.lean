import Lynox.Tar.Reader
import Lynox.Tar.Writer

/-!
# Headers are read back

A header is its fields, written one after the other over 512 zeros (`headerFields_eq`). The fields are
apart, so each is read as it was written (`slice_place`); of these are the fields a reader needs
(`header_spec`).
-/

namespace Lynox.Tar

open Fields Text

/-! ## Digits -/

section Digits

variable {base n width : Nat} {ds : List Nat} {rest : Bytes}

theorem toNat_digitByte {d : Nat} (h : d < 10) : (UInt8.ofNat (0x30 + d)).toNat = 0x30 + d := by
  rw [UInt8.toNat_ofNat']
  exact Nat.mod_eq_of_lt (by omega)

/-- Digits are read up to what is no digit. -/
theorem digitsOf_digitBytes (hbase : base ≤ 10) (hds : ∀ d ∈ ds, d < base)
    (hrest : ∀ b ∈ rest.head?, ¬ (0x30 ≤ b.toNat ∧ b.toNat < 0x30 + base)) :
    Reader.digitsOf base (digitBytes ds ++ rest) = (ds, rest) := by
  have hdigit : ∀ b ∈ digitBytes ds, 0x30 ≤ b.toNat ∧ b.toNat < 0x30 + base := by
    intro b hb
    obtain ⟨d, hd, rfl⟩ := List.mem_map.1 hb
    have := hds d hd
    rw [toNat_digitByte (by omega)]
    omega
  have hall : ∀ b ∈ digitBytes ds,
      (decide (0x30 ≤ b.toNat) && decide (b.toNat < 0x30 + base)) = true := by
    intro b hb
    simpa using hdigit b hb
  have hback : (digitBytes ds).map (fun b => b.toNat - 0x30) = ds := by
    rw [digitBytes, List.map_map]
    refine (List.map_congr_left fun d hd => ?_).trans (List.map_id ds)
    have := hds d hd
    show (UInt8.ofNat (0x30 + d)).toNat - 0x30 = d
    rw [toNat_digitByte (by omega)]
    omega
  unfold Reader.digitsOf
  dsimp only
  rw [List.takeWhile_append_of_pos hall, List.dropWhile_append_of_pos hall]
  cases rest with
  | nil => simp [hback]
  | cons b rest =>
    have hb : (decide (0x30 ≤ b.toNat) && decide (b.toNat < 0x30 + base)) = false := by
      simpa using hrest b rfl
    rw [List.takeWhile_cons_of_neg (by simp [hb]), List.dropWhile_cons_of_neg (by simp [hb]),
      List.append_nil, hback]

theorem octal_digits (n width : Nat) :
    ∀ d ∈ List.replicate (width - 1 - (numeral 8 n).length) 0 ++ numeral 8 n, d < 8 := by
  intro d hd
  rcases List.mem_append.1 hd with hd | hd
  · rw [(List.mem_replicate.1 hd).2]
    omega
  · exact numeral_lt (by omega) d hd

/-- A number that was written in octal digits is read back. -/
theorem octalField_octal (n width : Nat) (rest : Bytes) :
    Reader.octalField (octal n width ++ rest) = some n := by
  unfold octal Reader.octalField
  dsimp only
  rw [List.append_assoc, digitsOf_digitBytes (by omega) (octal_digits n width) (by simp)]
  have hvalue := value_pad 8 n (width - 1 - (numeral 8 n).length)
  cases hds : List.replicate (width - 1 - (numeral 8 n).length) 0 ++ numeral 8 n with
  | nil => exact absurd (List.append_eq_nil_iff.1 hds).2 (numeral_ne_nil 8 n)
  | cons d ds =>
    rw [hds] at hvalue
    show (if (0 : UInt8) = 0 ∨ (0 : UInt8) = 0x20 then some (value 8 (d :: ds)) else none) = some n
    rw [if_pos (.inl rfl), hvalue]

theorem length_octal (hwidth : 1 < width) (h : n < 8 ^ (width - 1)) :
    (octal n width).length = width := by
  have hle := length_numeral_le (b := 8) (by omega) (show 0 < width - 1 by omega) h
  simp only [octal, digitBytes, List.length_append, List.length_map, List.length_replicate,
    List.length_singleton]
  omega

end Digits

/-! ## Fields -/

/-- Bytes that are written into a block. -/
structure Field where
  bytes : Bytes
  off : Nat
  len : Nat

def Field.Fits (f : Field) : Prop :=
  f.off + f.len ≤ BLOCK

/-- The fields are written one after the other. -/
def place (buf : Bytes) (fs : List Field) : Bytes :=
  fs.foldl (fun buf f => write buf f.bytes f.off f.len) buf

theorem place_cons (buf : Bytes) (f : Field) (fs : List Field) :
    place buf (f :: fs) = place (write buf f.bytes f.off f.len) fs :=
  rfl

section Place

variable {buf bytes : Bytes} {off off' len len' : Nat} {fs : List Field} {f : Field}

theorem length_write (h : off + len ≤ buf.length) : (write buf bytes off len).length = buf.length :=
  length_put (by
    rw [List.length_take]
    omega)

theorem slice_write_of_disjoint (h : off + len ≤ buf.length)
    (hdisjoint : off' + len' ≤ off ∨ off + len ≤ off') :
    slice (write buf bytes off len) off' len' = slice buf off' len' := by
  refine slice_put_of_disjoint ?_ ?_
  · rw [List.length_take]
    omega
  · rw [List.length_take]
    omega

theorem slice_write (h : off + len ≤ buf.length) (hlen : bytes.length ≤ len) :
    slice (write buf bytes off len) off len =
      bytes ++ slice buf (off + bytes.length) (len - bytes.length) := by
  rw [write, List.take_of_length_le hlen]
  exact slice_put (by omega) hlen

theorem length_place (hbuf : buf.length = BLOCK) (h : ∀ f ∈ fs, f.Fits) :
    (place buf fs).length = BLOCK := by
  induction fs generalizing buf with
  | nil => exact hbuf
  | cons f fs ih =>
    have hf : f.off + f.len ≤ buf.length := hbuf ▸ h f List.mem_cons_self
    exact ih ((length_write hf).trans hbuf) fun g hg => h g (List.mem_cons_of_mem f hg)

/-- What no field is written over stays. -/
theorem slice_place_of_disjoint (hbuf : buf.length = BLOCK) (h : ∀ f ∈ fs, f.Fits)
    (hdisjoint : ∀ f ∈ fs, off + len ≤ f.off ∨ f.off + f.len ≤ off) :
    slice (place buf fs) off len = slice buf off len := by
  induction fs generalizing buf with
  | nil => rfl
  | cons f fs ih =>
    have hf : f.off + f.len ≤ buf.length := hbuf ▸ h f List.mem_cons_self
    refine (ih ((length_write hf).trans hbuf) (fun g hg => h g (List.mem_cons_of_mem f hg))
      fun g hg => hdisjoint g (List.mem_cons_of_mem f hg)).trans ?_
    exact slice_write_of_disjoint hf (hdisjoint f List.mem_cons_self)

/-- A field that no later field is written over is read. -/
theorem slice_place (before after : List Field) (hbuf : buf.length = BLOCK)
    (hbefore : ∀ g ∈ before, g.Fits) (hf : f.Fits) (hafter : ∀ g ∈ after, g.Fits)
    (hdisjoint : ∀ g ∈ after, f.off + f.len ≤ g.off ∨ g.off + g.len ≤ f.off)
    (hlen : f.bytes.length = f.len) :
    slice (place buf (before ++ f :: after)) f.off f.len = f.bytes := by
  have hplace : place buf (before ++ f :: after) =
      place (write (place buf before) f.bytes f.off f.len) after := by
    rw [place, List.foldl_append]
    rfl
  have hfits : f.off + f.len ≤ (place buf before).length := by
    rw [length_place hbuf hbefore]
    exact hf
  rw [hplace, slice_place_of_disjoint _ hafter hdisjoint, slice_write hfits hlen.le, hlen, Nat.sub_self,
    Fields.slice, List.take_zero, List.append_nil]
  rw [length_write hfits, length_place hbuf hbefore]

end Place

/-! ## Headers -/

section Headers

variable {buf : Bytes} {name : JsString} {size : Nat} {mtime : ℚ} {type : EntryType}

/-- An empty block. -/
def zeroBlock : Bytes :=
  List.replicate BLOCK 0

/-- The fields of a header behind its name, the checksum blank. -/
def fieldsBehind (size : Nat) (mtime : ℚ) (type : EntryType) : List Field :=
  [⟨octal 0o644 8, 100, 8⟩, ⟨octal 0 8, 108, 8⟩, ⟨octal 0 8, 116, 8⟩,
    ⟨octal (min size USTAR_MAX_SIZE) 12, 124, 12⟩,
    ⟨octal (min USTAR_MAX_SIZE ⌊mtime⌋.toNat) 12, 136, 12⟩, ⟨List.replicate 8 0x20, 148, 8⟩,
    ⟨[type.byte], 156, 1⟩, ⟨utf8 (utf16 "ustar") ++ [0], 257, 6⟩, ⟨utf8 (utf16 "00"), 263, 2⟩]

theorem headerFields_eq (name : JsString) (size : Nat) (mtime : ℚ) (type : EntryType) :
    headerFields name size mtime type =
      place zeroBlock (⟨utf8 name, 0, 100⟩ :: fieldsBehind size mtime type) :=
  rfl

/-- The checksum field. -/
def checksumField (buf : Bytes) : Field :=
  ⟨octal (sum buf) 7 ++ [0x20], 148, 8⟩

theorem header_eq (name : JsString) (size : Nat) (mtime : ℚ) (type : EntryType) :
    header name size mtime type =
      place zeroBlock (⟨utf8 name, 0, 100⟩ :: (fieldsBehind size mtime type ++
        [checksumField (headerFields name size mtime type)])) :=
  rfl

theorem length_zeroBlock : zeroBlock.length = BLOCK :=
  List.length_replicate

theorem fits_fieldsBehind (size : Nat) (mtime : ℚ) (type : EntryType) :
    ∀ f ∈ fieldsBehind size mtime type, f.Fits := by
  simp [fieldsBehind, Field.Fits, BLOCK]

theorem fits_name (name : JsString) : Field.Fits ⟨utf8 name, 0, 100⟩ := by
  simp [Field.Fits, BLOCK]

theorem length_headerFields (name : JsString) (size : Nat) (mtime : ℚ) (type : EntryType) :
    (headerFields name size mtime type).length = BLOCK := by
  rw [headerFields_eq]
  refine length_place length_zeroBlock fun f hf => ?_
  rcases List.mem_cons.1 hf with rfl | hf
  · exact fits_name name
  · exact fits_fieldsBehind size mtime type f hf

theorem sum_le (buf : Bytes) : sum buf ≤ buf.length * 255 := by
  induction buf with
  | nil => exact Nat.zero_le _
  | cons b buf ih =>
    have hb := b.toNat_lt
    have hsum : sum (b :: buf) = b.toNat + sum buf := rfl
    rw [List.length_cons, hsum]
    omega

/-- The checksum fits its six digits. -/
theorem length_checksumField (h : buf.length = BLOCK) :
    (checksumField buf).bytes.length = (checksumField buf).len := by
  have hsum := sum_le buf
  rw [h] at hsum
  have hoctal : (octal (sum buf) 7).length = 7 :=
    length_octal (by omega) (by
      norm_num [BLOCK] at hsum ⊢
      omega)
  simp [checksumField, hoctal]

/-- What a reader finds in a header. -/
structure HeaderOf (header : Bytes) (name : Bytes) (size : Nat) (type : EntryType) : Prop where
  length : header.length = BLOCK
  named : name.length ≤ 100 → slice header 0 100 = name ++ List.replicate (100 - name.length) 0
  unprefixed : slice header 345 155 = List.replicate 155 0
  size : slice header 124 12 = octal (min size USTAR_MAX_SIZE) 12
  type : slice header 156 1 = [type.byte]
  ustar : slice header 257 6 = utf8 (utf16 "ustar") ++ [0]
  version : slice header 263 2 = utf8 (utf16 "00")
  checksum : Reader.octalField (slice header 148 8) = some (Reader.checksum header)

theorem fits_header (name : JsString) (size : Nat) (mtime : ℚ) (type : EntryType) (buf : Bytes) :
    ∀ f ∈ ⟨utf8 name, 0, 100⟩ :: (fieldsBehind size mtime type ++ [checksumField buf]), f.Fits := by
  intro f hf
  rcases List.mem_cons.1 hf with rfl | hf
  · exact fits_name name
  · rcases List.mem_append.1 hf with hf | hf
    · exact fits_fieldsBehind size mtime type f hf
    · rw [List.mem_singleton.1 hf]
      exact (by decide : 148 + 8 ≤ 512)

/-- A field of a header is read, when no later one is written over it. -/
theorem slice_header (before after : List Field) {f : Field}
    (hfields : ⟨utf8 name, 0, 100⟩ :: (fieldsBehind size mtime type ++
      [checksumField (headerFields name size mtime type)]) = before ++ f :: after)
    (hdisjoint : ∀ g ∈ after, f.off + f.len ≤ g.off ∨ g.off + g.len ≤ f.off)
    (hlen : f.bytes.length = f.len) :
    slice (header name size mtime type) f.off f.len = f.bytes := by
  have hfits := fits_header name size mtime type (headerFields name size mtime type)
  rw [hfields] at hfits
  rw [header_eq, hfields]
  exact slice_place before after length_zeroBlock (fun g hg => hfits g (List.mem_append_left _ hg))
    (hfits f (List.mem_append_right _ List.mem_cons_self))
    (fun g hg => hfits g (List.mem_append_right _ (List.mem_cons_of_mem f hg))) hdisjoint hlen

/-- A blank checksum over the one that was written gives the fields. -/
theorem put_blank (name : JsString) (size : Nat) (mtime : ℚ) (type : EntryType) :
    put (header name size mtime type) 148 (List.replicate 8 0x20) =
      headerFields name size mtime type := by
  have hlen := length_headerFields name size mtime type
  have hchecksum := length_checksumField hlen
  have hbounds : 148 + 8 ≤ (headerFields name size mtime type).length := by
    rw [hlen]
    decide
  have hheader : header name size mtime type = put (headerFields name size mtime type) 148
      (checksumField (headerFields name size mtime type)).bytes := by
    show put _ 148 (List.take 8 _) = _
    rw [List.take_of_length_le]
    · rfl
    · exact hchecksum.le
  have hblank : slice (headerFields name size mtime type) 148 8 = List.replicate 8 0x20 := by
    have hfits := fits_fieldsBehind size mtime type
    rw [headerFields_eq]
    refine slice_place (f := ⟨List.replicate 8 0x20, 148, 8⟩)
      (⟨utf8 name, 0, 100⟩ :: (fieldsBehind size mtime type).take 5)
      ((fieldsBehind size mtime type).drop 6) length_zeroBlock (fun g hg => ?_)
      (by decide : 148 + 8 ≤ 512)
      (fun g hg => hfits g (List.mem_of_mem_drop hg)) ?_ (List.length_replicate ..)
    · rcases List.mem_cons.1 hg with rfl | hg
      · exact fits_name name
      · exact hfits g (List.mem_of_mem_take hg)
    · simp [fieldsBehind]
  rw [hheader, put_put (by rw [hchecksum]; exact hbounds) (by rw [hchecksum]; rfl)]
  exact put_slice hbounds hblank

theorem header_spec (name : JsString) (size : Nat) (mtime : ℚ) (type : EntryType) :
    HeaderOf (header name size mtime type) (utf8 name) size type := by
  have hfits := fits_header name size mtime type (headerFields name size mtime type)
  have hsize : (octal (min size USTAR_MAX_SIZE) 12).length = 12 :=
    length_octal (by omega) (by
      unfold USTAR_MAX_SIZE
      omega)
  have hlen := length_checksumField (length_headerFields name size mtime type)
  refine ⟨?_, fun hname => ?_, ?_, ?_, ?_, ?_, ?_, ?_⟩
  · rw [header_eq]
    exact length_place length_zeroBlock hfits
  · have hzero : 0 + 100 ≤ zeroBlock.length := length_zeroBlock ▸ (by decide : 0 + 100 ≤ 512)
    have hwrite : slice (write zeroBlock (utf8 name) 0 100) 0 100 =
        utf8 name ++ List.replicate (100 - (utf8 name).length) 0 := by
      rw [slice_write hzero hname, zeroBlock, slice_replicate]
      unfold BLOCK
      omega
    rw [← hwrite, header_eq, place_cons]
    refine slice_place_of_disjoint ((length_write hzero).trans length_zeroBlock)
      (fun f hf => hfits f (List.mem_cons_of_mem _ hf)) ?_
    simp [fieldsBehind, checksumField]
  · rw [header_eq, slice_place_of_disjoint length_zeroBlock hfits, zeroBlock, slice_replicate]
    · decide
    · simp [fieldsBehind, checksumField]
  · exact slice_header (f := ⟨octal (min size USTAR_MAX_SIZE) 12, 124, 12⟩)
      (⟨utf8 name, 0, 100⟩ :: (fieldsBehind size mtime type).take 3)
      ((fieldsBehind size mtime type).drop 4 ++ [_]) rfl (by simp [fieldsBehind, checksumField]) hsize
  · exact slice_header (f := ⟨[type.byte], 156, 1⟩)
      (⟨utf8 name, 0, 100⟩ :: (fieldsBehind size mtime type).take 6)
      ((fieldsBehind size mtime type).drop 7 ++ [_]) rfl (by simp [fieldsBehind, checksumField]) rfl
  · exact slice_header (f := ⟨utf8 (utf16 "ustar") ++ [0], 257, 6⟩)
      (⟨utf8 name, 0, 100⟩ :: (fieldsBehind size mtime type).take 7)
      ((fieldsBehind size mtime type).drop 8 ++ [_]) rfl (by simp [fieldsBehind, checksumField])
      (by decide)
  · exact slice_header (f := ⟨utf8 (utf16 "00"), 263, 2⟩)
      (⟨utf8 name, 0, 100⟩ :: (fieldsBehind size mtime type).take 8) [_] rfl
      (by simp [checksumField]) (by decide)
  · have hread : slice (header name size mtime type) 148 8 =
        octal (sum (headerFields name size mtime type)) 7 ++ [0x20] :=
      slice_header (f := checksumField (headerFields name size mtime type))
        (⟨utf8 name, 0, 100⟩ :: fieldsBehind size mtime type) [] rfl (by simp) hlen
    rw [hread, octalField_octal, Reader.checksum, put_blank]
    rfl

end Headers

/-! ## What a reader finds -/

namespace HeaderOf

variable {bytes name : Bytes} {size : Nat} {type : EntryType}

theorem isHeader (h : HeaderOf bytes name size type) : Reader.isHeader bytes = true := by
  have hustar : utf8 (utf16 "ustar") ++ [0] = [0x75, 0x73, 0x74, 0x61, 0x72, 0] := by decide
  have hversion : utf8 (utf16 "00") = [0x30, 0x30] := by decide
  rw [Reader.isHeader, h.checksum, h.ustar, h.version, hustar, hversion]
  simp

theorem octal_size (h : HeaderOf bytes name size type) :
    Reader.octalField (slice bytes 124 12) = some (min size USTAR_MAX_SIZE) := by
  have hread := octalField_octal (min size USTAR_MAX_SIZE) 12 []
  rwa [List.append_nil, ← h.size] at hread

theorem ne_zeroBlock (h : HeaderOf bytes name size type) : bytes ≠ zeroBlock := by
  rintro rfl
  have htype := h.type
  rw [zeroBlock, slice_replicate BLOCK 0 (by decide)] at htype
  cases type with
  | file => exact absurd htype (by decide)
  | pax => exact absurd htype (by decide)

/-- A name without NUL is read as it was written. -/
theorem ustarName (h : HeaderOf bytes name size type) (hlen : name.length ≤ 100)
    (hname : 0 ∉ name) : Reader.ustarName bytes = name := by
  have hread : Reader.textField (name ++ List.replicate (100 - name.length) 0) = name := by
    have hall : ∀ b ∈ name, decide (b ≠ 0) = true := by
      intro b hb
      exact decide_eq_true fun hzero => hname (hzero ▸ hb)
    rw [Reader.textField, List.takeWhile_append_of_pos hall]
    cases 100 - name.length with
    | zero => exact List.append_nil name
    | succ k => rw [List.replicate_succ, List.takeWhile_cons_of_neg (by simp), List.append_nil]
  have hprefix : Reader.textField (List.replicate 155 0) = [] := by decide
  rw [Reader.ustarName, h.unprefixed, hprefix, h.named hlen, hread]
  rfl

end HeaderOf

end Lynox.Tar
