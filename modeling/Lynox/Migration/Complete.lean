import Lynox.Migration.Session
import Lynox.Process.Run
import Mathlib.Data.Finset.Card

/-!
# A restore is complete and verified

Completeness is a count. It stands for the list of a manifest where the manifest is `Counted`, and the
chunks that were received stand for the manifest in force where none replaced another that they do not
pass (`Respects`). Then a session past its completeness check has every entry of its manifest, and what
it hands on has the entry's checksum (`restore_is_complete`).
-/

namespace Lynox.Migration

open Text

variable {Key : Type} {C : MigrationCrypto Key} {m : MigrationManifest} {s : MigrationSession Key}
  {importer : MigrationImporter Key}

/-! ## The condition -/

namespace MigrationManifest

/-- The sequence numbers a chunk of the manifest can have. -/
def seqs (m : MigrationManifest) : List ℚ :=
  ((m.chunks.map MigrationChunkMeta.seq).filter m.inRange).dedup

/-- The entries are as many as the manifest counts, each in range, those of one sequence number with one
checksum; or there are too few of them for it ever to be complete. -/
def Counted (m : MigrationManifest) : Prop :=
  (m.seqs.length : ℚ) < m.totalChunks ∨
    ((m.seqs.length : ℚ) = m.totalChunks ∧ (∀ e ∈ m.chunks, m.inRange e.seq = true) ∧
      ∀ e ∈ m.chunks, ∀ e' ∈ m.chunks, e.seq = e'.seq → e.checksum = e'.checksum)

/-- A chunk that passes against the manifest. -/
def Passes (C : MigrationCrypto Key) (m : MigrationManifest) (seq : ℚ) (data : Bytes) : Prop :=
  m.inRange seq = true ∧ ∃ e, m.find seq = some e ∧ C.sha256 data = e.checksum

end MigrationManifest

/-- A manifest that is taken counts its entries, and what was received before passes against it too. -/
def Respects (C : MigrationCrypto Key) (importer : MigrationImporter Key) : Op → Prop
  | .setManifest m => m.refused C = none → m.Counted ∧ ∀ s, importer = some s →
    ∀ c ∈ s.receivedChunks, m.Passes C c.1 c.2
  | _ => True

/-! ## What holds of a session -/

/-- Every entry of the manifest in force was received, and what is handed on under it has its
checksum. -/
def Complete (C : MigrationCrypto Key) (importer : MigrationImporter Key) : Prop :=
  ∀ s m, importer = some s → s.manifest = some m → s.isComplete = true → ∀ e ∈ m.chunks,
    ∃ data, Assoc.get s.receivedChunks e.seq = some data ∧
      ∀ handed, s.handsOn = .ok handed → ∀ type, e.type = type.text →
        (e, data) ∈ handed type ∧ ∀ data', (e, data') ∈ handed type → C.sha256 data' = e.checksum

/-- A buffer of a secrets entry that was filled with zeros. -/
def Wiped (m : MigrationManifest) (seq : ℚ) (data : Bytes) : Prop :=
  (∃ e ∈ m.chunks, e.seq = seq ∧ e.type = MigrationChunkType.secrets.text) ∧ ∀ b ∈ data, b = 0

/-- The invariant of a session. -/
structure Sound (C : MigrationCrypto Key) (s : MigrationSession Key) : Prop where
  keys : (s.receivedChunks.map Prod.fst).Nodup
  empty : s.manifest = none → s.receivedChunks = []
  counted : ∀ m, s.manifest = some m → m.Counted
  chunks : ∀ m, s.manifest = some m → ∀ c ∈ s.receivedChunks, m.inRange c.1 = true ∧
    ∃ e, m.find c.1 = some e ∧ (C.sha256 c.2 = e.checksum ∨ Wiped m c.1 c.2)

theorem find_mem {seq : ℚ} {e : MigrationChunkMeta} (h : m.find seq = some e) :
    e ∈ m.chunks ∧ e.seq = seq :=
  ⟨List.mem_of_find?_eq_some h, by simpa using List.find?_some h⟩

theorem mem_seqs {seq : ℚ} : seq ∈ m.seqs ↔ (∃ e ∈ m.chunks, e.seq = seq) ∧ m.inRange seq = true := by
  rw [MigrationManifest.seqs, List.mem_dedup, List.mem_filter, List.mem_map]

/-- Where as many chunks were received as are counted, every entry was, and the entries of one number
have one checksum. -/
theorem Sound.received (h : Sound C s) (hm : s.manifest = some m) (hcomplete : s.isComplete = true) :
    (∀ e ∈ m.chunks, e.seq ∈ s.receivedChunks.map Prod.fst) ∧
      ∀ e ∈ m.chunks, ∀ e' ∈ m.chunks, e.seq = e'.seq → e.checksum = e'.checksum := by
  have hsub : (s.receivedChunks.map Prod.fst).toFinset ⊆ m.seqs.toFinset := by
    intro seq hseq
    rw [List.mem_toFinset] at hseq ⊢
    obtain ⟨c, hc, rfl⟩ := List.mem_map.1 hseq
    obtain ⟨hrange, e, hfind, -⟩ := h.chunks m hm c hc
    exact mem_seqs.2 ⟨⟨e, find_mem hfind⟩, hrange⟩
  have hcard : (s.receivedChunks.map Prod.fst).toFinset.card = s.receivedChunks.length := by
    rw [List.toFinset_card_of_nodup h.keys, List.length_map]
  have hseqs : m.seqs.toFinset.card = m.seqs.length :=
    List.toFinset_card_of_nodup (List.nodup_dedup _)
  have htotal : (s.receivedChunks.length : ℚ) = m.totalChunks := by
    rw [MigrationSession.isComplete, hm] at hcomplete
    exact of_decide_eq_true hcomplete
  rcases h.counted m hm with hfew | ⟨hall, hrange, hsame⟩
  · have hle := Finset.card_le_card hsub
    rw [hcard, hseqs] at hle
    have hle' : (s.receivedChunks.length : ℚ) ≤ (m.seqs.length : ℚ) := by exact_mod_cast hle
    exact absurd (hle'.trans_lt hfew) (not_lt.2 htotal.ge)
  · have hle : m.seqs.toFinset.card ≤ (s.receivedChunks.map Prod.fst).toFinset.card := by
      rw [hcard, hseqs]
      exact_mod_cast (hall.trans htotal.symm).le
    have heq := Finset.eq_of_subset_of_card_le hsub hle
    refine ⟨fun e he => ?_, hsame⟩
    have hmem : e.seq ∈ m.seqs.toFinset :=
      List.mem_toFinset.2 (mem_seqs.2 ⟨⟨e, he, rfl⟩, hrange e he⟩)
    rw [← heq] at hmem
    exact List.mem_toFinset.1 hmem

/-- An entry of a type is handed on with what was received under its number. -/
theorem mem_group {metas : List MigrationChunkMeta} {data : List (ℚ × Bytes)}
    {type : MigrationChunkType} {e : MigrationChunkMeta} {buf : Bytes} :
    (e, buf) ∈ groupChunksByType metas data type ↔
      e ∈ metas ∧ Assoc.get data e.seq = some buf ∧ e.type = type.text := by
  rw [groupChunksByType, List.mem_filter, List.mem_filterMap]
  constructor
  · rintro ⟨⟨e', he', h⟩, htype⟩
    obtain ⟨buf', hbuf', heq⟩ := Option.map_eq_some_iff.1 h
    obtain ⟨rfl, rfl⟩ := Prod.mk.inj heq
    exact ⟨he', hbuf', of_decide_eq_true htype⟩
  · rintro ⟨he, hbuf, htype⟩
    exact ⟨⟨e, he, by rw [hbuf, Option.map_some]⟩, decide_eq_true htype⟩

/-! ## Zeros are no JSON -/

theorem decode_zeros : ∀ {data : Bytes}, (∀ b ∈ data, b = 0) →
    decode data = List.replicate data.length 0
  | [], _ => rfl
  | b :: data, h => by
    obtain rfl := h b List.mem_cons_self
    have ih := decode_zeros fun b hb => h b (List.mem_cons_of_mem _ hb)
    have hstep := decode_bytes (n := 0) (by decide) data
    rw [ih] at hstep
    exact hstep

/-- No value starts with a zero. -/
theorem parse_zero (s : JsString) : parse (0 :: s) = none := by
  have hnumber : parseNumber (0 :: s) = none := by
    have hdigits : parseDigits (0 :: s) = none := by
      simp [parseDigits, isDigit]
    simp [parseNumber, parseMagnitude, parseWhole, hdigits]
  have hvalue : ∀ n, parseValue (n + 1) (0 :: s) = none := by
    intro n
    rw [parseValue, skip_of_not_space (by decide)]
    simp [hnumber]
  rw [parse, hvalue, Option.bind_none]

theorem not_secretsDecode {data : Bytes} (h : ∀ b ∈ data, b = 0) : secretsDecode data = false := by
  have hnone : parse (decode data) = none := by
    rw [decode_zeros h]
    cases data with
    | nil => rfl
    | cons b data => exact parse_zero _
  rw [secretsDecode, hnone]

/-! ## Runs -/

/-- A session past its check hands on what its manifest lists. -/
theorem Sound.complete (h : Sound C s) : Complete C (some s) := by
  intro s' m hs hm hcomplete e he
  obtain rfl := Option.some.inj hs
  obtain ⟨hreceived, hsame⟩ := h.received hm hcomplete
  obtain ⟨data, hdata⟩ := Assoc.exists_get.2 (hreceived e he)
  refine ⟨data, hdata, fun handed hhanded type htype => ?_⟩
  have hgroups : groupChunksByType m.chunks s.receivedChunks = handed ∧
      ∀ c ∈ groupChunksByType m.chunks s.receivedChunks .secrets, secretsDecode c.2 = true := by
    rw [MigrationSession.handsOn, hm] at hhanded
    dsimp only at hhanded
    rw [hcomplete] at hhanded
    split at hhanded
    · exact nomatch hhanded
    · split at hhanded
      · next hdecode => exact ⟨Except.ok.inj hhanded, List.all_eq_true.1 hdecode⟩
      · exact nomatch hhanded
  obtain ⟨rfl, hdecode⟩ := hgroups
  refine ⟨mem_group.2 ⟨he, hdata, htype⟩, fun data' hdata' => ?_⟩
  obtain ⟨-, hget, -⟩ := mem_group.1 hdata'
  obtain rfl := Option.some.inj (hdata.symm.trans hget)
  obtain ⟨-, first, hfind, hverified⟩ := h.chunks m hm _ (Assoc.mem_of_get hget)
  obtain ⟨hfirst, hseq⟩ := find_mem hfind
  rcases hverified with hsum | ⟨⟨e', he', hseq', hsecret⟩, hzeros⟩
  · exact hsum.trans (hsame first hfirst e he hseq)
  · have hmem : (e', data) ∈ groupChunksByType m.chunks s.receivedChunks .secrets :=
      mem_group.2 ⟨he', hseq' ▸ hget, hsecret⟩
    exact nomatch (not_secretsDecode hzeros).symm.trans (hdecode _ hmem)

/-- The invariant of an importer. -/
def SoundImporter (C : MigrationCrypto Key) (importer : MigrationImporter Key) : Prop :=
  ∀ s, importer = some s → Sound C s

theorem sound_some (h : Sound C s) : SoundImporter C (some s) :=
  fun _ hs => Option.some.inj hs ▸ h

theorem SoundImporter.startHandshake (h : SoundImporter C importer) (now : Int)
    (privateKey challengeNonce : Bytes) :
    SoundImporter C (importer.startHandshake now privateKey challengeNonce).2 := by
  unfold MigrationImporter.startHandshake
  split
  · exact h
  · exact sound_some ⟨List.nodup_nil, fun _ => rfl, fun _ hm => (nomatch hm), fun _ hm => (nomatch hm)⟩

theorem SoundImporter.completeHandshake (h : SoundImporter C importer) (clientPubKey : JsString) :
    SoundImporter C (importer.completeHandshake C clientPubKey).2 := by
  unfold MigrationImporter.completeHandshake
  split
  · exact h
  · next s =>
    have hs := h s rfl
    split
    · exact h
    · split
      · exact h
      · exact sound_some ⟨hs.keys, hs.empty, hs.counted, hs.chunks⟩

theorem SoundImporter.setManifest (h : SoundImporter C importer)
    (hrespects : Respects C importer (.setManifest m)) :
    SoundImporter C (importer.setManifest C m).2 := by
  unfold MigrationImporter.setManifest
  split
  · exact h
  · next s =>
    have hs := h s rfl
    split
    · exact h
    · split
      · exact h
      · next htaken =>
        obtain ⟨hcounted, hpasses⟩ := hrespects htaken
        refine sound_some ⟨hs.keys, fun hm => (nomatch hm),
          fun m' hm => Option.some.inj hm ▸ hcounted, fun m' hm c hc => ?_⟩
        obtain rfl := Option.some.inj hm
        obtain ⟨hrange, e, hfind, hsum⟩ := hpasses s rfl c hc
        exact ⟨hrange, e, hfind, .inl hsum⟩

theorem SoundImporter.receiveChunk (h : SoundImporter C importer) (chunk : EncryptedChunk) :
    SoundImporter C (importer.receiveChunk C chunk).2 := by
  unfold MigrationImporter.receiveChunk
  split
  · exact h
  · next s =>
    have hs := h s rfl
    split
    · next key m hkey hm =>
      split
      · exact h
      · next hfresh =>
        split
        · exact h
        · next hrange =>
          split
          · exact h
          · split
            · exact h
            · next e hfind =>
              split
              · exact h
              · next hsum =>
                have hnew : chunk.seq ∉ s.receivedChunks.map Prod.fst :=
                  Assoc.get_eq_none.1 (by simpa using hfresh)
                refine sound_some ⟨?_, fun hnone => absurd (hm.symm.trans hnone) (by simp), hs.counted,
                  fun m' hm' c hc => ?_⟩
                · rw [List.map_append, List.map_singleton, ← List.concat_eq_append]
                  exact (List.nodup_concat _ _).2 ⟨hnew, hs.keys⟩
                · rcases List.mem_append.1 hc with hc | hc
                  · exact hs.chunks m' hm' c hc
                  · obtain rfl := List.mem_singleton.1 hc
                    obtain rfl := Option.some.inj (hm.symm.trans hm')
                    exact ⟨by simpa using hrange, e, hfind, .inl (not_not.1 hsum)⟩
    · exact h

/-- Buffers of secrets entries that were written are zeros. -/
theorem Sound.wipe (h : Sound C s) (hm : s.manifest = some m) (reached : ℕ) :
    Sound C (s.wipe m reached) := by
  have hkeys : (s.wipe m reached).receivedChunks.map Prod.fst = s.receivedChunks.map Prod.fst := by
    rw [MigrationSession.wipe, List.map_map]
    refine List.map_congr_left fun c _ => ?_
    simp only [Function.comp_apply]
    split <;> rfl
  refine ⟨hkeys ▸ h.keys, fun hnone => (nomatch hm.symm.trans hnone), h.counted, fun m' hm' c hc => ?_⟩
  obtain rfl := Option.some.inj (hm.symm.trans hm')
  obtain ⟨c₀, hc₀, rfl⟩ := List.mem_map.1 hc
  obtain ⟨hrange, e, hfind, hverified⟩ := h.chunks m hm c₀ hc₀
  split
  · next hwiped =>
    refine ⟨hrange, e, hfind, .inr ⟨?_, fun b hb => ?_⟩⟩
    · obtain ⟨c', hc', hseq⟩ := List.mem_map.1 hwiped
      obtain ⟨he', -, hsecret⟩ := mem_group.1 (List.mem_of_mem_take hc')
      exact ⟨c'.1, he', hseq, hsecret⟩
    · obtain ⟨-, -, rfl⟩ := List.mem_map.1 hb
      rfl
  · exact ⟨hrange, e, hfind, hverified⟩

theorem SoundImporter.restore (h : SoundImporter C importer) (reached : ℕ) :
    SoundImporter C (importer.restore reached).2 := by
  unfold MigrationImporter.restore
  split
  · exact h
  · next s =>
    split
    · next m _ hm => exact sound_some ((h s rfl).wipe hm reached)
    · exact h
    · exact h

theorem SoundImporter.step (h : SoundImporter C importer) {op : Op} (hrespects : Respects C importer op) :
    SoundImporter C (step C importer op) := by
  cases op with
  | startHandshake now privateKey challengeNonce => exact h.startHandshake now privateKey challengeNonce
  | completeHandshake clientPubKey => exact h.completeHandshake clientPubKey
  | setManifest m => exact h.setManifest hrespects
  | receiveChunk chunk => exact h.receiveChunk chunk
  | isComplete => exact h
  | restore reached => exact h.restore reached
  | cleanup => exact fun _ hs => nomatch hs

/-- Over every sequence of calls in which each manifest that is taken counts its entries and fits what
was received before it : past its completeness check a session has received every entry of the manifest
in force, and what it hands on under an entry has the entry's checksum. -/
theorem restore_is_complete (C : MigrationCrypto Key) (ops : List Op)
    (h : Run.Obeys (step C) (Respects C) none ops) : Complete C (Run.after (step C) none ops) := by
  have hsound : SoundImporter C (Run.after (step C) none ops) :=
    Run.invariant_of (fun _ _ hs hrespects => hs.step hrespects) (fun _ hs => nomatch hs) h
  intro s m hs hm hcomplete e he
  exact (hsound s hs).complete s m rfl hm hcomplete e he

/-! ## Sessions -/

/-- The digest of an empty bundle. -/
def sampleChecksum : JsString :=
  utf16 "aae5a71db7cd42382ef749f87ca847684d9d4a517cc8235f53ea31bd492c3577"

def sampleMeta (seq : ℚ) (type : MigrationChunkType) : MigrationChunkMeta :=
  ⟨seq, type.text, type.text, 12, sampleChecksum⟩

/-- A manifest that counts one chunk. -/
def sampleManifest (chunks : List MigrationChunkMeta) (manifestHash : String) : MigrationManifest :=
  { version := 1
    exportedAt := utf16 "2026-09-01T00:00:00.000Z"
    lynoxVersion := utf16 "2.16.0"
    totalChunks := 1
    chunks := chunks
    manifestHash := utf16 manifestHash }

/-- A manifest of one entry, and one that lists a second. -/
def oneEntry : MigrationManifest :=
  sampleManifest [sampleMeta 0 .memory]
    "e397162cac988ceebc1dbb5c0eb2ce84742071126c31826ec313d464bc58d602"

def twoEntries : MigrationManifest :=
  sampleManifest [sampleMeta 0 .memory, sampleMeta 1 .sweeps]
    "26dc8ff52aef8ea6d7a57786713bf34f368f67f02abd299819066e2ac0191473"

def sampleBundle : Bytes :=
  utf8 (utf16 "\x7b\"files\":\x7b\x7d\x7d")

def sampleEntryText (seq type : String) : JsString :=
  utf16 "\x7b\"seq\":" ++ utf16 seq ++ utf16 ",\"type\":\"" ++ utf16 type ++
    utf16 "\",\"name\":\"" ++ utf16 type ++ utf16 "\",\"originalSize\":12,\"checksum\":\"" ++
    sampleChecksum ++ utf16 "\"\x7d"

def sampleCanonical (m : ManifestBase) : Bytes :=
  utf8 (utf16 "\x7b\"version\":1,\"exportedAt\":\"2026-09-01T00:00:00.000Z\"," ++
    utf16 "\"lynoxVersion\":\"2.16.0\",\"totalChunks\":1,\"chunks\":[" ++
    sampleEntryText "0" "memory" ++
    (if m.chunks.length = 1 then [] else 0x2C :: sampleEntryText "1" "sweeps") ++ utf16 "]\x7d")

/-- Digests of the texts above, and a cipher that opens the bundle. -/
def sampleCrypto : MigrationCrypto Unit :=
  { deriveTransferKey := fun _ _ _ => some ()
    decryptChunk := fun _ _ _ => some sampleBundle
    sha256 := fun data =>
      if data = sampleBundle then sampleChecksum
      else if data = sampleCanonical oneEntry.toManifestBase then oneEntry.manifestHash
      else twoEntries.manifestHash
    canonical := sampleCanonical }

/-- A session that receives the first chunk of a manifest. -/
def sampleOps (m : MigrationManifest) : List Op :=
  [.startHandshake 0 [] [], .completeHandshake [], .setManifest m,
    .receiveChunk ⟨0, [], [], utf16 "eA=="⟩]

theorem sample_is_complete :
    Complete sampleCrypto (Run.after (step sampleCrypto) none (sampleOps oneEntry)) := by
  refine restore_is_complete sampleCrypto (sampleOps oneEntry) ⟨trivial, trivial, ?_, trivial, trivial⟩
  intro _
  refine ⟨.inr ⟨by decide +kernel, by decide +kernel, by decide +kernel⟩, fun s hs c hc => ?_⟩
  have hnone : s.receivedChunks = [] :=
    (Option.some.inj hs) ▸ rfl
  rw [hnone] at hc
  exact nomatch hc

/-- One chunk of two is received, and the session is complete. -/
theorem sample_is_not_complete :
    ¬ Complete sampleCrypto (Run.after (step sampleCrypto) none (sampleOps twoEntries)) := by
  intro h
  have hsession : (match Run.after (step sampleCrypto) none (sampleOps twoEntries) with
    | some s => s.isComplete && (Assoc.get s.receivedChunks 1).isNone &&
        s.manifest.any fun m => decide (sampleMeta 1 .sweeps ∈ m.chunks)
    | none => false) = true := by decide +kernel
  split at hsession
  · next s hs =>
    rw [Bool.and_eq_true, Bool.and_eq_true] at hsession
    obtain ⟨⟨hcomplete, hmissing⟩, hlisted⟩ := hsession
    obtain ⟨m, hm, hentry⟩ := (Option.any_eq_true _ _).1 hlisted
    obtain ⟨data, hdata, -⟩ := h s m hs hm hcomplete _ (of_decide_eq_true hentry)
    exact nomatch (Option.isNone_iff_eq_none.1 hmissing).symm.trans hdata
  · exact nomatch hsession

end Lynox.Migration
