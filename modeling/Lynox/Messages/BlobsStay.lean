import Lynox.Data.UseOrder
import Lynox.Messages.BlobStore

/-!
# What was set aside stays readable

Every call of the store is made of moves (`Move`) : a blob is used again, one is added under a new id,
the one not used for longest is dropped, or all are. Each move keeps the maps of the store in agreement
(`Sound`), so the byte count is the sum of what is retained, an id never comes back, one content is kept
once, and the blobs stand in the order of their last use.

`collapseIn` makes room before it writes a stub and adds no blob without room. So the stubs it leaves name
blobs of the former texts, which later calls with the same caps do not drop (`Store.run_kept`).
-/

namespace Lynox.Messages.Blobs

open Text UseOrder

variable {ι β : Type} {L : Labels ι} {s s' s'' : Store} {id id' : JsString} {blob b : ToolResultBlob}
  {uses used : List JsString} {maxEntries maxBytes : ℤ}

theorem idOf_injective : Function.Injective idOf := fun _ _ h =>
  shownDigits_inj (List.append_cancel_left h)

/-- The payload of every retained blob. -/
def Store.payloads (s : Store) : List JsString :=
  s.blobs.map fun e => e.2.payload

/-- How long some payloads are together. -/
def totalLength (payloads : List JsString) : ℤ :=
  ((payloads.map List.length).sum : ℕ)

/-! ## Maps that agree -/

/-- The maps of the store agree. -/
structure Store.Sound (L : Labels ι) (s : Store) : Prop where
  nodup : (s.blobs.map Prod.fst).Nodup
  bytes : s.totalBytes = totalLength s.payloads
  ids : ∀ id ∈ s.blobs.map Prod.fst, ∃ n ≤ s.seq, id = idOf n
  content : ∀ {id blob}, (id, blob) ∈ s.blobs →
    Assoc.get s.contentById id = some (L.contentKey blob.payload)
  index : ∀ {key id}, Assoc.get s.idByContent key = some id →
    ∃ blob, (id, blob) ∈ s.blobs ∧ L.contentKey blob.payload = key

/-- Every blob is found under its content. -/
def Store.Indexed (L : Labels ι) (s : Store) : Prop :=
  ∀ {id blob}, (id, blob) ∈ s.blobs → Assoc.get s.idByContent (L.contentKey blob.payload) = some id

/-- One move of the store, with the ids it uses. -/
inductive Move (L : Labels ι) : Store → List JsString → Store → Prop
  | touch {s : Store} {id : JsString} {blob : ToolResultBlob} (h : Assoc.get s.blobs id = some blob) :
      Move L s [id] { s with blobs := Assoc.erase s.blobs id ++ [(id, blob)] }
  | mint {s : Store} (tool descriptor payload ident : JsString)
      (h : ∀ e, Assoc.get s.idByContent (L.contentKey payload) = some e →
        ∀ blob, Assoc.get s.blobs e = some blob → blob.payload ≠ payload) :
      Move L s [idOf (s.seq + 1)]
        { blobs := s.blobs ++ [(idOf (s.seq + 1), ⟨tool, descriptor, payload, ident⟩)]
          seq := s.seq + 1
          totalBytes := s.totalBytes + payload.length
          idByContent := Assoc.set s.idByContent (L.contentKey payload) (idOf (s.seq + 1))
          contentById := Assoc.set s.contentById (idOf (s.seq + 1)) (L.contentKey payload) }
  | drop {s : Store} {id : JsString} {blob : ToolResultBlob} {rest : List (JsString × ToolResultBlob)}
      (h : s.blobs = (id, blob) :: rest) :
      Move L s []
        { blobs := rest
          seq := s.seq
          totalBytes := s.totalBytes - blob.payload.length
          idByContent :=
            if Assoc.get s.idByContent (L.contentKey blob.payload) = some id then
              Assoc.erase s.idByContent (L.contentKey blob.payload)
            else s.idByContent
          contentById := Assoc.erase s.contentById id }
  | clear {s : Store} : Move L s [] s.clear

/-- Some moves after another. -/
inductive Moves (L : Labels ι) : Store → List JsString → Store → Prop
  | refl (s : Store) : Moves L s [] s
  | tail {s s' s'' : Store} {uses used : List JsString} (h : Moves L s uses s') (hmove : Move L s' used s'') :
      Moves L s (uses ++ used) s''

theorem Moves.trans (h : Moves L s uses s') (h' : Moves L s' used s'') : Moves L s (uses ++ used) s'' := by
  induction h' with
  | refl => rwa [List.append_nil]
  | tail _ hmove ih => rw [← List.append_assoc]; exact ih.tail hmove

theorem Move.moves (h : Move L s used s') : Moves L s used s' :=
  Moves.tail (.refl s) h

section Touch

theorem mem_keys {m : List (JsString × ToolResultBlob)} (h : (id, blob) ∈ m) : id ∈ m.map Prod.fst :=
  List.mem_map.2 ⟨_, h, rfl⟩

/-- A blob that is used again stands at the end, and the blobs are the same. -/
theorem perm_touch {m : List (JsString × ToolResultBlob)} (hnodup : (m.map Prod.fst).Nodup)
    (h : Assoc.get m id = some blob) : (Assoc.erase m id ++ [(id, blob)]).Perm m := by
  obtain ⟨front, back, rfl⟩ := List.append_of_mem (Assoc.mem_of_get h)
  rw [List.map_append, List.map_cons, List.nodup_append] at hnodup
  obtain ⟨-, hback, hdisjoint⟩ := hnodup
  have hfront : ∀ e ∈ front, decide (e.1 ≠ id) = true := fun e he => by
    simpa using hdisjoint e.1 (List.mem_map_of_mem he) id List.mem_cons_self
  have hrest : ∀ e ∈ back, decide (e.1 ≠ id) = true := fun e he => by
    simpa using fun heq : e.1 = id => (List.nodup_cons.1 hback).1 (List.mem_map.2 ⟨e, he, heq⟩)
  have herase : Assoc.erase (front ++ (id, blob) :: back) id = front ++ back := by
    rw [Assoc.erase, List.filter_append, List.filter_eq_self.2 hfront, List.filter_cons,
      if_neg (by simp), List.filter_eq_self.2 hrest]
  rw [herase]
  exact (List.perm_append_singleton _ _).trans List.perm_middle.symm

theorem keys_erase {m : List (JsString × ToolResultBlob)} :
    (Assoc.erase m id).map Prod.fst = (m.map Prod.fst).filter (· ≠ id) := by
  rw [Assoc.erase, List.filter_map]
  rfl

end Touch

theorem Store.Sound.empty : Store.empty.Sound L :=
  { nodup := List.nodup_nil, bytes := rfl, ids := fun _ h => (nomatch h)
    content := fun h => (nomatch h), index := fun h => (nomatch h) }

/-- The next id is new. -/
theorem Store.Sound.fresh (h : s.Sound L) : idOf (s.seq + 1) ∉ s.blobs.map Prod.fst := by
  intro hmem
  obtain ⟨n, hn, heq⟩ := h.ids _ hmem
  have := idOf_injective heq
  omega

theorem Store.Sound.mem_iff (h : s.Sound L) : Assoc.get s.blobs id = some blob ↔ (id, blob) ∈ s.blobs :=
  ⟨Assoc.mem_of_get, Assoc.get_of_mem h.nodup⟩

theorem totalLength_append (xs ys : List JsString) :
    totalLength (xs ++ ys) = totalLength xs + totalLength ys := by
  simp [totalLength]

theorem totalLength_perm {xs ys : List JsString} (h : xs.Perm ys) : totalLength xs = totalLength ys := by
  rw [totalLength, totalLength, (h.map List.length).sum_eq]

theorem Store.Sound.move (h : s.Sound L) (hmove : Move L s used s') : s'.Sound L := by
  cases hmove with
  | clear =>
    exact { nodup := List.nodup_nil, bytes := rfl, ids := fun _ h => (nomatch h)
            content := fun h => (nomatch h), index := fun h => (nomatch h) }
  | touch hget =>
    have hperm := perm_touch h.nodup hget
    exact {
      nodup := (hperm.map Prod.fst).nodup_iff.2 h.nodup
      bytes := h.bytes.trans (totalLength_perm (hperm.map _)).symm
      ids := fun id hid => h.ids id ((hperm.map Prod.fst).mem_iff.1 hid)
      content := fun hmem => h.content (hperm.mem_iff.1 hmem)
      index := fun hkey => (h.index hkey).imp fun _ hmem => ⟨hperm.mem_iff.2 hmem.1, hmem.2⟩ }
  | mint tool descriptor payload ident hnew =>
    exact {
      nodup := by
        rw [List.map_append, List.map_singleton, List.nodup_append]
        refine ⟨h.nodup, List.nodup_singleton _, fun x hx y hy => ?_⟩
        have hy : y = idOf (s.seq + 1) := List.mem_singleton.1 hy
        exact fun heq => h.fresh (hy ▸ heq ▸ hx)
      bytes := by
        rw [Store.payloads, List.map_append, totalLength_append, ← Store.payloads, h.bytes]
        simp [totalLength]
      ids := fun id hid => by
        rw [List.map_append, List.mem_append] at hid
        rcases hid with hid | hid
        · obtain ⟨n, hn, heq⟩ := h.ids id hid
          exact ⟨n, Nat.le_succ_of_le hn, heq⟩
        · exact ⟨_, le_rfl, List.mem_singleton.1 hid⟩
      content := fun {id blob} hmem => by
        rcases List.mem_append.1 hmem with hmem | hmem
        · have hne : id ≠ idOf (s.seq + 1) := fun heq => h.fresh (heq ▸ mem_keys hmem)
          rw [Assoc.get_set_of_ne hne, h.content hmem]
        · obtain ⟨rfl, rfl⟩ := Prod.mk.inj (List.mem_singleton.1 hmem)
          exact Assoc.get_set_self
      index := fun {key id} hkey => by
        rw [Assoc.get_set] at hkey
        split_ifs at hkey with heq
        · obtain rfl := Option.some.inj hkey
          exact ⟨_, List.mem_append_right _ List.mem_cons_self, heq.symm⟩
        · obtain ⟨blob, hmem, hblob⟩ := h.index hkey
          exact ⟨blob, List.mem_append_left _ hmem, hblob⟩ }
  | @drop id blob rest hblobs =>
    have hnodup := h.nodup
    rw [hblobs, List.map_cons, List.nodup_cons] at hnodup
    have hne : ∀ {id' b}, (id', b) ∈ rest → id' ≠ id := fun hmem heq =>
      hnodup.1 (heq ▸ mem_keys hmem)
    have hmem : ∀ {e}, e ∈ rest → e ∈ s.blobs := fun he => hblobs ▸ List.mem_cons_of_mem _ he
    exact {
      nodup := hnodup.2
      bytes := by
        have := h.bytes
        rw [Store.payloads, hblobs, List.map_cons] at this
        simp only [totalLength, List.map_cons, List.sum_cons, Nat.cast_add] at this ⊢
        rw [this, Store.payloads]
        ring
      ids := fun id hid => by
        obtain ⟨e, he, rfl⟩ := List.mem_map.1 hid
        exact h.ids e.1 (List.mem_map_of_mem (hmem he))
      content := fun hrest => by
        rw [Assoc.get_erase, if_neg (hne hrest), h.content (hmem hrest)]
      index := fun {key id'} hkey => by
        -- What the index names, under whichever key, is still there.
        have hstays : Assoc.get s.idByContent key = some id' → key ≠ L.contentKey blob.payload ∨ id' ≠ id →
            ∃ b, (id', b) ∈ rest ∧ L.contentKey b.payload = key := by
          intro hkey hother
          obtain ⟨b, hb, hbkey⟩ := h.index hkey
          rw [hblobs, List.mem_cons] at hb
          rcases hb with heq | hb
          · obtain ⟨rfl, rfl⟩ := Prod.mk.inj heq
            exact absurd hbkey.symm (hother.resolve_right (not_not.2 rfl))
          · exact ⟨b, hb, hbkey⟩
        dsimp only at hkey
        split_ifs at hkey with hindexed
        · rw [Assoc.get_erase] at hkey
          split_ifs at hkey with heq
          exact hstays hkey (.inl heq)
        · refine hstays hkey (or_iff_not_imp_left.2 fun heq hid => hindexed ?_)
          rw [← not_not.1 heq, hkey, hid] }

/-- Distinct contents are told apart. -/
theorem Store.Indexed.move (h : s.Sound L) (hinj : Function.Injective L.contentKey) (hindexed : s.Indexed L)
    (hmove : Move L s used s') : s'.Indexed L := by
  cases hmove with
  | clear => exact fun hmem => nomatch hmem
  | touch hget => exact fun hmem => hindexed ((perm_touch h.nodup hget).mem_iff.1 hmem)
  | mint tool descriptor payload ident hnew =>
    intro id' b hmem
    dsimp only at hmem ⊢
    rcases List.mem_append.1 hmem with hmem | hmem
    · rw [Assoc.get_set]
      split_ifs with hkey
      · have hfound := hindexed hmem
        rw [hkey] at hfound
        exact absurd (hinj hkey) (hnew _ hfound _ (h.mem_iff.2 hmem))
      · exact hindexed hmem
    · obtain ⟨rfl, rfl⟩ := Prod.mk.inj (List.mem_singleton.1 hmem)
      exact Assoc.get_set_self
  | @drop id blob rest hblobs =>
    intro id' b hmem
    have hnodup := h.nodup
    rw [hblobs, List.map_cons, List.nodup_cons] at hnodup
    have hne : id' ≠ id := fun heq => hnodup.1 (heq ▸ mem_keys hmem)
    have hfound := hindexed (hblobs ▸ List.mem_cons_of_mem _ hmem : (id', b) ∈ s.blobs)
    dsimp only
    split_ifs with hdropped
    · rw [Assoc.get_erase, if_neg fun heq => hne ?_, hfound]
      rw [heq, hdropped] at hfound
      exact (Option.some.inj hfound).symm
    · exact hfound

theorem Move.inOrder (hmove : Move L s used s') (h : s.Sound L)
    (horder : InOrder uses (s.blobs.map Prod.fst)) : InOrder (uses ++ used) (s'.blobs.map Prod.fst) := by
  cases hmove with
  | clear => exact inOrder_nil _
  | touch hget =>
    rw [List.map_append, keys_erase]
    exact horder.touch _
  | mint tool descriptor payload ident hnew =>
    have hkeys : (s.blobs.map Prod.fst).filter (· ≠ idOf (s.seq + 1)) = s.blobs.map Prod.fst :=
      List.filter_eq_self.2 fun id hid => by
      simpa using fun heq : id = idOf (s.seq + 1) => h.fresh (heq ▸ hid)
    rw [List.map_append, ← hkeys]
    exact horder.touch _
  | drop hblobs =>
    have := horder.drop 1
    rw [hblobs] at this
    simpa using this

/-- An id that is found was found before, or is new. -/
theorem Move.ids (hmove : Move L s used s') (h : s.Sound L) : s.seq ≤ s'.seq ∧
    ∀ {id b}, Assoc.get s'.blobs id = some b →
      Assoc.get s.blobs id = some b ∨ ∃ n, s.seq < n ∧ n ≤ s'.seq ∧ id = idOf n := by
  have hsound := h.move hmove
  cases hmove with
  | clear => exact ⟨le_rfl, fun hget => nomatch hget⟩
  | touch hget =>
    refine ⟨le_rfl, fun hfound => .inl ?_⟩
    exact h.mem_iff.2 ((perm_touch h.nodup hget).mem_iff.1 (hsound.mem_iff.1 hfound))
  | mint tool descriptor payload ident hnew =>
    refine ⟨Nat.le_succ _, fun hfound => ?_⟩
    rcases List.mem_append.1 (hsound.mem_iff.1 hfound) with hmem | hmem
    · exact .inl (h.mem_iff.2 hmem)
    · exact .inr ⟨_, Nat.lt_succ_self _, le_rfl, (Prod.mk.inj (List.mem_singleton.1 hmem)).1⟩
  | drop hblobs =>
    refine ⟨le_rfl, fun hfound => .inl (h.mem_iff.2 ?_)⟩
    rw [hblobs]
    exact List.mem_cons_of_mem _ (hsound.mem_iff.1 hfound)

/-! ## Runs of moves -/

section Runs

theorem Moves.sound (h : Moves L s uses s') (hs : s.Sound L) : s'.Sound L := by
  induction h with
  | refl => exact hs
  | tail _ hmove ih => exact ih.move hmove

theorem Moves.indexed (h : Moves L s uses s') (hs : s.Sound L) (hinj : Function.Injective L.contentKey)
    (hindexed : s.Indexed L) : s'.Indexed L := by
  induction h with
  | refl => exact hindexed
  | tail hmoves hmove ih => exact ih.move (hmoves.sound hs) hinj hmove

theorem Moves.inOrder (h : Moves L s used s') (hs : s.Sound L)
    (horder : InOrder uses (s.blobs.map Prod.fst)) : InOrder (uses ++ used) (s'.blobs.map Prod.fst) := by
  induction h with
  | refl => rwa [List.append_nil]
  | tail hmoves hmove ih => rw [← List.append_assoc]; exact hmove.inOrder (hmoves.sound hs) ih

theorem Moves.ids (h : Moves L s uses s') (hs : s.Sound L) : s.seq ≤ s'.seq ∧
    ∀ {id b}, Assoc.get s'.blobs id = some b →
      Assoc.get s.blobs id = some b ∨ ∃ n, s.seq < n ∧ n ≤ s'.seq ∧ id = idOf n := by
  induction h with
  | refl => exact ⟨le_rfl, .inl⟩
  | tail hmoves hmove ih =>
    obtain ⟨hle, hids⟩ := hmove.ids (hmoves.sound hs)
    refine ⟨ih.1.trans hle, fun hfound => ?_⟩
    rcases hids hfound with hfound | ⟨n, hlt, hn, rfl⟩
    · exact (ih.2 hfound).imp_right fun ⟨n, hlt, hn, heq⟩ => ⟨n, hlt, hn.trans hle, heq⟩
    · exact .inr ⟨n, ih.1.trans_lt hlt, hn, rfl⟩

end Runs

/-! ## What each call does -/

section Calls

/-- A call that uses an id leaves it found. -/
theorem Store.get_eq (h : Assoc.get s.blobs id = some blob) :
    s.get id = (some blob, { s with blobs := Assoc.erase s.blobs id ++ [(id, blob)] }) := by
  unfold Store.get
  rw [h]
  have hnot : id ∉ (Assoc.erase s.blobs id).map Prod.fst := by
    rw [keys_erase]
    simp
  simp only [Assoc.set, if_neg hnot]

theorem Store.get_of_none (h : Assoc.get s.blobs id = none) : s.get id = (none, s) := by
  unfold Store.get
  rw [h]

theorem Store.get_moves (L : Labels ι) (s : Store) (id : JsString) :
    Moves L s (if (s.get id).1.isSome then [id] else []) (s.get id).2 := by
  cases h : Assoc.get s.blobs id with
  | none =>
    rw [Store.get_of_none h]
    exact .refl s
  | some blob =>
    rw [Store.get_eq h]
    exact (Move.touch h).moves

theorem Store.drop_move (hs : s.Sound L) {rest : List (JsString × ToolResultBlob)}
    (h : s.blobs = (id, blob) :: rest) : Move L s [] (s.drop id blob) ∧ (s.drop id blob).blobs = rest := by
  have hkey := hs.content (h ▸ List.mem_cons_self : (id, blob) ∈ s.blobs)
  have hnodup := hs.nodup
  rw [h, List.map_cons, List.nodup_cons] at hnodup
  have hrest : Assoc.erase s.blobs id = rest := by
    rw [h, Assoc.erase, List.filter_cons, if_neg (by simp)]
    refine List.filter_eq_self.2 fun e he => ?_
    simpa using fun heq : e.1 = id => hnodup.1 (List.mem_map.2 ⟨e, he, heq⟩)
  have heq : s.drop id blob =
      { blobs := rest
        seq := s.seq
        totalBytes := s.totalBytes - blob.payload.length
        idByContent :=
          if Assoc.get s.idByContent (L.contentKey blob.payload) = some id then
            Assoc.erase s.idByContent (L.contentKey blob.payload)
          else s.idByContent
        contentById := Assoc.erase s.contentById id } := by
    unfold Store.drop
    dsimp only
    rw [hkey, hrest]
  rw [heq]
  exact ⟨.drop h, rfl⟩

/-- The store is within the caps when these blobs are left. -/
def Fits (maxEntries maxBytes : ℤ) (blobs : List (JsString × ToolResultBlob)) : Prop :=
  (blobs.length : ℤ) ≤ maxEntries ∧ totalLength (blobs.map fun e => e.2.payload) ≤ maxBytes

theorem Store.Sound.fits_iff (hs : s.Sound L) : s.fits maxEntries maxBytes = true ↔
    Fits maxEntries maxBytes s.blobs := by
  rw [Store.fits, Bool.and_eq_true, decide_eq_true_eq, decide_eq_true_eq, hs.bytes]
  rfl

/-- Blobs are dropped from the front until the rest is within the caps. -/
theorem Store.pruneOver_spec (maxEntries maxBytes : ℤ) :
    ∀ {blobs : List (JsString × ToolResultBlob)} {s : Store}, s.Sound L → s.blobs = blobs →
      Moves L s [] (s.pruneOver maxEntries maxBytes blobs) ∧
      ∃ n ≤ blobs.length, (s.pruneOver maxEntries maxBytes blobs).blobs = blobs.drop n ∧
        (∀ m < n, ¬ Fits maxEntries maxBytes (blobs.drop m)) ∧
        (Fits maxEntries maxBytes (blobs.drop n) ∨ n = blobs.length)
  | [], s, _, h => ⟨.refl s, 0, le_rfl, h, fun _ hm => absurd hm (Nat.not_lt_zero _), .inr rfl⟩
  | (id, blob) :: rest, s, hs, h => by
    unfold Store.pruneOver
    split_ifs with hfits
    · refine ⟨.refl s, 0, Nat.zero_le _, h, fun _ hm => absurd hm (Nat.not_lt_zero _), .inl ?_⟩
      rw [List.drop_zero, ← h]
      exact hs.fits_iff.1 hfits
    · obtain ⟨hmove, hrest⟩ := Store.drop_move hs h
      obtain ⟨hmoves, n, hn, hblobs, hbefore, hafter⟩ :=
        Store.pruneOver_spec maxEntries maxBytes (hs.move hmove) hrest
      refine ⟨hmove.moves.trans hmoves, n + 1, Nat.succ_le_succ hn, hblobs, fun m hm => ?_,
        hafter.imp_right fun heq => by rw [heq, List.length_cons]⟩
      cases m with
      | zero =>
        rw [List.drop_zero, ← h]
        exact fun hfit => hfits (hs.fits_iff.2 hfit)
      | succ m => exact hbefore m (Nat.lt_of_succ_lt_succ hm)

/-- There is room for a payload. -/
def Room (capacity : Option Capacity) (s : Store) (payload : JsString) : Prop :=
  ∀ c ∈ capacity, (s.blobs.length : ℤ) + 1 ≤ c.maxEntries ∧ s.totalBytes + payload.length ≤ c.maxBytes

/-- What a parked result left behind : nothing where no handle is returned, else the blob of its text, which is
found under the handle. The blobs that were there are. -/
structure Parked (L : Labels ι) (s s' : Store) (payload : JsString) (capacity : Option Capacity)
    (parked : Option (Handle × ℕ)) : Prop where
  moves : ∃ used, Moves L s used s' ∧
    (Function.Injective L.contentKey → used = (parked.map fun p => p.1.id).toList)
  kept : ∀ {id b}, Assoc.get s.blobs id = some b → Assoc.get s'.blobs id = some b
  found : ∀ p ∈ parked, p.2 = payload.length ∧
    ∃ blob, Assoc.get s'.blobs p.1.id = some blob ∧ blob.payload = payload
  room : s'.blobs.Perm s.blobs ∧ s'.totalBytes = s.totalBytes ∨
    Room capacity s payload ∧ s'.blobs.length = s.blobs.length + 1 ∧
      s'.totalBytes = s.totalBytes + payload.length

theorem Parked.none_refl (s : Store) (payload : JsString) (capacity : Option Capacity) :
    Parked L s s payload capacity none where
  moves := ⟨[], .refl s, fun _ => rfl⟩
  kept := id
  found _ hp := nomatch hp
  room := .inl ⟨.refl _, rfl⟩

theorem Store.mint_parked (hs : s.Sound L) (tool payload ident : JsString) (capacity : Option Capacity)
    (hnew : ∀ e, Assoc.get s.idByContent (L.contentKey payload) = some e →
      ∀ blob, Assoc.get s.blobs e = some blob → blob.payload ≠ payload) :
    Parked L s (s.mint L tool payload ident (L.contentKey payload) capacity).2 payload capacity
      (s.mint L tool payload ident (L.contentKey payload) capacity).1 := by
  unfold Store.mint
  split_ifs with hfull
  · exact .none_refl s payload capacity
  · have hblobs : ∀ blob, Assoc.set s.blobs (idOf (s.seq + 1)) blob =
        s.blobs ++ [(idOf (s.seq + 1), blob)] := fun blob => by rw [Assoc.set, if_neg hs.fresh]
    dsimp only
    rw [hblobs]
    have hmove := Move.mint (L := L) tool (L.buildDescriptor tool payload ident) payload ident hnew
    have hsound := hs.move hmove
    exact {
      moves := ⟨_, hmove.moves, fun _ => rfl⟩
      kept := fun hget => hsound.mem_iff.2 (List.mem_append_left _ (hs.mem_iff.1 hget))
      found := fun p hp => by
        obtain rfl := Option.some.inj hp
        exact ⟨rfl, _, hsound.mem_iff.2 (List.mem_append_right _ List.mem_cons_self), rfl⟩
      room := by
        refine .inr ⟨fun c hc => ?_, by simp, rfl⟩
        obtain rfl : capacity = some c := hc
        simp only [Option.elim_some, Bool.or_eq_true, decide_eq_true_eq, not_or, not_lt] at hfull
        exact hfull }

/-- A blob that is used again, and then another that is kept. -/
theorem Parked.after_touch {payload : JsString} {capacity : Option Capacity} {parked : Option (Handle × ℕ)}
    (hs : s.Sound L) (h : Assoc.get s.blobs id = some blob)
    (hparked : Parked L { s with blobs := Assoc.erase s.blobs id ++ [(id, blob)] } s' payload capacity parked)
    (hclash : ¬ Function.Injective L.contentKey) : Parked L s s' payload capacity parked := by
  have hperm := perm_touch hs.nodup h
  have hsound := hs.move (Move.touch h)
  obtain ⟨⟨used, hmoves, -⟩, hkept, hfound, hroom⟩ := hparked
  refine ⟨⟨_, (Move.touch h).moves.trans hmoves, fun hinj => absurd hinj hclash⟩, fun hget => hkept ?_, hfound, ?_⟩
  · exact hsound.mem_iff.2 (hperm.mem_iff.2 (hs.mem_iff.1 hget))
  · rcases hroom with ⟨hsame, hbytes⟩ | ⟨hcap, hlen, hbytes⟩
    · exact .inl ⟨hsame.trans hperm, hbytes⟩
    · dsimp only at hlen
      rw [hperm.length_eq] at hlen
      refine .inr ⟨fun c hc => ?_, hlen, hbytes⟩
      have := hcap c hc
      rwa [hperm.length_eq] at this

theorem Store.park_parked (hs : s.Sound L) (r : ResultBlock β) (toolCalls : List (JsString × JsString × ι))
    (thresholdChars : ℤ) (capacity : Option Capacity) :
    Parked L s (s.park L r toolCalls thresholdChars capacity).2 (toolResultText r.content) capacity
      (s.park L r toolCalls thresholdChars capacity).1 := by
  unfold Store.park
  dsimp only
  split_ifs with hshort
  · exact .none_refl _ _ _
  cases hkey : Assoc.get s.idByContent (L.contentKey (toolResultText r.content)) with
  | none => exact Store.mint_parked hs _ _ _ _ fun e he => by rw [hkey] at he; cases he
  | some existingId =>
    obtain ⟨existing, hmem, hcontent⟩ := hs.index hkey
    have hget := hs.mem_iff.2 hmem
    dsimp only
    rw [Store.get_eq hget]
    dsimp only
    have hsound := hs.move (Move.touch hget)
    have hthere := hsound.mem_iff.2 (List.mem_append_right (Assoc.erase s.blobs existingId) List.mem_cons_self)
    by_cases hsame : existing.payload = toolResultText r.content
    · rw [if_pos hsame]
      have hperm := perm_touch hs.nodup hget
      exact {
        moves := ⟨_, (Move.touch hget).moves, fun _ => rfl⟩
        kept := fun hfound => hsound.mem_iff.2 (hperm.mem_iff.2 (hs.mem_iff.1 hfound))
        found := fun p hp => by
          obtain rfl := Option.some.inj hp
          exact ⟨rfl, existing, hthere, hsame⟩
        room := .inl ⟨hperm, rfl⟩ }
    · -- Two contents share a key.
      rw [if_neg hsame]
      refine Parked.after_touch hs hget (Store.mint_parked hsound _ _ _ _ fun e he b hb => ?_)
        fun hinj => hsame (hinj hcontent)
      dsimp only at he
      rw [hkey] at he
      obtain rfl := Option.some.inj he
      rw [hthere] at hb
      exact Option.some.inj hb ▸ hsame

theorem Store.evictBlocks_moves (toolCalls : List (JsString × JsString × ι)) (thresholdChars : ℤ) :
    ∀ (bs : List (Block ι β)) {s : Store}, s.Sound L → ∃ used,
      Moves L s used (s.evictBlocks L toolCalls thresholdChars bs).2 ∧
      (Function.Injective L.contentKey →
        used = (s.evictBlocks L toolCalls thresholdChars bs).1.map Handle.id)
  | [], s, _ => ⟨[], .refl s, fun _ => rfl⟩
  | .toolResult r :: bs, s, hs => by
    obtain ⟨used, hmoves, hused⟩ := (Store.park_parked hs r toolCalls thresholdChars none).moves
    obtain ⟨used', hmoves', hused'⟩ := evictBlocks_moves toolCalls thresholdChars bs (hmoves.sound hs)
    refine ⟨_, hmoves.trans hmoves', fun hinj => ?_⟩
    rw [hused hinj, hused' hinj, Store.evictBlocks, List.map_append]
    cases (s.park L r toolCalls thresholdChars none).1 <;> rfl
  | .toolUse _ _ _ :: bs, _, hs => evictBlocks_moves toolCalls thresholdChars bs hs
  | .other _ :: bs, _, hs => evictBlocks_moves toolCalls thresholdChars bs hs

/-- The store is within the caps, or has nothing to drop. -/
def Store.Within (capacity : Capacity) (s : Store) : Prop :=
  Fits capacity.maxEntries capacity.maxBytes s.blobs ∨ s.blobs = []

theorem Store.Within.of_perm {capacity : Capacity} (h : s.Within capacity) (hperm : s'.blobs.Perm s.blobs) :
    s'.Within capacity := by
  refine h.imp (fun hfits => ?_) fun (hnil : s.blobs = []) => List.Perm.eq_nil (hnil ▸ hperm)
  unfold Fits at hfits ⊢
  rwa [hperm.length_eq, totalLength_perm (hperm.map _)]

/-- Results are parked one after another, and nothing is dropped. -/
structure Collapses (L : Labels ι) (capacity : Capacity) (s s' : Store) (handles : List Handle) : Prop where
  moves : ∃ used, Moves L s used s' ∧ (Function.Injective L.contentKey → used = handles.map Handle.id)
  kept : ∀ {id b}, Assoc.get s.blobs id = some b → Assoc.get s'.blobs id = some b
  within : s.Within capacity → s'.Within capacity

variable {capacity : Capacity} {handles handles' : List Handle}

theorem Collapses.refl (s : Store) : Collapses L capacity s s [] :=
  ⟨⟨[], .refl s, fun _ => rfl⟩, id, id⟩

theorem Collapses.trans (h : Collapses L capacity s s' handles) (h' : Collapses L capacity s' s'' handles') :
    Collapses L capacity s s'' (handles ++ handles') := by
  obtain ⟨used, hmoves, hused⟩ := h.moves
  obtain ⟨used', hmoves', hused'⟩ := h'.moves
  refine ⟨⟨_, hmoves.trans hmoves', fun hinj => ?_⟩, fun hget => h'.kept (h.kept hget),
    fun hwithin => h'.within (h.within hwithin)⟩
  rw [hused hinj, hused' hinj, List.map_append]

theorem Collapses.sound (h : Collapses L capacity s s' handles) (hs : s.Sound L) : s'.Sound L :=
  have ⟨_, hmoves, _⟩ := h.moves
  hmoves.sound hs

theorem Parked.collapses {payload : JsString} {parked : Option (Handle × ℕ)} (hs : s.Sound L)
    (h : Parked L s s' payload (some capacity) parked) :
    Collapses L capacity s s' (parked.map Prod.fst).toList := by
  obtain ⟨used, hmoves, hused⟩ := h.moves
  refine ⟨⟨used, hmoves, fun hinj => ?_⟩, h.kept, fun hwithin => ?_⟩
  · rw [hused hinj]
    cases parked <;> rfl
  · rcases h.room with ⟨hperm, -⟩ | ⟨hroom, hlen, hbytes⟩
    · exact hwithin.of_perm hperm
    · obtain ⟨hentries, hsize⟩ := hroom capacity rfl
      have := (hmoves.sound hs).bytes
      refine .inl ⟨by rw [hlen]; exact_mod_cast hentries, ?_⟩
      rw [← Store.payloads, ← this, hbytes]
      exact hsize

/-! ## Stubs -/

/-- The blocks of a content that are no text. -/
def ResultContent.others : ResultContent β → List (Inner β)
  | .blocks bs => bs.filter fun b => !b.isText
  | _ => []

/-- A result whose text gave way to a stub, which names a blob of the text. -/
def Stubs (L : Labels ι) (s : Store) (b b' : Block ι β) : Prop :=
  ∃ r r' descriptor id blob, b = .toolResult r ∧ b' = .toolResult r' ∧
    toolResultText r'.content =
      recallStub L id descriptor (L.containsUntrustedMarker (toolResultText r.content)) ∧
    Assoc.get s.blobs id = some blob ∧ blob.payload = toolResultText r.content ∧
    r'.content.others = r.content.others ∧ r'.toolUseId = r.toolUseId ∧ r'.isError = r.isError ∧
    r'.fields = r.fields

theorem Stubs.mono {b b' : Block ι β} (h : Stubs L s b b')
    (hkept : ∀ {id blob}, Assoc.get s.blobs id = some blob → Assoc.get s'.blobs id = some blob) :
    Stubs L s' b b' := by
  obtain ⟨r, r', descriptor, id, blob, hb, hb', htext, hget, hrest⟩ := h
  exact ⟨r, r', descriptor, id, blob, hb, hb', htext, hkept hget, hrest⟩

theorem stubbed_spec (r : ResultBlock β) (stub : JsString) :
    toolResultText (r.stubbed stub).content = stub ∧ (r.stubbed stub).content.others = r.content.others ∧
      (r.stubbed stub).toolUseId = r.toolUseId ∧ (r.stubbed stub).isError = r.isError ∧
      (r.stubbed stub).fields = r.fields := by
  unfold ResultBlock.stubbed
  cases hcontent : r.content with
  | text s => exact ⟨rfl, rfl, rfl, rfl, rfl⟩
  | missing => exact ⟨rfl, rfl, rfl, rfl, rfl⟩
  | blocks bs =>
    refine ⟨?_, ?_, rfl, rfl, rfl⟩
    · have hothers : (bs.filter fun b => !b.isText).flatMap Inner.shownText = [] := by
        rw [List.flatMap_eq_nil_iff]
        intro b hb
        cases b with
        | text s => exact absurd (List.mem_filter.1 hb).2 (by simp [Inner.isText])
        | other block => rfl
      simp only [toolResultText, List.flatMap_cons, hothers, List.append_nil]
      rfl
    · simp [ResultContent.others, Inner.isText, List.filter_filter]

/-- A block that is as it was, or a stub. -/
def SameOrStub (L : Labels ι) (s : Store) (b b' : Block ι β) : Prop :=
  b' = b ∨ Stubs L s b b'

/-- A message that is as it was, or a user's whose results are stubs. -/
def SameButStubs (L : Labels ι) (s : Store) (msg msg' : Message ι β) : Prop :=
  msg' = msg ∨ ∃ bs bs', msg = ⟨.user, .blocks bs⟩ ∧ msg' = ⟨.user, .blocks bs'⟩ ∧
    List.Forall₂ (SameOrStub L s) bs bs'

theorem Store.collapseBlock_spec (hs : s.Sound L) (toolCalls : List (JsString × JsString × ι))
    (thresholdChars : ℤ) (capacity : Capacity) (beforeAnchor : Bool) (b : Block ι β) :
    Collapses L capacity s (s.collapseBlock L toolCalls thresholdChars capacity beforeAnchor b).2.2
      (s.collapseBlock L toolCalls thresholdChars capacity beforeAnchor b).2.1.handles ∧
    SameOrStub L (s.collapseBlock L toolCalls thresholdChars capacity beforeAnchor b).2.2 b
      (s.collapseBlock L toolCalls thresholdChars capacity beforeAnchor b).1 := by
  cases b with
  | toolUse id name input => exact ⟨.refl s, .inl rfl⟩
  | other block => exact ⟨.refl s, .inl rfl⟩
  | toolResult r =>
    have hparked := Store.park_parked hs r toolCalls thresholdChars (some capacity)
    have hcollapses := hparked.collapses hs
    unfold Store.collapseBlock
    dsimp only
    revert hparked hcollapses
    cases s.park L r toolCalls thresholdChars (some capacity) with
    | mk parked s' =>
      intro hparked hcollapses
      cases parked with
      | none => exact ⟨hcollapses, .inl rfl⟩
      | some p =>
        obtain ⟨-, blob, hget, hpayload⟩ := hparked.found p rfl
        obtain ⟨htext, hothers, hid, herror, hfields⟩ := stubbed_spec r (recallStub L p.1.id p.1.descriptor
          (L.containsUntrustedMarker (toolResultText r.content)))
        exact ⟨hcollapses, .inr ⟨r, _, p.1.descriptor, p.1.id, blob, rfl, rfl, htext, hget, hpayload, hothers,
          hid, herror, hfields⟩⟩

theorem Store.collapseBlocks_spec (toolCalls : List (JsString × JsString × ι)) (thresholdChars : ℤ)
    (capacity : Capacity) (beforeAnchor : Bool) : ∀ (bs : List (Block ι β)) {s : Store}, s.Sound L →
    Collapses L capacity s (s.collapseBlocks L toolCalls thresholdChars capacity beforeAnchor bs).2.2
      (s.collapseBlocks L toolCalls thresholdChars capacity beforeAnchor bs).2.1.handles ∧
    List.Forall₂ (SameOrStub L (s.collapseBlocks L toolCalls thresholdChars capacity beforeAnchor bs).2.2) bs
      (s.collapseBlocks L toolCalls thresholdChars capacity beforeAnchor bs).1
  | [], s, _ => ⟨.refl s, .nil⟩
  | b :: bs, s, hs => by
    obtain ⟨hfirst, hb⟩ := Store.collapseBlock_spec hs toolCalls thresholdChars capacity beforeAnchor b
    obtain ⟨hrest, hbs⟩ := collapseBlocks_spec toolCalls thresholdChars capacity beforeAnchor bs
      (hfirst.sound hs)
    exact ⟨hfirst.trans hrest, .cons (hb.imp_right fun h => h.mono hrest.kept) hbs⟩

theorem Store.collapseMessages_spec (toolCalls : List (JsString × JsString × ι)) (thresholdChars : ℤ)
    (capacity : Capacity) (limit anchorIndex : ℕ) : ∀ (m : ℕ) (msgs : List (Message ι β)) {s : Store},
    s.Sound L →
    Collapses L capacity s
      (s.collapseMessages L toolCalls thresholdChars capacity limit anchorIndex m msgs).2.2
      (s.collapseMessages L toolCalls thresholdChars capacity limit anchorIndex m msgs).2.1.handles ∧
    List.Forall₂
      (SameButStubs L (s.collapseMessages L toolCalls thresholdChars capacity limit anchorIndex m msgs).2.2)
      msgs (s.collapseMessages L toolCalls thresholdChars capacity limit anchorIndex m msgs).1 ∧
    (s.collapseMessages L toolCalls thresholdChars capacity limit anchorIndex m msgs).1.drop (limit - m) =
      msgs.drop (limit - m)
  | _, [], s, _ => ⟨.refl s, .nil, rfl⟩
  | m, msg :: rest, s, hs => by
    unfold Store.collapseMessages
    split_ifs with hm
    · have hlimit : limit - m = limit - (m + 1) + 1 := by omega
      split
      · next bs hrole hcontent =>
        obtain ⟨hfirst, hbs⟩ := Store.collapseBlocks_spec toolCalls thresholdChars capacity (m < anchorIndex) bs hs
        obtain ⟨hthen, hmsgs, hdrop⟩ := collapseMessages_spec toolCalls thresholdChars capacity limit
          anchorIndex (m + 1) rest (hfirst.sound hs)
        have hstubs := hbs.imp fun b b' hb => Or.imp_right (fun h => Stubs.mono h hthen.kept) hb
        refine ⟨hfirst.trans hthen, .cons (.inr ⟨bs, _, ?_, ?_, hstubs⟩) hmsgs, ?_⟩
        · rw [← hrole, ← hcontent]
        · rw [hrole]
        · rw [hlimit, List.drop_succ_cons, List.drop_succ_cons]
          exact hdrop
      · obtain ⟨hthen, hmsgs, hdrop⟩ := collapseMessages_spec toolCalls thresholdChars capacity limit
          anchorIndex (m + 1) rest hs
        refine ⟨hthen, .cons (.inl rfl) hmsgs, ?_⟩
        rw [hlimit, List.drop_succ_cons, List.drop_succ_cons]
        exact hdrop
    · exact ⟨.refl s, List.forall₂_same.2 fun msg _ => .inl rfl, rfl⟩

theorem Store.pruneToCap_within (hs : s.Sound L) (maxEntries maxBytes : ℤ) :
    (s.pruneToCap maxEntries maxBytes).Within ⟨maxEntries, maxBytes⟩ := by
  obtain ⟨-, n, -, hblobs, -, hfits⟩ := Store.pruneOver_spec maxEntries maxBytes hs rfl
  unfold Store.Within Store.pruneToCap
  rw [hblobs]
  exact hfits.imp_right fun hn => by rw [hn, List.drop_length]

theorem Store.pruneToCap_of_within (hs : s.Sound L) (h : s.Within ⟨maxEntries, maxBytes⟩) :
    s.pruneToCap maxEntries maxBytes = s := by
  unfold Store.pruneToCap
  cases hblobs : s.blobs with
  | nil => rfl
  | cons e rest =>
    have hfits := h.resolve_right (by rw [hblobs]; exact List.cons_ne_nil e rest)
    exact if_pos (hs.fits_iff.2 hfits)

end Calls

/-! ## Runs of calls -/

section Ops

theorem Store.after_moves (hs : s.Sound L) (op : Op ι β) : ∃ used, Moves L s used (s.after L op) ∧
    (Function.Injective L.contentKey → used = s.uses L op) := by
  cases op with
  | get id => exact ⟨_, Store.get_moves L s id, fun _ => rfl⟩
  | clear => exact ⟨_, Move.clear.moves, fun _ => rfl⟩
  | pruneToCap maxEntries maxBytes => exact ⟨_, (Store.pruneOver_spec maxEntries maxBytes hs rfl).1, fun _ => rfl⟩
  | evictFrom messages thresholdChars => exact Store.evictBlocks_moves _ _ _ hs
  | collapseIn messages thresholdChars skipTailMessages maxEntries maxBytes anchorIndex =>
    have hprune := (Store.pruneOver_spec maxEntries maxBytes hs rfl).1
    obtain ⟨hcollapses, -⟩ := Store.collapseMessages_spec (toolCallsById messages) thresholdChars
      ⟨maxEntries, maxBytes⟩ (messages.length - skipTailMessages) anchorIndex 0 messages (hprune.sound hs)
    obtain ⟨used, hmoves, hused⟩ := hcollapses.moves
    exact ⟨_, hprune.trans hmoves, fun hinj => by rw [hused hinj]; rfl⟩

theorem Store.run_moves : ∀ (ops : List (Op ι β)) {s : Store}, s.Sound L → ∃ used,
    Moves L s used (s.run L ops) ∧ (Function.Injective L.contentKey → used = s.usesOf L ops)
  | [], s, _ => ⟨[], .refl s, fun _ => rfl⟩
  | op :: ops, s, hs => by
    obtain ⟨used, hmoves, hused⟩ := Store.after_moves hs op
    obtain ⟨used', hmoves', hused'⟩ := run_moves ops (hmoves.sound hs)
    exact ⟨_, hmoves.trans hmoves', fun hinj => by rw [hused hinj, hused' hinj]; rfl⟩

/-- A call that only reads, or collapses with these caps. -/
def Op.Reads (maxEntries maxBytes : ℤ) : Op ι β → Prop
  | .get _ => True
  | .collapseIn _ _ _ entries bytes _ => entries = maxEntries ∧ bytes = maxBytes
  | _ => False

/-- Such a call drops nothing from a store within the caps. -/
theorem Store.after_kept (hs : s.Sound L) (hwithin : s.Within ⟨maxEntries, maxBytes⟩) {op : Op ι β}
    (hop : op.Reads maxEntries maxBytes) : (s.after L op).Within ⟨maxEntries, maxBytes⟩ ∧
      ∀ {id b}, Assoc.get s.blobs id = some b → Assoc.get (s.after L op).blobs id = some b := by
  cases op with
  | get id =>
    cases h : Assoc.get s.blobs id with
    | none =>
      rw [Store.after, Store.get_of_none h]
      exact ⟨hwithin, fun h => h⟩
    | some blob =>
      have hsound := hs.move (Move.touch h)
      have hperm := perm_touch hs.nodup h
      rw [Store.after, Store.get_eq h]
      exact ⟨hwithin.of_perm hperm, fun hget => hsound.mem_iff.2 (hperm.mem_iff.2 (hs.mem_iff.1 hget))⟩
  | collapseIn messages thresholdChars skipTailMessages entries bytes anchorIndex =>
    obtain ⟨rfl, rfl⟩ := hop
    obtain ⟨hcollapses, -⟩ := Store.collapseMessages_spec (toolCallsById messages) thresholdChars
      ⟨entries, bytes⟩ (messages.length - skipTailMessages) anchorIndex 0 messages hs
    rw [Store.after, Store.collapseIn, Store.pruneToCap_of_within hs hwithin]
    exact ⟨hcollapses.within hwithin, hcollapses.kept⟩
  | evictFrom => exact absurd hop id
  | pruneToCap => exact absurd hop id
  | clear => exact absurd hop id

theorem Store.run_kept : ∀ {ops : List (Op ι β)} {s : Store}, s.Sound L →
    s.Within ⟨maxEntries, maxBytes⟩ → (∀ op ∈ ops, op.Reads maxEntries maxBytes) →
      ∀ {id b}, Assoc.get s.blobs id = some b → Assoc.get (s.run L ops).blobs id = some b
  | [], _, _, _, _ => fun h => h
  | op :: ops, s, hs, hwithin, hops => fun h => by
    obtain ⟨used, hmoves, -⟩ := Store.after_moves hs op
    obtain ⟨hwithin', hkept⟩ := Store.after_kept hs hwithin (hops op List.mem_cons_self)
    exact run_kept (hmoves.sound hs) hwithin' (fun op hop => hops op (List.mem_cons_of_mem _ hop)) (hkept h)

/-- What holds of a store after some calls. -/
structure Accounted (L : Labels ι) (ops : List (Op ι β)) (s : Store) : Prop where
  bytes : s.totalBytes = totalLength s.payloads
  /-- An id that was given never stands for another blob, and does not come back. -/
  ids : ∀ (more : List (Op ι β)) {n b}, n ≤ s.seq → Assoc.get (s.run L more).blobs (idOf n) = some b →
    Assoc.get s.blobs (idOf n) = some b
  distinct : Function.Injective L.contentKey → s.payloads.Nodup
  order : Function.Injective L.contentKey → InOrder (Store.empty.usesOf L ops) (s.blobs.map Prod.fst)
  prune : ∀ maxEntries maxBytes, ∃ n ≤ s.blobs.length,
    (s.pruneToCap maxEntries maxBytes).blobs = s.blobs.drop n ∧
    (∀ m < n, ¬ Fits maxEntries maxBytes (s.blobs.drop m)) ∧
    (Fits maxEntries maxBytes (s.blobs.drop n) ∨ n = s.blobs.length)

/-- The stubs of a collapse name blobs of the former texts, and go on to. -/
structure Resolves (L : Labels ι) (messages messages' : List (Message ι β)) (skipTailMessages : ℕ)
    (maxEntries maxBytes : ℤ) (s : Store) : Prop where
  stubs : List.Forall₂ (SameButStubs L s) messages messages'
  tail : messages'.drop (messages.length - skipTailMessages) =
    messages.drop (messages.length - skipTailMessages)
  stays : ∀ more : List (Op ι β), (∀ op ∈ more, op.Reads maxEntries maxBytes) →
    ∀ id b, Assoc.get s.blobs id = some b → ((s.run L more).get id).1 = some b

/-- Whatever is called, the store accounts for what it holds, and what a collapse set aside is read again under
the id of its stub. -/
theorem set_aside_stays_readable (L : Labels ι) (ops : List (Op ι β)) :
    Accounted L ops (Store.empty.run L ops) ∧
    ∀ (messages : List (Message ι β)) (thresholdChars : ℤ) (skipTailMessages : ℕ) (maxEntries maxBytes : ℤ)
      (anchorIndex : ℕ),
      Resolves L messages
        ((Store.empty.run L ops).collapseIn L messages thresholdChars skipTailMessages maxEntries maxBytes
          anchorIndex).1
        skipTailMessages maxEntries maxBytes
        ((Store.empty.run L ops).collapseIn L messages thresholdChars skipTailMessages maxEntries maxBytes
          anchorIndex).2.2 := by
  obtain ⟨used, hmoves, hused⟩ := Store.run_moves ops (Store.Sound.empty (L := L))
  have hs := hmoves.sound Store.Sound.empty
  refine ⟨{
    bytes := hs.bytes
    ids := fun more {n b} hn hget => ?_
    distinct := fun hinj => ?_
    order := fun hinj => ?_
    prune := fun maxEntries maxBytes => (Store.pruneOver_spec maxEntries maxBytes hs rfl).2 }, fun messages thresholdChars
      skipTailMessages maxEntries maxBytes anchorIndex => ?_⟩
  · obtain ⟨used', hmoves', -⟩ := Store.run_moves more hs
    rcases (hmoves'.ids hs).2 hget with hget | ⟨k, hlt, -, heq⟩
    · exact hget
    · have := idOf_injective heq
      omega
  · have hempty : Store.empty.Indexed L := fun hmem => (nomatch hmem)
    have hindexed : (Store.empty.run L ops).Indexed L := hmoves.indexed Store.Sound.empty hinj hempty
    refine List.Nodup.map_on (fun e he e' he' heq => ?_) hs.nodup.of_map
    have hsame := hindexed he
    rw [show e.2.payload = e'.2.payload from heq, hindexed he'] at hsame
    exact List.inj_on_of_nodup_map hs.nodup he he' (Option.some.inj hsame).symm
  · have := hmoves.inOrder Store.Sound.empty (inOrder_nil [])
    rwa [List.nil_append, hused hinj] at this
  · have hprune := (Store.pruneOver_spec maxEntries maxBytes hs rfl).1
    have hpruned := hprune.sound hs
    obtain ⟨hcollapses, hmsgs, htail⟩ := Store.collapseMessages_spec (toolCallsById messages) thresholdChars
      ⟨maxEntries, maxBytes⟩ (messages.length - skipTailMessages) anchorIndex 0 messages hpruned
    refine ⟨hmsgs, htail, fun more hmore id b hget => ?_⟩
    have hfound := Store.run_kept (hcollapses.sound hpruned)
      (hcollapses.within (Store.pruneToCap_within hs maxEntries maxBytes)) hmore hget
    exact congrArg Prod.fst (Store.get_eq hfound)

end Ops

end Lynox.Messages.Blobs
