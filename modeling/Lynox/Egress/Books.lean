import Lynox.Data.Cells
import Lynox.Egress.Proxy

/-!
# The books of the egress proxy

What its slots depend on : for each credential the tunnels attached to it, the two counters, and for
each request whether it is being opened, attached or closed. `Sound` says that the counters are
what the requests hold, and that the tunnels of a credential are the open requests for it. While an
event is handled some tunnels are already out of the registry and not yet closed (`out`), and the
request at hand may have given its slot back and still be counted as being opened (`busy`).
-/

namespace Lynox.Egress

open Cells

/-- The part of a request its slot depends on. -/
structure Place where
  cred : Cred
  host : Text.JsString
  reserved : Bool
  attached : Bool
  closed : Bool
  taken : Nat
  given : Nat

namespace Place

def isOpen (c : Place) : Bool :=
  c.attached && !c.closed

/-- The slots a request took and did not give back. -/
def slot (c : Place) : Int :=
  c.taken - c.given

def slotOf (cred : Cred) (c : Place) : Int :=
  if c.cred = cred then c.slot else 0

def openingOf (cred : Cred) : Place → Int :=
  mark fun c => c.reserved && (c.cred == cred)

def openOf (cred : Cred) : Place → Int :=
  mark fun c => c.isOpen && (c.cred == cred)

/-- Between two events a request holds a slot as long as it is being opened or open, and one that
took a slot and does not hold it gave it back once. -/
structure Settled (c : Place) : Prop where
  once : c.taken ≤ 1
  reserved : c.reserved = true → c.attached = false ∧ c.taken = 1 ∧ c.given = 0
  open' : c.isOpen = true → c.taken = 1 ∧ c.given = 0
  finished : c.reserved = false → c.isOpen = false → c.given = c.taken
  closed : c.closed = true → c.attached = true

end Place

/-- A request for which nothing was done. -/
structure Place.Fresh (c : Place) : Prop where
  reserved : c.reserved = false
  attached : c.attached = false
  closed : c.closed = false
  taken : c.taken = 0
  given : c.given = 0

structure Books where
  tunnels : Cred → Option (List TunnelHandle)
  opened : Int
  opening : Cred → Int
  places : List Place

namespace Books

def edit (b : Books) (id : Nat) (f : Place → Place) : Books :=
  { b with places := b.places.modify id f }

def detach (b : Books) (cred : Cred) (t : TunnelHandle) : Books :=
  { b with tunnels := Function.update b.tunnels cred ((b.tunnels cred).map fun ts => ts.erase t) }

def giveBack (b : Books) (id : Nat) : Books :=
  { b with opened := b.opened - 1 }.edit id fun c => { c with given := c.given + 1 }

def close (b : Books) (id : Nat) : Books :=
  match b.places[id]? with
  | none => b
  | some c =>
    if c.closed then b
    else ((b.edit id fun c => { c with closed := true }).giveBack id).detach c.cred ⟨id, c.host⟩

def closeAll (b : Books) (ids : List Nat) : Books :=
  ids.foldl close b

/-- The credential goes, and its tunnels are closed. -/
def retire (b : Books) (cred : Cred) (ts : List TunnelHandle) : Books :=
  { b with tunnels := Function.update b.tunnels cred none }.closeAll (ts.map TunnelHandle.id)

def register (b : Books) (cred : Cred) (ts : List TunnelHandle) : Books :=
  { b with tunnels := Function.update b.tunnels cred (some ts) }

def attach (b : Books) (cred : Cred) (t : TunnelHandle) : Books :=
  { b with tunnels := Function.update b.tunnels cred ((b.tunnels cred).map fun ts => ts ++ [t]) }.edit
    t.id fun c => { c with attached := true }

def release (b : Books) (id : Nat) (cred : Cred) : Books :=
  { b with opening := Function.update b.opening cred (b.opening cred - 1) }.edit id
    fun c => { c with reserved := false }

/-- A request takes a slot. -/
def take (b : Books) (id : Nat) (c : Place) : Books :=
  { b with
    opened := b.opened + 1
    opening := Function.update b.opening c.cred (b.opening c.cred + 1) }.edit id fun _ => c

/-- A request came. -/
def append (b : Books) (c : Place) : Books :=
  { b with places := b.places ++ [c] }

def tunnelCount (b : Books) (cred : Cred) : Nat :=
  ((b.tunnels cred).map List.length).getD 0

structure Sound (limits : Limits) (out : List Nat) (busy : Option Nat) (b : Books) : Prop where
  opened : b.opened = weight Place.slot b.places
  opening : ∀ cred, b.opening cred = weight (Place.openingOf cred) b.places
  nodup : ∀ cred ts, b.tunnels cred = some ts → (ts.map TunnelHandle.id).Nodup
  handle : ∀ cred ts, b.tunnels cred = some ts → ∀ t ∈ ts, ∃ c, b.places[t.id]? = some c ∧
    c.isOpen = true ∧ c.cred = cred ∧ c.host = t.host
  covered : ∀ id c, b.places[id]? = some c → c.isOpen = true → id ∉ out →
    ∃ ts, b.tunnels c.cred = some ts ∧ ⟨id, c.host⟩ ∈ ts
  perCred : ∀ cred, weight (Place.slotOf cred) b.places ≤ limits.tunnelsPerCred
  total : b.opened ≤ limits.tunnelsTotal
  settled : ∀ id c, b.places[id]? = some c → busy ≠ some id → c.Settled

section Sound

variable {limits : Limits} {out out' : List Nat} {busy : Option Nat} {b : Books} {id : Nat}
  {c : Place} {cred : Cred} {t : TunnelHandle} {ts : List TunnelHandle}

theorem getElem?_edit (b : Books) (id : Nat) (f : Place → Place) (j : Nat) :
    (b.edit id f).places[j]? = if id = j then b.places[j]?.map f else b.places[j]? := by
  rw [edit, List.getElem?_modify]
  split <;> simp

theorem close_eq (h : b.places[id]? = some c) (hc : c.closed = false) :
    b.close id =
      ((b.edit id fun c => { c with closed := true }).giveBack id).detach c.cred ⟨id, c.host⟩ := by
  unfold close
  rw [h]
  simp [hc]

theorem close_of_closed (h : b.places[id]? = some c) (hc : c.closed = true) : b.close id = b := by
  unfold close
  rw [h]
  simp [hc]

/-- What a request is after a tunnel was closed. -/
theorem getElem?_close (h : b.places[id]? = some c) (j : Nat) :
    (b.close id).places[j]? = if id = j then
      some { c with closed := true, given := if c.closed then c.given else c.given + 1 }
      else b.places[j]? := by
  cases hc : c.closed with
  | true =>
    rw [close_of_closed h hc]
    split
    · next hj =>
      subst hj
      rw [h, if_pos rfl, ← hc]
    · rfl
  | false =>
    rw [close_eq h hc]
    show ((b.edit id fun c => { c with closed := true }).giveBack id).places[j]? = _
    rw [giveBack, getElem?_edit]
    split
    · next hj =>
      subst hj
      show ((b.edit id _).places[id]?).map _ = _
      rw [getElem?_edit, if_pos rfl, h]
      rfl
    · next hj =>
      show (b.edit id _).places[j]? = _
      rw [getElem?_edit, if_neg hj]

theorem weight_edit {w : Place → Int} (h : b.places[id]? = some c) (f : Place → Place) :
    weight w (b.edit id f).places = weight w b.places + (w (f c) - w c) :=
  weight_modify h

theorem close_places (h : b.places[id]? = some c) (hc : c.closed = false) :
    (b.close id).places =
      (b.edit id fun c => { c with closed := true, given := c.given + 1 }).places := by
  rw [close_eq h hc]
  exact List.modify_modify_eq _ _ _ _

theorem close_tunnels (h : b.places[id]? = some c) (hc : c.closed = false) (cred : Cred) :
    (b.close id).tunnels cred = if cred = c.cred then
      (b.tunnels c.cred).map fun ts => ts.erase ⟨id, c.host⟩ else b.tunnels cred := by
  rw [close_eq h hc]
  exact Function.update_apply _ _ _ _

/-- A tunnel is closed : nothing is owed for it any more. -/
theorem Sound.close (hs : Sound limits out busy b) (h : b.places[id]? = some c)
    (hattached : c.attached = true) (hout : ∀ x ∈ out, x = id ∨ x ∈ out') :
    Sound limits out' busy (b.close id) := by
  cases hc : c.closed with
  | true =>
    rw [close_of_closed h hc]
    refine ⟨hs.opened, hs.opening, hs.nodup, hs.handle, fun j c' hj hopen hnot => ?_, hs.perCred,
      hs.total, hs.settled⟩
    refine hs.covered j c' hj hopen fun hmem => ?_
    rcases hout j hmem with rfl | hmem
    · rw [h] at hj
      cases hj
      simp [Place.isOpen, hc] at hopen
    · exact hnot hmem
  | false =>
    have hplace := getElem?_close h
    have hne : ∀ {j c'}, (b.close id).places[j]? = some c' → c'.isOpen = true →
        id ≠ j ∧ b.places[j]? = some c' := by
      intro j c' hj hopen
      rw [hplace] at hj
      split at hj
      · cases hj
        simp [Place.isOpen] at hopen
      · next hne => exact ⟨hne, hj⟩
    have hopened : (b.close id).opened = b.opened - 1 := by
      rw [close_eq h hc]
      rfl
    refine ⟨?_, fun cred => ?_, fun cred ts hts => ?_, fun cred ts hts t ht => ?_,
      fun j c' hj hopen hnot => ?_, fun cred => ?_, ?_, fun j c' hj hbusy => ?_⟩
    · rw [hopened, hs.opened, close_places h hc, weight_edit h]
      simp only [Place.slot]
      push_cast
      omega
    · have hopening : (b.close id).opening = b.opening := by
        rw [close_eq h hc]
        rfl
      rw [hopening, hs.opening, close_places h hc, weight_edit h]
      simp [Place.openingOf, mark]
    · rw [close_tunnels h hc] at hts
      split at hts
      · obtain ⟨ts', hts', rfl⟩ := Option.map_eq_some_iff.1 hts
        exact (hs.nodup _ ts' hts').sublist (List.erase_sublist.map _)
      · exact hs.nodup cred ts hts
    · rw [close_tunnels h hc] at hts
      split at hts
      · next hcred =>
        subst hcred
        obtain ⟨ts', hts', rfl⟩ := Option.map_eq_some_iff.1 hts
        obtain ⟨hne', hmem⟩ := (hs.nodup _ ts' hts').of_map.mem_erase_iff.1 ht
        obtain ⟨c', hc', hopen, hcred, hhost⟩ := hs.handle _ ts' hts' t hmem
        refine ⟨c', ?_, hopen, hcred, hhost⟩
        rw [hplace, if_neg ?_]
        · exact hc'
        · rintro rfl
          rw [h] at hc'
          cases hc'
          exact hne' (by rw [hhost])
      · next hcred =>
        obtain ⟨c', hc', hopen, hcred', hhost⟩ := hs.handle cred ts hts t ht
        refine ⟨c', ?_, hopen, hcred', hhost⟩
        rw [hplace, if_neg ?_]
        · exact hc'
        · rintro rfl
          rw [h] at hc'
          cases hc'
          exact hcred hcred'.symm
    · obtain ⟨hne', hj'⟩ := hne hj hopen
      obtain ⟨ts, hts, hmem⟩ := hs.covered j c' hj' hopen fun hmem =>
        (hout j hmem).elim (fun heq => hne' heq.symm) hnot
      rw [close_tunnels h hc]
      split
      · next hcred =>
        rw [← hcred, hts]
        refine ⟨_, rfl, (List.mem_erase_of_ne fun heq => hne' ?_).2 hmem⟩
        exact (TunnelHandle.mk.inj heq).1.symm
      · exact ⟨ts, hts, hmem⟩
    · have hle : weight (Place.slotOf cred) (b.close id).places ≤
          weight (Place.slotOf cred) b.places := by
        rw [close_places h hc, weight_edit h]
        simp only [Place.slotOf, Place.slot]
        split <;> push_cast <;> omega
      exact hle.trans (hs.perCred cred)
    · rw [hopened]
      have := hs.total
      omega
    · rw [hplace] at hj
      split at hj
      · next heq =>
        subst heq
        cases hj
        have hset := hs.settled id c h hbusy
        have hopen : c.isOpen = true := by simp [Place.isOpen, hattached, hc]
        have hreserved : c.reserved = false := by
          cases hr : c.reserved with
          | false => rfl
          | true => exact absurd hattached (by simp [(hset.reserved hr).1])
        obtain ⟨htaken, hgiven⟩ := hset.open' hopen
        refine ⟨hset.once, fun hr => ?_, fun hopen' => ?_, fun _ _ => ?_, fun _ => hattached⟩
        · exact absurd hr (by simp [hreserved])
        · simp [Place.isOpen] at hopen'
        · simp [hc, htaken, hgiven]
      · exact hs.settled j c' hj hbusy

/-- The tunnels of a credential that was dropped are closed one after the other. -/
theorem Sound.closeAll : ∀ {ids : List Nat} {b : Books} {out : List Nat}, Sound limits out busy b →
    (∀ id ∈ ids, ∃ c, b.places[id]? = some c ∧ c.attached = true) →
      (∀ x ∈ out, x ∈ ids ∨ x ∈ out') → Sound limits out' busy (b.closeAll ids)
  | [], b, out, hs, _, hout => by
    refine { hs with covered := fun j c hj hopen hnot => ?_ }
    exact hs.covered j c hj hopen fun hmem => (hout j hmem).elim (fun h => by cases h) hnot
  | id :: ids, b, out, hs, hids, hout => by
    obtain ⟨c, hc, hattached⟩ := hids id List.mem_cons_self
    have hclose : Sound limits (ids ++ out') busy (b.close id) := by
      refine hs.close hc hattached fun x hx => ?_
      rcases hout x hx with hx | hx
      · rcases List.mem_cons.1 hx with rfl | hx
        · exact .inl rfl
        · exact .inr (List.mem_append_left _ hx)
      · exact .inr (List.mem_append_right _ hx)
    refine hclose.closeAll (fun j hj => ?_) fun x hx => List.mem_append.1 hx
    obtain ⟨c', hc', hattached'⟩ := hids j (List.mem_cons_of_mem id hj)
    rw [getElem?_close hc]
    split
    · exact ⟨_, rfl, hattached⟩
    · exact ⟨c', hc', hattached'⟩

theorem isOpen_attached (h : c.isOpen = true) : c.attached = true := by
  unfold Place.isOpen at h
  exact (Bool.and_eq_true_iff.1 h).1

/-- A credential goes with its tunnels. -/
theorem Sound.retire (hs : Sound limits [] busy b) (hts : b.tunnels cred = some ts) :
    Sound limits [] busy (b.retire cred ts) := by
  have hdrop : Sound limits (ts.map TunnelHandle.id) busy
      { b with tunnels := Function.update b.tunnels cred none } := by
    refine ⟨hs.opened, hs.opening, fun cred' ts' h => ?_, fun cred' ts' h => ?_,
      fun j c hj hopen hnot => ?_, hs.perCred, hs.total, hs.settled⟩
    · dsimp only at h
      rw [Function.update_apply] at h
      split at h
      · cases h
      · exact hs.nodup cred' ts' h
    · dsimp only at h
      rw [Function.update_apply] at h
      split at h
      · cases h
      · exact hs.handle cred' ts' h
    · obtain ⟨ts', hts', hmem⟩ := hs.covered j c hj hopen (by simp)
      have hne : c.cred ≠ cred := by
        rintro rfl
        rw [hts] at hts'
        cases hts'
        exact hnot (List.mem_map_of_mem (f := TunnelHandle.id) hmem)
      exact ⟨ts', (Function.update_of_ne hne _ _).trans hts', hmem⟩
  refine hdrop.closeAll (fun id hid => ?_) fun x hx => .inl hx
  obtain ⟨t, ht, rfl⟩ := List.mem_map.1 hid
  obtain ⟨c, hc, hopen, _⟩ := hs.handle cred ts hts t ht
  exact ⟨c, hc, isOpen_attached hopen⟩

/-- A tunnel leaves the registry, and is not yet closed. -/
theorem Sound.detach (hs : Sound limits out busy b) (cred : Cred) (t : TunnelHandle) :
    Sound limits (t.id :: out) busy (b.detach cred t) := by
  have hold : ∀ {cred' ts'}, (b.detach cred t).tunnels cred' = some ts' →
      ∃ ts, b.tunnels cred' = some ts ∧ ts'.Sublist ts := by
    intro cred' ts' h
    unfold Books.detach at h
    dsimp only at h
    rw [Function.update_apply] at h
    split at h
    · next heq =>
      obtain ⟨ts, hts, rfl⟩ := Option.map_eq_some_iff.1 h
      exact ⟨ts, heq ▸ hts, List.erase_sublist⟩
    · exact ⟨ts', h, List.Sublist.refl _⟩
  refine ⟨hs.opened, hs.opening, fun cred' ts' h => ?_, fun cred' ts' h t' ht' => ?_,
    fun j c hj hopen hnot => ?_, hs.perCred, hs.total, hs.settled⟩
  · obtain ⟨ts, hts, hsub⟩ := hold h
    exact (hs.nodup cred' ts hts).sublist (hsub.map _)
  · obtain ⟨ts, hts, hsub⟩ := hold h
    exact hs.handle cred' ts hts t' (hsub.subset ht')
  · obtain ⟨hne, hnot⟩ := List.ne_and_not_mem_of_not_mem_cons hnot
    obtain ⟨ts, hts, hmem⟩ := hs.covered j c hj hopen hnot
    unfold Books.detach
    dsimp only
    rw [Function.update_apply]
    split
    · next heq =>
      rw [← heq, hts]
      exact ⟨_, rfl, (List.mem_erase_of_ne fun h => hne (congrArg TunnelHandle.id h)).2 hmem⟩
    · exact ⟨ts, hts, hmem⟩

/-- A credential is registered with the tunnels it has. -/
theorem Sound.register (hs : Sound limits [] busy b)
    (hts : b.tunnels cred = some ts ∨ b.tunnels cred = none ∧ ts = []) :
    Sound limits [] busy (b.register cred ts) := by
  have hold : ∀ {cred' ts'}, (b.register cred ts).tunnels cred' = some ts' →
      b.tunnels cred' = some ts' ∨ ts' = [] := by
    intro cred' ts' h
    unfold Books.register at h
    dsimp only at h
    rw [Function.update_apply] at h
    split at h
    · next heq =>
      cases h
      exact hts.imp (fun h => heq ▸ h) fun h => h.2
    · exact .inl h
  refine ⟨hs.opened, hs.opening, fun cred' ts' h => ?_, fun cred' ts' h t ht => ?_,
    fun j c hj hopen hnot => ?_, hs.perCred, hs.total, hs.settled⟩
  · rcases hold h with h | rfl
    · exact hs.nodup cred' ts' h
    · exact List.nodup_nil
  · rcases hold h with h | rfl
    · exact hs.handle cred' ts' h t ht
    · cases ht
  · obtain ⟨ts', hts', hmem⟩ := hs.covered j c hj hopen hnot
    unfold Books.register
    dsimp only
    rw [Function.update_apply]
    split
    · next heq =>
      rw [heq] at hts'
      rcases hts with h | ⟨h, _⟩
      · rw [hts'] at h
        cases h
        exact ⟨_, rfl, hmem⟩
      · rw [hts'] at h
        cases h
    · exact ⟨ts', hts', hmem⟩

/-- An edit that neither opens nor closes a request keeps what the registry holds. -/
theorem Sound.registry_edit (hs : Sound limits out busy b) (hc : b.places[id]? = some c)
    {f : Place → Place} (hf : (f c).isOpen = c.isOpen ∧ (f c).cred = c.cred ∧ (f c).host = c.host) :
    (∀ cred ts, b.tunnels cred = some ts → ∀ t ∈ ts, ∃ c', (b.edit id f).places[t.id]? = some c' ∧
      c'.isOpen = true ∧ c'.cred = cred ∧ c'.host = t.host) ∧
    (∀ j c', (b.edit id f).places[j]? = some c' → c'.isOpen = true → j ∉ out →
      ∃ ts, b.tunnels c'.cred = some ts ∧ ⟨j, c'.host⟩ ∈ ts) := by
  obtain ⟨hopen, hcred, hhost⟩ := hf
  constructor
  · intro cred ts hts t ht
    obtain ⟨c', hc', ho, hcr, hh⟩ := hs.handle cred ts hts t ht
    rw [getElem?_edit]
    split
    · next heq =>
      rw [← heq, hc] at hc'
      cases hc'
      exact ⟨f c, by rw [← heq, hc]; rfl, hopen.trans ho, hcred.trans hcr, hhost.trans hh⟩
    · exact ⟨c', hc', ho, hcr, hh⟩
  · intro j c' hj ho hnot
    rw [getElem?_edit] at hj
    split at hj
    · next heq =>
      rw [← heq, hc] at hj
      cases hj
      rw [hcred, hhost, ← heq]
      exact hs.covered id c hc (hopen.symm.trans ho) (heq ▸ hnot)
    · exact hs.covered j c' hj ho hnot

/-- Whoever is not at hand is settled after an edit of the one at hand. -/
theorem Sound.settled_edit (hs : Sound limits out busy b) (f : Place → Place)
    (hbusy : busy = none ∨ busy = some id) :
    ∀ j c', (b.edit id f).places[j]? = some c' → some id ≠ some j → c'.Settled := by
  intro j c' hj hne
  have hne' : id ≠ j := fun h => hne (congrArg some h)
  rw [getElem?_edit, if_neg hne'] at hj
  refine hs.settled j c' hj ?_
  rcases hbusy with rfl | rfl
  · exact fun h => by cases h
  · exact hne

/-- The slot of the request at hand is given back. -/
theorem Sound.giveBack (hs : Sound limits out busy b) (hc : b.places[id]? = some c)
    (hbusy : busy = none ∨ busy = some id) : Sound limits out (some id) (b.giveBack id) := by
  obtain ⟨hhandle, hcovered⟩ := hs.registry_edit hc (f := fun c => { c with given := c.given + 1 })
    ⟨rfl, rfl, rfl⟩
  refine ⟨?_, fun cred => ?_, hs.nodup, hhandle, hcovered, fun cred => ?_, ?_,
    hs.settled_edit _ hbusy⟩
  · show b.opened - 1 = weight Place.slot (b.edit id _).places
    rw [weight_edit hc, hs.opened]
    simp only [Place.slot]
    push_cast
    omega
  · show b.opening cred = weight _ (b.edit id _).places
    rw [weight_edit hc, hs.opening]
    simp [Place.openingOf, mark]
  · have hle : weight (Place.slotOf cred) (b.giveBack id).places ≤
        weight (Place.slotOf cred) b.places := by
      show weight _ (b.edit id _).places ≤ _
      rw [weight_edit hc]
      simp only [Place.slotOf, Place.slot]
      split <;> push_cast <;> omega
    exact hle.trans (hs.perCred cred)
  · have := hs.total
    show b.opened - 1 ≤ _
    omega

/-- The request at hand is no longer being opened. -/
theorem Sound.release (hs : Sound limits out (some id) b) (hc : b.places[id]? = some c)
    (hreserved : c.reserved = true) (hset : Place.Settled { c with reserved := false }) :
    Sound limits out none (b.release id c.cred) := by
  obtain ⟨hhandle, hcovered⟩ := hs.registry_edit hc (f := fun c => { c with reserved := false })
    ⟨rfl, rfl, rfl⟩
  refine ⟨?_, fun cred => ?_, hs.nodup, hhandle, hcovered, fun cred => ?_, hs.total,
    fun j c' hj _ => ?_⟩
  · show b.opened = weight _ (b.edit id _).places
    rw [weight_edit hc, hs.opened]
    simp [Place.slot]
  · show Function.update b.opening c.cred (b.opening c.cred - 1) cred = weight _ (b.edit id _).places
    rw [weight_edit hc, Function.update_apply]
    split
    · next heq =>
      rw [hs.opening, heq]
      simp [Place.openingOf, mark, hreserved]
      omega
    · next heq =>
      rw [hs.opening]
      simp [Place.openingOf, mark, Ne.symm heq]
  · show weight _ (b.edit id _).places ≤ _
    rw [weight_edit hc]
    simpa [Place.slotOf, Place.slot] using hs.perCred cred
  · by_cases hj' : id = j
    · subst hj'
      rw [show (b.release id c.cred).places = (b.edit id fun c => { c with reserved := false }).places
        from rfl, getElem?_edit, if_pos rfl, hc] at hj
      cases hj
      exact hset
    · exact hs.settled_edit _ (.inr rfl) j c' hj fun h => hj' (Option.some.inj h)

/-- The request at hand is attached to its credential. -/
theorem Sound.attach (hs : Sound limits [] (some id) b) (hc : b.places[id]? = some c)
    (hattached : c.attached = false) (hclosed : c.closed = false)
    (hts : b.tunnels c.cred = some ts) :
    Sound limits [] (some id) (b.attach c.cred ⟨id, c.host⟩) := by
  have hplace : ∀ j, (b.attach c.cred ⟨id, c.host⟩).places[j]? =
      if id = j then b.places[j]?.map fun c => { c with attached := true } else b.places[j]? :=
    getElem?_edit b id _
  have htunnels : ∀ cred, (b.attach c.cred ⟨id, c.host⟩).tunnels cred =
      if cred = c.cred then some (ts ++ [⟨id, c.host⟩]) else b.tunnels cred := by
    intro cred
    show Function.update b.tunnels c.cred ((b.tunnels c.cred).map fun ts => ts ++ [_]) cred = _
    rw [Function.update_apply, hts]
    rfl
  have hno : ∀ cred ts', b.tunnels cred = some ts' → ∀ t ∈ ts', id ≠ t.id := by
    rintro cred ts' hts' t ht rfl
    obtain ⟨c', hc', hopen, _⟩ := hs.handle cred ts' hts' t ht
    rw [hc] at hc'
    cases hc'
    exact absurd (isOpen_attached hopen) (by simp [hattached])
  refine ⟨?_, fun cred => ?_, fun cred ts' h => ?_, fun cred ts' h t ht => ?_,
    fun j c' hj hopen _ => ?_, fun cred => ?_, hs.total, hs.settled_edit _ (.inr rfl)⟩
  · show b.opened = weight _ (b.edit id _).places
    rw [weight_edit hc, hs.opened]
    simp [Place.slot]
  · show b.opening cred = weight _ (b.edit id _).places
    rw [weight_edit hc, hs.opening]
    simp [Place.openingOf, mark]
  · rw [htunnels] at h
    split at h
    · cases h
      rw [List.map_append, List.map_singleton, List.nodup_append]
      refine ⟨hs.nodup _ ts hts, List.nodup_singleton _, fun a ha a' ha' => ?_⟩
      obtain ⟨t, ht, rfl⟩ := List.mem_map.1 ha
      rw [List.mem_singleton.1 ha']
      exact (hno _ ts hts t ht).symm
    · exact hs.nodup cred ts' h
  · have hold : ∀ {cred ts'}, b.tunnels cred = some ts' → t ∈ ts' →
        ∃ c', (b.attach c.cred ⟨id, c.host⟩).places[t.id]? = some c' ∧ c'.isOpen = true ∧
          c'.cred = cred ∧ c'.host = t.host := by
      intro cred ts' hts' ht'
      obtain ⟨c', hc', hrest⟩ := hs.handle cred ts' hts' t ht'
      exact ⟨c', by rw [hplace, if_neg (hno cred ts' hts' t ht')]; exact hc', hrest⟩
    rw [htunnels] at h
    split at h
    · next heq =>
      cases h
      rcases List.mem_append.1 ht with ht | ht
      · rw [heq]
        exact hold hts ht
      · rw [List.mem_singleton.1 ht]
        refine ⟨{ c with attached := true }, by rw [hplace, if_pos rfl, hc]; rfl, ?_, heq.symm, rfl⟩
        simp [Place.isOpen, hclosed]
    · exact hold h ht
  · rw [hplace] at hj
    rw [htunnels]
    split at hj
    · next heq =>
      subst heq
      rw [hc] at hj
      cases hj
      exact ⟨_, if_pos rfl, List.mem_append_right _ (List.mem_singleton_self _)⟩
    · obtain ⟨ts', hts', hmem⟩ := hs.covered j c' hj hopen (by simp)
      split
      · next heq =>
        rw [heq, hts] at hts'
        cases hts'
        exact ⟨_, rfl, List.mem_append_left _ hmem⟩
      · exact ⟨ts', hts', hmem⟩
  · show weight _ (b.edit id _).places ≤ _
    rw [weight_edit hc]
    simpa [Place.slotOf, Place.slot] using hs.perCred cred

/-- The tunnels of a credential are as many as its open requests. -/
theorem Sound.tunnelCount (hs : Sound limits [] busy b) (cred : Cred) :
    (b.tunnelCount cred : Int) = weight (Place.openOf cred) b.places := by
  cases hts : b.tunnels cred with
  | none =>
    have hzero : ∀ c ∈ b.places, Place.openOf cred c = 0 := by
      intro c hmem
      obtain ⟨id, hid⟩ := List.mem_iff_getElem?.1 hmem
      unfold Place.openOf mark
      rw [if_neg]
      intro hopen
      obtain ⟨ho, hcred⟩ := Bool.and_eq_true_iff.1 hopen
      obtain ⟨ts, hts', _⟩ := hs.covered id c hid ho (by simp)
      rw [beq_iff_eq.1 hcred, hts] at hts'
      cases hts'
    rw [Books.tunnelCount, hts, weight_congr hzero]
    simp [weight]
  | some ts =>
    have hplaces : ∀ i, i ∈ ts.map TunnelHandle.id ↔
        ∃ c, b.places[i]? = some c ∧ (c.isOpen && (c.cred == cred)) = true := by
      intro i
      constructor
      · intro hmem
        obtain ⟨t, ht, rfl⟩ := List.mem_map.1 hmem
        obtain ⟨c, hc, ho, hcred, _⟩ := hs.handle cred ts hts t ht
        exact ⟨c, hc, by simp [ho, hcred]⟩
      · rintro ⟨c, hc, hopen⟩
        obtain ⟨ho, hcred⟩ := Bool.and_eq_true_iff.1 hopen
        obtain ⟨ts', hts', hmem⟩ := hs.covered i c hc ho (by simp)
        rw [beq_iff_eq.1 hcred, hts] at hts'
        cases hts'
        exact List.mem_map_of_mem (f := TunnelHandle.id) hmem
    rw [Books.tunnelCount, hts]
    exact length_eq_weight (hs.nodup cred ts hts) hplaces

theorem slot_eq (h : c.Settled) : c.slot = mark (fun c => c.reserved || c.isOpen) c := by
  unfold Place.slot mark
  cases hr : c.reserved with
  | true =>
    obtain ⟨_, htaken, hgiven⟩ := h.reserved hr
    simp [hr, htaken, hgiven]
  | false =>
    cases ho : c.isOpen with
    | true =>
      obtain ⟨htaken, hgiven⟩ := h.open' ho
      simp [ho, htaken, hgiven]
    | false => simp [hr, ho, h.finished hr ho]

/-- Between two events the slots of a credential are its tunnels and those being opened. -/
theorem Sound.slots_eq (hs : Sound limits [] none b) (cred : Cred) :
    weight (Place.slotOf cred) b.places = b.tunnelCount cred + b.opening cred := by
  rw [hs.tunnelCount, hs.opening, ← weight_add]
  refine weight_congr fun c hmem => ?_
  obtain ⟨id, hid⟩ := List.mem_iff_getElem?.1 hmem
  have hset := hs.settled id c hid (by simp)
  unfold Place.slotOf Place.openOf Place.openingOf
  by_cases hcred : c.cred = cred
  · rw [if_pos hcred, slot_eq hset]
    cases hr : c.reserved with
    | true =>
      have hattached := (hset.reserved hr).1
      simp [mark, hr, hcred, Place.isOpen, hattached]
    | false =>
      cases ho : c.isOpen with
      | true => simp [mark, hr, ho, hcred]
      | false => simp [mark, hr, ho]
  · rw [if_neg hcred]
    simp [mark, hcred]

/-- A request comes. -/
theorem Sound.append (hs : Sound limits [] none b) (hc : c.Fresh) :
    Sound limits [] none (b.append c) := by
  have hplaces : ∀ (j : Nat) (c' : Place), (b.append c).places[j]? = some c' →
      b.places[j]? = some c' ∨ c' = c := by
    intro j c' hj
    rcases lt_or_ge j b.places.length with hlt | hge
    · exact .inl (by rwa [Books.append, List.getElem?_append_left hlt] at hj)
    · rw [Books.append, List.getElem?_append_right hge] at hj
      exact .inr (List.mem_singleton.1 (List.mem_of_getElem? hj))
  have hold : ∀ {j : Nat} {c' : Place}, b.places[j]? = some c' →
      (b.append c).places[j]? = some c' := by
    intro j c' hj
    exact (List.getElem?_append_left (List.getElem?_eq_some_iff.1 hj).1).trans hj
  have hclosed : c.isOpen = false := by simp [Place.isOpen, hc.attached]
  have hslot : c.slot = 0 := by simp [Place.slot, hc.taken, hc.given]
  refine ⟨?_, fun cred => ?_, hs.nodup, fun cred ts hts t ht => ?_, fun j c' hj hopen hnot => ?_,
    fun cred => ?_, hs.total, fun j c' hj _ => ?_⟩
  · rw [Books.append, weight_append, weight_singleton, hslot, ← hs.opened, add_zero]
  · rw [Books.append, weight_append, weight_singleton, ← hs.opening]
    simp [Place.openingOf, mark, hc.reserved]
  · obtain ⟨c', hc', hrest⟩ := hs.handle cred ts hts t ht
    exact ⟨c', hold hc', hrest⟩
  · rcases hplaces j c' hj with hj | rfl
    · exact hs.covered j c' hj hopen hnot
    · rw [hclosed] at hopen
      cases hopen
  · rw [Books.append, weight_append, weight_singleton]
    simpa [Place.slotOf, hslot] using hs.perCred cred
  · rcases hplaces j c' hj with hj | rfl
    · exact hs.settled j c' hj (by simp)
    · refine ⟨by simp [hc.taken], fun hr => ?_, fun ho => ?_, fun _ _ => ?_, fun h => ?_⟩
      · exact absurd hr (by simp [hc.reserved])
      · exact absurd ho (by simp [hclosed])
      · rw [hc.given, hc.taken]
      · exact absurd h (by simp [hc.closed])

/-- A slot is taken where both limits leave one. -/
theorem Sound.take (hs : Sound limits [] none b) {c' : Place} (hc : b.places[id]? = some c)
    (hfresh : c.Fresh) (hreserved : c'.reserved = true) (hattached : c'.attached = false)
    (hclosed : c'.closed = false) (htaken : c'.taken = 1) (hgiven : c'.given = 0)
    (htotal : b.opened < limits.tunnelsTotal)
    (hcred : b.tunnelCount c'.cred + b.opening c'.cred < limits.tunnelsPerCred) :
    Sound limits [] none (b.take id c') := by
  have hold : c.isOpen = false := by simp [Place.isOpen, hfresh.attached]
  have hnew : c'.isOpen = false := by simp [Place.isOpen, hattached]
  have hslot : c.slot = 0 := by simp [Place.slot, hfresh.taken, hfresh.given]
  have hslot' : c'.slot = 1 := by simp [Place.slot, htaken, hgiven]
  have hplace : ∀ j c'', (b.take id c').places[j]? = some c'' →
      c'' = c' ∨ id ≠ j ∧ b.places[j]? = some c'' := by
    intro j c'' hj
    rw [show (b.take id c').places = (b.edit id fun _ => c').places from rfl, getElem?_edit] at hj
    split at hj
    · next heq =>
      rw [← heq, hc] at hj
      exact .inl (Option.some.inj hj).symm
    · next hne => exact .inr ⟨hne, hj⟩
  refine ⟨?_, fun cred => ?_, hs.nodup, fun cred ts hts t ht => ?_, fun j c'' hj hopen hnot => ?_,
    fun cred => ?_, ?_, fun j c'' hj _ => ?_⟩
  · show b.opened + 1 = weight _ (b.edit id _).places
    rw [weight_edit hc, hs.opened, hslot, hslot']
    omega
  · show Function.update b.opening c'.cred (b.opening c'.cred + 1) cred =
      weight _ (b.edit id _).places
    rw [weight_edit hc, Function.update_apply]
    split
    · next heq =>
      rw [hs.opening, heq]
      simp [Place.openingOf, mark, hreserved, hfresh.reserved]
    · next heq =>
      rw [hs.opening]
      simp [Place.openingOf, mark, hfresh.reserved, Ne.symm heq]
  · obtain ⟨c'', hc'', ho, hrest⟩ := hs.handle cred ts hts t ht
    refine ⟨c'', ?_, ho, hrest⟩
    rw [show (b.take id c').places = (b.edit id fun _ => c').places from rfl, getElem?_edit, if_neg]
    · exact hc''
    · rintro rfl
      rw [hc] at hc''
      cases hc''
      rw [hold] at ho
      cases ho
  · rcases hplace j c'' hj with rfl | ⟨_, hj⟩
    · rw [hnew] at hopen
      cases hopen
    · exact hs.covered j c'' hj hopen hnot
  · show weight _ (b.edit id _).places ≤ _
    rw [weight_edit hc]
    by_cases heq : c'.cred = cred
    · have hslots := hs.slots_eq cred
      simp only [Place.slotOf, hslot, hslot', heq, if_true, ite_self]
      rw [← heq] at hslots ⊢
      rw [show weight (Place.slotOf c'.cred) b.places = _ from hslots]
      omega
    · simpa [Place.slotOf, hslot, heq] using hs.perCred cred
  · show b.opened + 1 ≤ _
    omega
  · rcases hplace j c'' hj with rfl | ⟨_, hj⟩
    · refine ⟨htaken.le, fun _ => ⟨hattached, htaken, hgiven⟩, fun ho => ?_, fun hr => ?_, fun h => ?_⟩
      · exact absurd ho (by simp [hnew])
      · exact absurd hr (by simp [hreserved])
      · exact absurd h (by simp [hclosed])
    · exact hs.settled j c'' hj (by simp)

end Sound

end Books

end Lynox.Egress
