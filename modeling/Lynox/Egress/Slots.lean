import Lynox.Egress.Books
import Lynox.Egress.Proven

/-!
# Tunnel slots are conserved

Every operation of the proxy moves its books as the operation of the same name on the books does,
or not at all, so `Books.Sound` holds after every event (`safe_step`), and with it the counters are
what the requests hold (`slots_are_conserved`).
-/

namespace Lynox.Egress

open Cells Text

def Request.place (r : Request) : Place :=
  ⟨r.cred, r.host, r.reserved, r.attached, r.closed, r.taken, r.given⟩

namespace Proxy

def books (p : Proxy) : Books where
  tunnels cred := (Assoc.get p.live cred).map Entry.tunnels
  opened := p.opened
  opening cred := (Assoc.get p.opening cred).getD 0
  places := p.requests.map Request.place

section Books

variable {p : Proxy} {id : Nat} {f : Request → Request} {g : Place → Place} {cred : Cred}
  {entry : Entry} {r : Request}

theorem books_edit (hfg : ∀ r, (f r).place = g r.place) :
    (p.edit id f).books = p.books.edit id g := by
  unfold books edit Books.edit
  dsimp only
  rw [map_modify hfg]

/-- An edit of what no slot depends on. -/
theorem books_edit_same (hf : ∀ r, (f r).place = r.place) : (p.edit id f).books = p.books := by
  rw [books_edit (g := fun c => c) hf, Books.edit, modify_same]

@[simp] theorem books_setStage (p : Proxy) (id : Nat) (s : Stage) :
    (p.setStage id s).books = p.books :=
  books_edit_same fun _ => rfl

@[simp] theorem books_writeClient (p : Proxy) (id : Nat) (bytes : Bytes) :
    (p.writeClient id bytes).books = p.books :=
  books_edit_same fun _ => rfl

@[simp] theorem books_writeUpstream (p : Proxy) (id : Nat) (bytes : Bytes) :
    (p.writeUpstream id bytes).books = p.books := by
  unfold writeUpstream
  split
  · rfl
  · exact books_edit_same fun _ => rfl

@[simp] theorem books_destroyClient (p : Proxy) (id : Nat) :
    (p.destroyClient id).books = p.books :=
  books_edit_same fun _ => rfl

@[simp] theorem books_destroyUpstream (p : Proxy) (id : Nat) :
    (p.destroyUpstream id).books = p.books :=
  books_edit_same fun _ => rfl

@[simp] theorem books_reply (p : Proxy) (id code : Nat) (extra : String) :
    (p.reply id code extra).books = p.books := by
  unfold reply
  split
  · rfl
  · split
    · rfl
    · exact books_writeClient _ _ _

@[simp] theorem books_giveBack (p : Proxy) (id : Nat) :
    (p.giveBack id).books = p.books.giveBack id :=
  books_edit (p := { p with opened := p.opened - 1 }) fun _ => rfl

theorem books_editEntry (p : Proxy) (cred : Cred) (f : Entry → Entry)
    {g : List TunnelHandle → List TunnelHandle} (hg : ∀ e, (f e).tunnels = g e.tunnels) :
    (p.editEntry cred f).books = { p.books with
      tunnels := Function.update p.books.tunnels cred ((p.books.tunnels cred).map g) } := by
  unfold editEntry
  cases hget : Assoc.get p.live cred with
  | none =>
    have hnone : p.books.tunnels cred = none := by simp [books, hget]
    rw [hnone, Option.map_none, ← hnone, Function.update_eq_self]
  | some entry =>
    unfold books
    dsimp only
    congr 1
    funext cred'
    rw [Assoc.get_set, Function.update_apply, hget]
    split
    · simp [hg]
    · rfl

@[simp] theorem books_detach (p : Proxy) (cred : Cred) (t : TunnelHandle) :
    (p.detach cred t).books = p.books.detach cred t :=
  books_editEntry p cred _ fun _ => rfl

theorem places_getElem? (p : Proxy) (id : Nat) :
    p.books.places[id]? = p.requests[id]?.map Request.place :=
  List.getElem?_map

@[simp] theorem books_close (p : Proxy) (id : Nat) : (p.close id).books = p.books.close id := by
  unfold close Books.close
  rw [places_getElem?]
  cases h : p.requests[id]? with
  | none => rfl
  | some r =>
    simp only [Option.map_some]
    cases hc : r.closed with
    | true => simp [Request.place, hc]
    | false =>
      simp only [Request.place, hc, Bool.false_eq_true, if_false, books_destroyUpstream,
        books_destroyClient, books_detach, books_giveBack]
      rw [books_edit (g := fun c => { c with closed := true }) fun _ => rfl]

theorem books_closeAll : ∀ (ts : List TunnelHandle) (p : Proxy),
    (p.closeAll ts).books = p.books.closeAll (ts.map TunnelHandle.id)
  | [], _ => rfl
  | t :: ts, p => by
    rw [closeAll, List.foldl_cons, ← closeAll, books_closeAll ts, books_close]
    rfl

theorem books_retire (p : Proxy) (cred : Cred) (entry : Entry) (endedAt : Nat) :
    (p.retire cred entry endedAt).books = p.books.retire cred entry.tunnels := by
  unfold retire Books.retire
  rw [books_closeAll]
  congr 1
  unfold books
  dsimp only
  congr 1
  funext cred'
  rw [Assoc.get_erase, Function.update_apply]
  split <;> rfl

/-- The place among those being opened, where there is one. -/
theorem books_release (h : p.requests[id]? = some r) (hr : r.reserved = true)
    (hopening : 0 < p.books.opening r.cred) :
    (p.release id).books = p.books.release id r.cred := by
  have hget : ∃ n, Assoc.get p.opening r.cred = some n := by
    cases hget : Assoc.get p.opening r.cred with
    | none => simp [books, hget] at hopening
    | some n => exact ⟨n, rfl⟩
  obtain ⟨n, hget⟩ := hget
  unfold release
  rw [h]
  simp only [hr, Bool.not_true, Bool.false_eq_true, if_false, hget, Option.getD_some]
  rw [books_edit (g := fun c => { c with reserved := false }) fun _ => rfl]
  unfold Books.release
  congr 1
  unfold books
  dsimp only
  congr 1
  funext cred'
  rw [Function.update_apply, hget]
  split
  · next hzero =>
    rw [Assoc.get_erase]
    split
    · simp [hzero]
    · rfl
  · rw [Assoc.get_set]
    split <;> rfl

theorem books_editEntry_same (p : Proxy) (cred : Cred) {f : Entry → Entry}
    (hf : ∀ e, (f e).tunnels = e.tunnels) : (p.editEntry cred f).books = p.books := by
  rw [books_editEntry p cred f (g := fun ts => ts) hf]
  simp

theorem tunnels_of_get (h : Assoc.get p.live cred = some entry) :
    p.books.tunnels cred = some entry.tunnels := by
  simp [books, h]

end Books

/-! ## What the registry keeps -/

/-- The counters are what the requests hold. -/
def Safe (limits : Limits) (busy : Option Nat) (p : Proxy) : Prop :=
  p.books.Sound limits [] busy

/-- A tunnel was attached for the request. -/
def Attached (id : Nat) (p : Proxy) : Prop :=
  ∃ c, p.books.places[id]? = some c ∧ c.attached = true

/-- A request that is not attached stays as it is, and one that is attached stays so. -/
def Calm (p p' : Proxy) : Prop :=
  ∀ (id : Nat) (c : Place), p.books.places[id]? = some c → ∃ c', p'.books.places[id]? = some c' ∧
    c'.attached = c.attached ∧ (c.attached = false → c' = c)

section Registry

variable {limits : Limits} {busy : Option Nat} {p p' p'' : Proxy} {id : Nat} {cred : Cred}
  {entry : Entry} {r : Request}

theorem Safe.of_books (h : Safe limits busy p) (heq : p'.books = p.books) : Safe limits busy p' := by
  unfold Safe
  rw [heq]
  exact h

theorem Attached.of_books (h : Attached id p) (heq : p'.books = p.books) : Attached id p' := by
  unfold Attached
  rw [heq]
  exact h

theorem Calm.of_books (h : p'.books = p.books) : Calm p p' :=
  fun _ c hc => ⟨c, h ▸ hc, rfl, fun _ => rfl⟩

theorem Calm.trans (h : Calm p p') (h' : Calm p' p'') : Calm p p'' := by
  intro id c hc
  obtain ⟨c', hc', hattached, hsame⟩ := h id c hc
  obtain ⟨c'', hc'', hattached', hsame'⟩ := h' id c' hc'
  refine ⟨c'', hc'', hattached'.trans hattached, fun hno => ?_⟩
  rw [hsame' (hattached.trans hno), hsame hno]

theorem Attached.calm (h : Attached id p) (hcalm : Calm p p') : Attached id p' := by
  obtain ⟨c, hc, hattached⟩ := h
  obtain ⟨c', hc', hattached', _⟩ := hcalm id c hc
  exact ⟨c', hc', hattached'.trans hattached⟩

theorem calm_close (h : Attached id p) : Calm p (p.close id) := by
  obtain ⟨c, hc, hattached⟩ := h
  intro j c' hj
  rw [books_close, Books.getElem?_close hc]
  split
  · next heq =>
    rw [← heq, hc] at hj
    cases hj
    exact ⟨_, rfl, rfl, fun hno => absurd hattached (by simp [hno])⟩
  · exact ⟨c', hj, rfl, fun _ => rfl⟩

theorem safe_close (h : Safe limits busy p) (ha : Attached id p) : Safe limits busy (p.close id) := by
  obtain ⟨c, hc, hattached⟩ := ha
  unfold Safe
  rw [books_close]
  exact h.close hc hattached fun _ hx => .inr hx

theorem calm_closeAll : ∀ (ts : List TunnelHandle) {p : Proxy}, (∀ t ∈ ts, Attached t.id p) →
    Calm p (p.closeAll ts)
  | [], _, _ => .of_books rfl
  | t :: ts, p, h => by
    have hcalm := calm_close (h t List.mem_cons_self)
    exact hcalm.trans (calm_closeAll ts fun t' ht' => (h t' (List.mem_cons_of_mem t ht')).calm hcalm)

theorem attached_of_handle (h : Safe limits busy p) (hentry : Assoc.get p.live cred = some entry)
    {t : TunnelHandle} (ht : t ∈ entry.tunnels) : Attached t.id p := by
  obtain ⟨c, hc, hopen, _⟩ := h.handle cred _ (tunnels_of_get hentry) t ht
  exact ⟨c, hc, Books.isOpen_attached hopen⟩

theorem safe_retire (h : Safe limits busy p) (hentry : Assoc.get p.live cred = some entry)
    (endedAt : Nat) : Safe limits busy (p.retire cred entry endedAt) := by
  unfold Safe
  rw [books_retire]
  exact Books.Sound.retire h (tunnels_of_get hentry)

theorem calm_retire (h : Safe limits busy p) (hentry : Assoc.get p.live cred = some entry)
    (endedAt : Nat) : Calm p (p.retire cred entry endedAt) := by
  intro id c hc
  exact calm_closeAll entry.tunnels
    (p := { p with
      live := Assoc.erase p.live cred
      retired := Assoc.set p.retired cred ⟨entry.denials, endedAt + DENIAL_RETENTION_MS⟩ })
    (fun t ht => attached_of_handle h hentry ht) id c hc

theorem safe_liveEntry (h : Safe limits busy p) (cred : Cred) (now : Nat) :
    Safe limits busy (p.liveEntry cred now).2 ∧ Calm p (p.liveEntry cred now).2 := by
  unfold liveEntry
  split
  · exact ⟨h, .of_books rfl⟩
  · next entry hentry =>
    split
    · exact ⟨safe_retire h hentry _, calm_retire h hentry _⟩
    · exact ⟨h, .of_books rfl⟩

theorem safe_sweep (h : Safe limits busy p) (now : Nat) : Safe limits busy (p.sweep now) := by
  have hfold : ∀ (creds : List Cred) {p : Proxy}, Safe limits busy p →
      Safe limits busy (creds.foldl (fun p cred => (p.liveEntry cred now).2) p) := by
    intro creds
    induction creds with
    | nil => exact fun h => h
    | cons cred creds ih => exact fun h => ih (safe_liveEntry h cred now).1
  exact hfold _ h

theorem safe_recordDenial (h : Safe limits busy p) (cred : Cred) (host : JsString) (port : Nat)
    (reason : DenialReason) (clock : Clock) (k : Nat) :
    Safe limits busy (p.recordDenial cred host port reason clock k) ∧
      Calm p (p.recordDenial cred host port reason clock k) := by
  have hlive := safe_liveEntry h cred (clock k)
  unfold recordDenial
  split
  · next heq => rwa [heq] at hlive
  · next entry q heq =>
    rw [heq] at hlive
    split
    · exact hlive
    · have hsame := books_editEntry_same q cred (f := fun e : Entry =>
        { e with denials := e.denials ++ [⟨shownHost host, port, clock (k + 1), reason⟩] })
        fun _ => rfl
      exact ⟨hlive.1.of_books hsame, hlive.2.trans (.of_books hsame)⟩

theorem safe_deny (h : Safe limits busy p) (id : Nat) (cred : Cred) (host : JsString) (port : Nat)
    (why : DenialReason) (clock : Clock) (k : Nat) :
    Safe limits busy (p.deny id cred host port why clock k) ∧
      Calm p (p.deny id cred host port why clock k) := by
  obtain ⟨hsafe, hcalm⟩ := safe_recordDenial h cred host port why clock k
  exact ⟨hsafe.of_books (books_reply _ _ _ _), hcalm.trans (.of_books (books_reply _ _ _ _))⟩

theorem safe_refuse (h : Safe limits busy p) (ha : Attached id p) (r : Request) (why : DenialReason)
    (name : Option JsString) (clock : Clock) : Safe limits busy (p.refuse id r why name clock) := by
  obtain ⟨hsafe, hcalm⟩ := safe_recordDenial h r.cred (name.getD r.host) r.port why clock 0
  exact safe_close hsafe (ha.calm hcalm)

/-- The tunnels of a credential that its new set does not allow are closed. -/
theorem safe_closeOutside (h : Safe limits busy p) (cred : Cred) (set : HostSet)
    {ts : List TunnelHandle} (hts : ∀ t ∈ ts, Attached t.id p) :
    Safe limits busy (p.closeOutside cred set ts) := by
  have hfold : ∀ (ts : List TunnelHandle) {p : Proxy}, Safe limits busy p →
      (∀ t ∈ ts, Attached t.id p) →
        Safe limits busy (ts.foldl (fun p t => (p.detach cred t).close t.id) p) := by
    intro ts
    induction ts with
    | nil => exact fun h _ => h
    | cons t ts ih =>
      intro p h hts
      have hdetached : Attached t.id (p.detach cred t) := by
        obtain ⟨c, hc, hattached⟩ := hts t List.mem_cons_self
        exact ⟨c, by rw [books_detach]; exact hc, hattached⟩
      refine ih ?_ fun t' ht' => ?_
      · obtain ⟨c, hc, hattached⟩ := hdetached
        unfold Safe
        rw [books_close]
        have hout : (p.detach cred t).books.Sound limits [t.id] busy := by
          rw [books_detach]
          exact Books.Sound.detach h cred t
        exact hout.close hc hattached fun x hx => .inl (List.mem_singleton.1 hx)
      · obtain ⟨c, hc, hattached⟩ := hts t' (List.mem_cons_of_mem t ht')
        refine Attached.calm ⟨c, ?_, hattached⟩ (calm_close hdetached)
        rw [books_detach]
        exact hc
  exact hfold _ h fun t ht => hts t (List.mem_filter.1 ht).1

theorem safe_put (h : Safe limits busy p) (cred : Cred) (reg : Registration) (clock : Clock) :
    Safe limits busy (p.put cred reg clock).2 := by
  have hswept := safe_sweep h (clock 0)
  unfold put
  dsimp only
  split
  · exact hswept
  · have hclosed : Safe limits busy ((p.sweep (clock 0)).closeOutside cred reg.set
        (((Assoc.get (p.sweep (clock 0)).live cred).map Entry.tunnels).getD [])) := by
      refine safe_closeOutside hswept cred reg.set fun t ht => ?_
      cases hentry : Assoc.get (p.sweep (clock 0)).live cred with
      | none =>
        rw [hentry] at ht
        cases ht
      | some entry =>
        rw [hentry] at ht
        exact attached_of_handle hswept hentry ht
    generalize (p.sweep (clock 0)).closeOutside cred reg.set
      (((Assoc.get (p.sweep (clock 0)).live cred).map Entry.tunnels).getD []) = q at hclosed
    have hts : q.books.tunnels cred = some (((Assoc.get q.live cred).map Entry.tunnels).getD []) ∨
        q.books.tunnels cred = none ∧ ((Assoc.get q.live cred).map Entry.tunnels).getD [] = [] := by
      cases hentry : Assoc.get q.live cred with
      | none => exact .inr ⟨by simp [books, hentry], rfl⟩
      | some entry => exact .inl (tunnels_of_get hentry)
    have hregister := Books.Sound.register hclosed hts
    refine (congrArg (Books.Sound limits [] busy) ?_).mpr hregister
    unfold Books.register books
    dsimp only
    congr 1
    funext cred'
    rw [Assoc.get_set, Function.update_apply]
    split <;> rfl

theorem safe_delete (h : Safe limits busy p) (cred : Cred) (now : Nat) :
    Safe limits busy (p.delete cred now) := by
  unfold delete
  split
  · exact h
  · next hentry => exact safe_retire h hentry _

theorem safe_denials (h : Safe limits busy p) (cred : Cred) (clock : Clock) :
    Safe limits busy (p.denials cred clock).2 := by
  have hlive := (safe_liveEntry h cred (clock 0)).1
  unfold denials
  split
  · next heq => rwa [heq] at hlive
  · next heq =>
    rw [heq] at hlive
    split
    · exact hlive
    · split <;> exact hlive

end Registry

/-! ## Requests at hand -/

/-- The request has given its slot back or was attached, and is still counted as being opened. -/
def AtHand (limits : Limits) (id : Nat) (p : Proxy) : Prop :=
  Safe limits (some id) p ∧ ∃ c, p.books.places[id]? = some c ∧ c.reserved = true ∧
    Place.Settled { c with reserved := false }

section Handlers

variable {limits : Limits} {busy : Option Nat} {p p' : Proxy} {id : Nat} {cred : Cred} {r : Request}

theorem AtHand.of_books (h : AtHand limits id p) (heq : p'.books = p.books) : AtHand limits id p' := by
  unfold AtHand Safe
  rw [heq]
  exact h

theorem opening_pos (h : Safe limits busy p) {c : Place} (hc : p.books.places[id]? = some c)
    (hreserved : c.reserved = true) : 0 < p.books.opening c.cred := by
  rw [h.opening]
  have hle := le_weight (w := Place.openingOf c.cred) (fun a _ => mark_nonneg _ a)
    (List.mem_of_getElem? hc)
  have hone : Place.openingOf c.cred c = 1 := by simp [Place.openingOf, mark, hreserved]
  omega

theorem safe_release (h : AtHand limits id p) : Safe limits none (p.release id) := by
  obtain ⟨hsafe, c, hc, hreserved, hset⟩ := h
  have hpos := opening_pos hsafe hc hreserved
  rw [places_getElem?] at hc
  obtain ⟨r, hr, rfl⟩ := Option.map_eq_some_iff.1 hc
  unfold Safe
  rw [books_release hr hreserved hpos]
  exact Books.Sound.release hsafe (by rw [places_getElem?, hr]; rfl) hreserved hset

/-- A request that is being opened. -/
structure Opening (limits : Limits) (id : Nat) (cred : Cred) (host : JsString) (p : Proxy) :
    Prop where
  safe : Safe limits none p
  place : p.books.places[id]? = some ⟨cred, host, true, false, false, 1, 0⟩

theorem Opening.of_books {host : JsString} (h : Opening limits id cred host p)
    (heq : p'.books = p.books) : Opening limits id cred host p' :=
  ⟨h.safe.of_books heq, heq ▸ h.place⟩

theorem atHand_giveBack {host : JsString} (h : Opening limits id cred host p) :
    AtHand limits id (p.giveBack id) ∧
      (p.giveBack id).books.places[id]? = some ⟨cred, host, true, false, false, 1, 1⟩ := by
  have hplace : (p.giveBack id).books.places[id]? = some ⟨cred, host, true, false, false, 1, 1⟩ := by
    rw [books_giveBack, Books.giveBack, Books.getElem?_edit, if_pos rfl, h.place]
    rfl
  refine ⟨⟨?_, _, hplace, rfl, ⟨le_rfl, fun h => (by cases h), fun h => (by cases h), fun _ _ => rfl, fun h => (by cases h)⟩⟩, hplace⟩
  unfold Safe
  rw [books_giveBack]
  exact Books.Sound.giveBack h.safe h.place (.inl rfl)

/-- What the registry does to other requests keeps the one at hand. -/
theorem AtHand.calm (h : AtHand limits id p) {c : Place} (hc : p.books.places[id]? = some c)
    (hattached : c.attached = false) (hsafe : Safe limits (some id) p') (hcalm : Calm p p') :
    AtHand limits id p' := by
  obtain ⟨_, c₀, hc₀, hreserved, hset⟩ := h
  rw [hc] at hc₀
  cases hc₀
  obtain ⟨c', hc', _, hsame⟩ := hcalm id c hc
  rw [hsame hattached] at hc'
  exact ⟨hsafe, c, hc', hreserved, hset⟩

theorem Safe.busyWith (h : Safe limits none p) (id : Nat) : Safe limits (some id) p :=
  { h with settled := fun j c hj _ => h.settled j c hj (by simp) }

theorem Opening.liveEntry {host : JsString} (h : Opening limits id cred host p) (now : Nat) :
    Opening limits id cred host (p.liveEntry cred now).2 := by
  obtain ⟨hsafe, hcalm⟩ := safe_liveEntry h.safe cred now
  obtain ⟨c', hc', _, hsame⟩ := hcalm id _ h.place
  rw [hsame rfl] at hc'
  exact ⟨hsafe, hc'⟩

theorem books_attached (p : Proxy) (cred : Cred) (id : Nat) (host : JsString) {f : Request → Request}
    (hf : ∀ r, (f r).place = { r.place with attached := true }) :
    ((p.editEntry cred fun e => { e with tunnels := e.tunnels ++ [⟨id, host⟩] }).edit id f).books =
      p.books.attach cred ⟨id, host⟩ := by
  rw [books_edit (g := fun c => { c with attached := true }) hf,
    books_editEntry p cred _ (g := fun ts => ts ++ [⟨id, host⟩]) fun _ => rfl]
  rfl

/-- The name is attached to a live credential, whatever the set it has now. -/
theorem tunnel_of_live {entry : Entry} (hentry : Assoc.get p.live r.cred = some entry) {now : Nat}
    (hnow : now < entry.expiresAt) (ip : JsString) (connects : Bool) :
    p.tunnel id r ip connects now =
      let q := (p.editEntry r.cred fun e => { e with tunnels := e.tunnels ++ [⟨id, r.host⟩] }).edit id
        fun r => { r with attached := true, stage := .done }
      if connects then q.edit id fun r => { r with ip := some ip, stage := .connecting }
      else (q.reply id 502 "").close id := by
  unfold tunnel attach liveEntry
  rw [hentry]
  simp only [if_neg (Nat.not_le.2 hnow)]

theorem safe_attach {entry : Entry} (h : Opening limits id r.cred r.host p)
    (hentry : Assoc.get p.live r.cred = some entry)
    (hq : p' = (p.editEntry r.cred fun e => { e with tunnels := e.tunnels ++ [⟨id, r.host⟩] }).edit id
      fun r => { r with attached := true, stage := .done }) :
    Safe limits (some id) p' ∧
      p'.books.places[id]? = some ⟨r.cred, r.host, true, true, false, 1, 0⟩ := by
  have hbooks : p'.books = p.books.attach r.cred ⟨id, r.host⟩ :=
    hq ▸ books_attached p r.cred id r.host fun _ => rfl
  constructor
  · unfold Safe
    rw [hbooks]
    exact Books.Sound.attach (c := ⟨r.cred, r.host, true, false, false, 1, 0⟩) (h.safe.busyWith id)
      h.place rfl rfl (tunnels_of_get hentry)
  · rw [hbooks]
    refine (Books.getElem?_edit _ _ _ _).trans ?_
    rw [if_pos rfl]
    show (p.books.places[id]?).map _ = _
    rw [h.place]
    rfl

theorem atHand_tunnel (h : Opening limits id r.cred r.host p) (ip : JsString) (connects : Bool)
    (now : Nat) : AtHand limits id (p.tunnel id r ip connects now) := by
  have hlive := h.liveEntry now
  cases heq : p.liveEntry r.cred now with
  | mk found q =>
    rw [heq] at hlive
    cases found with
    | none =>
      unfold tunnel attach
      rw [heq]
      exact (atHand_giveBack hlive).1.of_books (books_reply _ _ _ _)
    | some entry =>
      obtain ⟨hentry, rfl, hnow⟩ := liveEntry_some heq
      rw [tunnel_of_live hentry hnow]
      dsimp only
      obtain ⟨hsafe, hplace⟩ := safe_attach h hentry rfl
      generalize (q.editEntry r.cred fun e => { e with tunnels := e.tunnels ++ [⟨id, r.host⟩] }).edit
        id (fun r => { r with attached := true, stage := .done }) = q' at hsafe hplace
      split
      · refine AtHand.of_books (p := q') ⟨hsafe, _, hplace, rfl, ?_⟩ (books_edit_same fun _ => rfl)
        exact ⟨le_rfl, nofun, fun _ => ⟨rfl, rfl⟩, nofun, nofun⟩
      · have hreply := books_reply q' id 502 ""
        have hattached : Attached id (q'.reply id 502 "") := ⟨_, by rw [hreply]; exact hplace, rfl⟩
        have hclosed := safe_close (hsafe.of_books hreply) hattached
        refine ⟨hclosed, ⟨r.cred, r.host, true, true, true, 1, 1⟩, ?_, rfl, ?_⟩
        · rw [books_close, hreply, Books.getElem?_close hplace, if_pos rfl]
          rfl
        · exact ⟨le_rfl, nofun, nofun, fun _ _ => rfl, fun _ => rfl⟩

theorem atHand_afterLookup (h : Opening limits id r.cred r.host p) (cfg : Config)
    (addresses : List JsString) (connects : Bool) (clock : Clock) (k : Nat) :
    AtHand limits id (p.afterLookup cfg id r addresses connects clock k) := by
  have hstart : Opening limits id r.cred r.host
      (p.edit id fun r => { r with addresses, stage := .idle }) :=
    h.of_books (books_edit_same fun _ => rfl)
  unfold afterLookup
  dsimp only
  split
  · obtain ⟨hback, hplace⟩ := atHand_giveBack hstart
    obtain ⟨hsafe, hcalm⟩ := safe_deny hback.1 id r.cred r.host r.port .ssrf clock k
    exact hback.calm hplace rfl hsafe hcalm
  · split
    · exact (atHand_giveBack hstart).1
    · exact atHand_tunnel hstart _ connects (clock k)

theorem safe_resolved (h : Opening limits id r.cred r.host p) (cfg : Config)
    (addresses : Option (List JsString)) (connects : Bool) (clock : Clock) :
    Safe limits none (p.resolved cfg id r addresses connects clock) := by
  unfold resolved
  cases addresses with
  | none =>
    have hstart := h.of_books (books_setStage p id .idle)
    exact safe_release ((atHand_giveBack hstart).1.of_books (books_reply _ _ _ _))
  | some addresses => exact safe_release (atHand_afterLookup h cfg addresses connects clock 0)

/-- A request whose name is being resolved is being opened. -/
theorem opening_of_resolving {deny : List JsString} (h : Safe limits none p)
    (hr : p.requests[id]? = some r) (hgood : r.flow.Good deny) (hstage : r.stage = .resolving) :
    Opening limits id r.cred r.host p := by
  obtain ⟨hreserved, hattached, _⟩ := hgood.resolving hstage
  have hplace : p.books.places[id]? = some r.place := by rw [places_getElem?, hr]; rfl
  have hset := h.settled id r.place hplace (by simp)
  obtain ⟨_, htaken, hgiven⟩ := hset.reserved hreserved
  have hclosed : r.closed = false := by
    cases hc : r.closed with
    | false => rfl
    | true => exact absurd (hset.closed hc) (by rw [show r.place.attached = false from hattached]; simp)
  refine ⟨h, ?_⟩
  rw [hplace]
  unfold Request.place
  rw [show r.reserved = true from hreserved, show r.attached = false from hattached, hclosed,
    show r.taken = 1 from htaken, show r.given = 0 from hgiven]

/-! ## Requests that were attached -/

theorem attached_of (hr : p.requests[id]? = some r) (hattached : r.attached = true) :
    Attached id p :=
  ⟨r.place, by rw [places_getElem?, hr]; rfl, hattached⟩

theorem safe_checkFirst (h : Safe limits busy p) (ha : Attached id p) (r : Request) (buf : Bytes)
    (clock : Clock) : Safe limits busy (p.checkFirst id r buf clock) := by
  unfold checkFirst
  cases verdict r.host buf false with
  | none => exact h.of_books (books_setStage _ _ _)
  | some v =>
    have hdone := h.of_books (books_setStage p id .done)
    dsimp only
    split
    · exact hdone
    · cases v with
      | error e => exact safe_refuse hdone (ha.of_books (books_setStage p id .done)) r e.1 e.2 clock
      | ok n =>
        exact hdone.of_books ((books_setStage _ _ _).trans (books_writeUpstream _ _ _))

theorem safe_checkSecond (h : Safe limits busy p) (ha : Attached id p) (r : Request) (buf : Bytes)
    (clock : Clock) : Safe limits busy (p.checkSecond id r buf clock) := by
  unfold checkSecond
  cases verdict r.host buf true with
  | none => exact h.of_books (books_setStage _ _ _)
  | some v =>
    have hdone := h.of_books (books_setStage p id .done)
    dsimp only
    split
    · exact hdone
    · cases v with
      | error e => exact safe_refuse hdone (ha.of_books (books_setStage p id .done)) r e.1 e.2 clock
      | ok n =>
        refine hdone.of_books ?_
        rw [books_setStage, books_writeUpstream, books_writeUpstream]

theorem safe_checkAnswer (h : Safe limits busy p) (ha : Attached id p) (r : Request)
    (behind buf : Bytes) (clock : Clock) :
    Safe limits busy (p.checkAnswer id r behind buf clock) := by
  have hwrote : ((p.setStage id .done).writeClient id buf).books = p.books := by
    rw [books_writeClient, books_setStage]
  unfold checkAnswer
  dsimp only
  split
  · exact h.of_books (books_setStage _ _ _)
  · split
    · exact h.of_books (books_setStage _ _ _)
    · split
      · exact safe_checkSecond (h.of_books hwrote) (ha.of_books hwrote) r behind clock
      · refine h.of_books ?_
        rw [books_setStage, books_writeUpstream, hwrote]

theorem safe_connected (h : Safe limits busy p) (ha : Attached id p) (r : Request) (clock : Clock) :
    Safe limits busy (p.connected id r clock) := by
  have hwrote : ((p.edit id fun r => { r with established := true }).writeClient id
      establishedText).books = p.books := by
    rw [books_writeClient]
    exact books_edit_same fun _ => rfl
  unfold connected
  dsimp only
  split
  · exact h.of_books (books_destroyUpstream _ _)
  · split
    · exact safe_checkFirst (h.of_books hwrote) (ha.of_books hwrote) r r.rest clock
    · refine h.of_books ?_
      rw [books_setStage, books_writeUpstream, hwrote]

theorem safe_clientData (h : Safe limits none p) (hr : p.requests[id]? = some r)
    (hattached : r.stage.inTunnel = true → r.attached = true) (n : Nat) (clock : Clock) :
    Safe limits none (p.clientData id r n clock) := by
  have hread : (p.edit id fun r =>
      { r with client := { r.client with inbox := r.client.inbox.drop n } }).books = p.books :=
    books_edit_same fun _ => rfl
  have ha (hstage : r.stage.inTunnel = true) : Attached id (p.edit id fun r =>
      { r with client := { r.client with inbox := r.client.inbox.drop n } }) :=
    (attached_of hr (hattached hstage)).of_books hread
  unfold clientData
  dsimp only
  split
  · exact h
  · split
    · next hstage => exact safe_checkFirst (h.of_books hread) (ha (by rw [hstage]; rfl)) _ _ _
    · next hstage => exact safe_checkSecond (h.of_books hread) (ha (by rw [hstage]; rfl)) _ _ _
    · exact h.of_books ((books_writeUpstream _ _ _).trans hread)
    · exact h

theorem safe_serverData (h : Safe limits none p) (hr : p.requests[id]? = some r)
    (hattached : r.stage.inTunnel = true → r.attached = true) (n : Nat) (clock : Clock) :
    Safe limits none (p.serverData id r n clock) := by
  have hread : (p.edit id fun r =>
      { r with upstream := { r.upstream with inbox := r.upstream.inbox.drop n } }).books = p.books :=
    books_edit_same fun _ => rfl
  unfold serverData
  dsimp only
  split
  · exact h
  · split
    · next hstage =>
      refine safe_checkAnswer (h.of_books hread) (Attached.of_books ?_ hread) _ _ _ _
      exact attached_of hr (hattached (by rw [hstage]; rfl))
    · exact h.of_books ((books_writeClient _ _ _).trans hread)
    · exact h

theorem safe_clientClosed (h : Safe limits none p) (hr : p.requests[id]? = some r) :
    Safe limits none (p.clientClosed id r) := by
  have hsame := books_destroyClient p id
  unfold clientClosed
  dsimp only
  split
  · next hattached => exact safe_close (h.of_books hsame) ((attached_of hr hattached).of_books hsame)
  · exact h.of_books hsame

theorem safe_upstreamError (h : Safe limits none p) (hr : p.requests[id]? = some r) :
    Safe limits none (p.upstreamError id r) := by
  unfold upstreamError
  cases hattached : r.attached with
  | false => exact h
  | true =>
    have ha := attached_of hr hattached
    split
    · exact h
    · split
      · exact safe_close h ha
      · exact safe_close (h.of_books (books_reply _ _ _ _)) (ha.of_books (books_reply _ _ _ _))

theorem safe_connectTimeout (h : Safe limits none p) (hr : p.requests[id]? = some r) :
    Safe limits none (p.connectTimeout id r) := by
  unfold connectTimeout
  split
  · next hopen =>
    have ha := attached_of hr (Bool.and_eq_true_iff.1 hopen).1
    exact safe_close (h.of_books (books_reply _ _ _ _)) (ha.of_books (books_reply _ _ _ _))
  · exact h

theorem safe_helloTimeout (h : Safe limits none p) (hr : p.requests[id]? = some r)
    (hattached : r.stage.inTunnel = true → r.attached = true) (clock : Clock) :
    Safe limits none (p.helloTimeout id r clock) := by
  have hdone (hstage : r.stage.inTunnel = true) : Safe limits none
      (if r.closed then p.setStage id .done
        else (p.setStage id .done).refuse id r .helloTimeout none clock) := by
    have ha := (attached_of hr (hattached hstage)).of_books (books_setStage p id .done)
    split
    · exact h.of_books (books_setStage _ _ _)
    · exact safe_refuse (h.of_books (books_setStage _ _ _)) ha _ _ _ _
  unfold helloTimeout
  dsimp only
  split
  · next hstage => exact hdone (by rw [hstage]; rfl)
  · next hstage => exact hdone (by rw [hstage]; rfl)
  · exact h

theorem safe_serverHelloTimeout (h : Safe limits none p) (hr : p.requests[id]? = some r)
    (hattached : r.stage.inTunnel = true → r.attached = true) :
    Safe limits none (p.serverHelloTimeout id r) := by
  unfold serverHelloTimeout
  dsimp only
  split
  · next hstage =>
    have ha := (attached_of hr (hattached (by rw [hstage]; rfl))).of_books (books_setStage p id .done)
    split
    · exact h.of_books (books_setStage _ _ _)
    · exact safe_close (h.of_books (books_setStage _ _ _)) ha
  · exact h

theorem safe_idleTimeout (h : Safe limits none p) (hr : p.requests[id]? = some r)
    (hattached : r.stage.inTunnel = true → r.attached = true) :
    Safe limits none (p.idleTimeout id r) := by
  unfold idleTimeout
  split
  · next hstage => exact safe_close h (attached_of hr (hattached (by rw [hstage]; rfl)))
  · exact h

/-! ## Requests that come -/

theorem books_append (p : Proxy) (r : Request) :
    ({ p with requests := p.requests ++ [r] } : Proxy).books = p.books.append r.place := by
  simp [books, Books.append]

theorem books_takeSlot (p : Proxy) (id : Nat) (r : Request) :
    (p.takeSlot id r ((Assoc.get p.opening r.cred).getD 0)).books = p.books.take id r.place := by
  unfold takeSlot
  rw [books_edit (g := fun _ => r.place) fun _ => rfl]
  unfold Books.take
  congr 1
  unfold books
  dsimp only
  congr 1
  funext cred'
  rw [Assoc.get_set, Function.update_apply]
  by_cases hcred : cred' = r.cred
  · rw [if_pos hcred, if_pos (show cred' = r.place.cred from hcred)]
    rfl
  · rw [if_neg hcred, if_neg (show ¬ cred' = r.place.cred from hcred)]

theorem tunnelCount_books (p : Proxy) (cred : Cred) : p.books.tunnelCount cred = p.tunnelCount cred := by
  unfold Books.tunnelCount books tunnelCount
  rw [Option.map_map]
  rfl

/-- A slot is taken for a request that has just come. -/
theorem opening_takeSlot {rest : Bytes} (host : JsString) (port : Nat) (set : HostSet)
    (h : Safe limits none p) (hfresh : p.books.places[id]? = some (fresh rest).place)
    (htotal : p.opened < limits.tunnelsTotal)
    (hcred : p.tunnelCount cred + (Assoc.get p.opening cred).getD 0 < (limits.tunnelsPerCred : Int)) :
    Opening limits id cred host (p.takeSlot id (admitted rest cred host port set)
      ((Assoc.get p.opening cred).getD 0)) := by
  have hbooks := books_takeSlot p id (admitted rest cred host port set)
  refine ⟨?_, ?_⟩
  · unfold Safe
    refine (congrArg (Books.Sound limits [] none) hbooks).mpr ?_
    refine Books.Sound.take h hfresh ⟨rfl, rfl, rfl, rfl, rfl⟩ rfl rfl rfl rfl rfl htotal ?_
    rw [tunnelCount_books]
    exact hcred
  · refine (congrArg (fun b : Books => b.places[id]?) hbooks).trans ?_
    refine (Books.getElem?_edit _ _ _ _).trans ?_
    rw [if_pos rfl]
    show (p.books.places[id]?).map _ = _
    rw [hfresh]
    rfl

/-- A request comes. -/
theorem safe_append (h : Safe limits none p) (rest : Bytes) :
    Safe limits none { p with requests := p.requests ++ [fresh rest] } ∧
      ({ p with requests := p.requests ++ [fresh rest] } : Proxy).books.places[p.requests.length]? =
        some (fresh rest).place := by
  constructor
  · unfold Safe
    rw [books_append]
    exact Books.Sound.append h ⟨rfl, rfl, rfl, rfl, rfl⟩
  · rw [places_getElem?, List.getElem?_concat_length]
    rfl

theorem safe_handle {cfg : Config} (h : Safe cfg.limits none p) (cred : Option Cred)
    (method target : JsString) (rest : Bytes) (connects : Bool) (clock : Clock) :
    Safe cfg.limits none (p.handle cfg cred method target rest connects clock) := by
  obtain ⟨hcame, hplace⟩ := safe_append h rest
  unfold handle
  dsimp only
  generalize ({ p with requests := p.requests ++ [fresh rest] } : Proxy) = p₀ at hcame hplace
  generalize p.requests.length = id at hplace
  split
  · exact hcame.of_books (books_reply _ _ _ _)
  · next name =>
    have hlive := (safe_liveEntry hcame name (clock 0)).1
    split
    · next heq =>
      rw [heq] at hlive
      exact hlive.of_books (books_reply _ _ _ _)
    · next entry p₁ heq =>
      obtain ⟨_, rfl, -⟩ := liveEntry_some heq
      have hdeny (host : JsString) (port : Nat) (why : DenialReason) :
          Safe cfg.limits none (p₁.deny id name host port why clock 1) :=
        (safe_deny hcame id name host port why clock 1).1
      split
      · exact hdeny _ _ _
      · split
        · exact hdeny _ _ _
        · next host port htarget =>
          split
          · exact hdeny _ _ _
          · split
            · exact hdeny _ _ _
            · split
              · exact hcame.of_books (books_reply _ _ _ _)
              · next hfull =>
                obtain ⟨htotal, hcred⟩ := not_or.1 hfull
                have hopening := opening_takeSlot host port entry.set
                  hcame hplace (not_le.1 htotal) (not_le.1 hcred)
                split
                · exact safe_release (atHand_afterLookup (r := admitted rest name host port entry.set)
                    hopening cfg [host] connects clock 1)
                · exact hopening.safe

/-! ## Every event -/

theorem safe_onRequest (h : Safe limits none p) {f : Request → Proxy}
    (hf : ∀ r, p.requests[id]? = some r → Safe limits none (f r)) :
    Safe limits none (p.onRequest id f) := by
  unfold onRequest
  split
  · exact h
  · next r hr => exact hf r hr

theorem safe_step {cfg : Config} (h : Safe cfg.limits none p)
    (hgood : ∀ (id : Nat) (r : Request), p.requests[id]? = some r → r.flow.Good cfg.deny) (e : Event) :
    Safe cfg.limits none (p.step cfg e) := by
  have hattached {id : Nat} {r : Request} (hr : p.requests[id]? = some r) :
      r.stage.inTunnel = true → r.attached = true := (hgood id r hr).attached
  unfold step
  cases e.action with
  | put cred reg => exact safe_put h cred reg e.clock
  | delete cred => exact safe_delete h cred _
  | sweep => exact safe_sweep h _
  | denials cred => exact safe_denials h cred e.clock
  | request cred method target rest connects => exact safe_handle h cred method target rest connects _
  | resolved id addresses connects =>
    refine safe_onRequest h fun r hr => ?_
    split
    · next hstage =>
      exact safe_resolved (opening_of_resolving h hr (hgood id r hr) hstage) cfg addresses connects _
    · exact h
  | connected id =>
    refine safe_onRequest h fun r hr => ?_
    split
    · next hstage =>
      exact safe_connected h (attached_of hr (hattached hr (by rw [hstage]; rfl))) r _
    · exact h
  | connectTimeout id => exact safe_onRequest h fun r hr => safe_connectTimeout h hr
  | upstreamError id => exact safe_onRequest h fun r hr => safe_upstreamError h hr
  | upstreamClosed id =>
    refine safe_onRequest h fun r hr => ?_
    split
    · next hopen => exact safe_close h (attached_of hr hopen)
    · exact h
  | clientClosed id => exact safe_onRequest h fun r hr => safe_clientClosed h hr
  | clientBytes id bytes => exact h.of_books (books_edit_same fun _ => rfl)
  | clientData id n =>
    exact safe_onRequest h fun r hr => safe_clientData h hr (hattached hr) n _
  | serverBytes id bytes => exact h.of_books (books_edit_same fun _ => rfl)
  | serverData id n =>
    exact safe_onRequest h fun r hr => safe_serverData h hr (hattached hr) n _
  | helloTimeout id => exact safe_onRequest h fun r hr => safe_helloTimeout h hr (hattached hr) _
  | serverHelloTimeout id =>
    exact safe_onRequest h fun r hr => safe_serverHelloTimeout h hr (hattached hr)
  | idleTimeout id => exact safe_onRequest h fun r hr => safe_idleTimeout h hr (hattached hr)

end Handlers

theorem safe_new (limits : Limits) : Safe limits none new where
  opened := rfl
  opening _ := rfl
  nodup _ _ := nofun
  handle _ _ := nofun
  covered _ _ := nofun
  perCred _ := Int.natCast_nonneg _
  total := Int.natCast_nonneg _
  settled _ _ := nofun

/-- After every run the counters are what the requests hold. -/
theorem safe_after (cfg : Config) (events : List Event) :
    Safe cfg.limits none (Run.after (step cfg) new events) := by
  induction events using List.reverseRecOn with
  | nil => exact safe_new cfg.limits
  | append_singleton events e ih =>
    rw [Run.after_append]
    refine safe_step ih (fun id r hr => ?_) e
    have hflow : (Run.after (step cfg) new events).flows[id]? = some r.flow := by
      rw [flows_getElem?, hr]
      rfl
    exact good_after cfg hflow

/-- The slots taken and not given back are those that are held. -/
theorem opened_eq {limits : Limits} {p : Proxy} (h : Safe limits none p) :
    p.opened = p.requests.countP Request.holdsSlot := by
  have hslot : ∀ c ∈ p.books.places, c.slot = mark (fun c => c.reserved || c.isOpen) c := by
    intro c hmem
    obtain ⟨id, hid⟩ := List.mem_iff_getElem?.1 hmem
    exact Books.slot_eq (h.settled id c hid (by simp))
  calc p.opened = weight Place.slot p.books.places := h.opened
    _ = weight (mark fun c => c.reserved || c.isOpen) p.books.places := weight_congr hslot
    _ = (p.requests.map Request.place).countP _ := weight_mark _ _
    _ = p.requests.countP Request.holdsSlot := by
      rw [List.countP_map]
      rfl

/-- The tunnels attached and those being opened fit the limit of their credential. -/
theorem perCred_le {limits : Limits} {p : Proxy} (h : Safe limits none p) (cred : Cred) :
    p.tunnelCount cred + (Assoc.get p.opening cred).getD 0 ≤ (limits.tunnelsPerCred : Int) := by
  have hslots := h.slots_eq cred
  rw [tunnelCount_books] at hslots
  exact hslots.symm.trans_le (h.perCred cred)

/-- A request takes at most one slot, and gives it back once it does not hold it any more. -/
theorem given_eq {limits : Limits} {p : Proxy} (h : Safe limits none p) {r : Request}
    (hr : r ∈ p.requests) :
    r.taken ≤ 1 ∧ r.given + (if r.holdsSlot then 1 else 0) = r.taken := by
  obtain ⟨id, hid⟩ := List.mem_iff_getElem?.1 hr
  have hset : r.place.Settled := h.settled id r.place (by rw [places_getElem?, hid]; rfl) (by simp)
  refine ⟨hset.once, ?_⟩
  have hslot := Books.slot_eq hset
  have hmark : mark (fun c : Place => c.reserved || c.isOpen) r.place =
      if r.holdsSlot then 1 else 0 := rfl
  have hdiff : ((r.taken : Int) - r.given) = if r.holdsSlot then 1 else 0 := hslot.trans hmark
  split at hdiff
  · next hholds =>
    rw [if_pos hholds]
    omega
  · next hholds =>
    rw [if_neg hholds]
    omega

end Proxy

/-- In every state of every run, the proxy counts the requests that hold a slot, within its limits,
and a request that took a slot holds it still or gave it back once. -/
theorem slots_are_conserved (cfg : Config) (events : List Event) :
    let p := Run.after (Proxy.step cfg) .new events
    p.opened = p.requests.countP Request.holdsSlot ∧ 0 ≤ p.opened ∧
      p.opened ≤ cfg.limits.tunnelsTotal ∧
      (∀ cred, p.tunnelCount cred + (Assoc.get p.opening cred).getD 0 ≤
        (cfg.limits.tunnelsPerCred : Int)) ∧
      ∀ r ∈ p.requests, r.taken ≤ 1 ∧ r.given + (if r.holdsSlot then 1 else 0) = r.taken := by
  have h := Proxy.safe_after cfg events
  have hopened := Proxy.opened_eq h
  exact ⟨hopened, hopened ▸ Int.natCast_nonneg _, h.total, Proxy.perCred_le h,
    fun r hr => Proxy.given_eq h hr⟩

end Lynox.Egress
