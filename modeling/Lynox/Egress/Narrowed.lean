import Lynox.Egress.Slots

/-!
# Open tunnels and the current registration

A tunnel that is open belongs to a registered credential, and its host is in the set the credential
has now, as long as no name resolution ends after the set was narrowed : `put` closes the tunnels it
knows, and a request whose name is resolving is none of them. `attach` asks only whether the
credential is live.
-/

namespace Lynox.Egress

open Text

namespace Proxy

/-- The hosts of the tunnels of a credential are in the set it has. -/
def Fitting (p : Proxy) : Prop :=
  ∀ cred entry, Assoc.get p.live cred = some entry →
    ∀ t ∈ entry.tunnels, hostInSet entry.set t.host = true

/-- The registry holds no new credential, no new set and no new tunnel. -/
def Shrinks (p p' : Proxy) : Prop :=
  ∀ cred entry', Assoc.get p'.live cred = some entry' → ∃ entry,
    Assoc.get p.live cred = some entry ∧ entry'.set = entry.set ∧
      entry'.tunnels.Sublist entry.tunnels

section Shrinks

variable {p p' p'' : Proxy} {id : Nat} {cred : Cred} {entry : Entry} {r : Request}

theorem Shrinks.of_live (h : p'.live = p.live) : Shrinks p p' :=
  fun _ entry' he => ⟨entry', h ▸ he, rfl, List.Sublist.refl _⟩

theorem Shrinks.trans (h : Shrinks p p') (h' : Shrinks p' p'') : Shrinks p p'' := by
  intro cred entry'' he
  obtain ⟨entry', he', hset', hsub'⟩ := h' cred entry'' he
  obtain ⟨entry, he, hset, hsub⟩ := h cred entry' he'
  exact ⟨entry, he, hset'.trans hset, hsub'.trans hsub⟩

theorem Fitting.shrinks (h : p.Fitting) (hs : Shrinks p p') : p'.Fitting := by
  intro cred entry' he t ht
  obtain ⟨entry, he, hset, hsub⟩ := hs cred entry' he
  rw [hset]
  exact h cred entry he t (hsub.subset ht)

@[simp] theorem live_edit (p : Proxy) (id : Nat) (f : Request → Request) :
    (p.edit id f).live = p.live :=
  rfl

@[simp] theorem live_setStage (p : Proxy) (id : Nat) (stage : Stage) :
    (p.setStage id stage).live = p.live :=
  rfl

@[simp] theorem live_writeClient (p : Proxy) (id : Nat) (bytes : Bytes) :
    (p.writeClient id bytes).live = p.live :=
  rfl

@[simp] theorem live_writeUpstream (p : Proxy) (id : Nat) (bytes : Bytes) :
    (p.writeUpstream id bytes).live = p.live := by
  unfold writeUpstream
  split <;> rfl

@[simp] theorem live_giveBack (p : Proxy) (id : Nat) : (p.giveBack id).live = p.live :=
  rfl

@[simp] theorem live_reply (p : Proxy) (id code : Nat) (extra : String) :
    (p.reply id code extra).live = p.live := by
  unfold reply
  split
  · rfl
  · split <;> rfl

@[simp] theorem live_release (p : Proxy) (id : Nat) : (p.release id).live = p.live := by
  unfold release
  split
  · rfl
  · split <;> rfl

theorem shrinks_setStage (p : Proxy) (id : Nat) (stage : Stage) : Shrinks p (p.setStage id stage) :=
  .of_live rfl

theorem shrinks_writeClient (p : Proxy) (id : Nat) (bytes : Bytes) :
    Shrinks p (p.writeClient id bytes) :=
  .of_live rfl

theorem get_editEntry (p : Proxy) (cred cred' : Cred) (f : Entry → Entry) :
    Assoc.get (p.editEntry cred f).live cred' =
      if cred' = cred then (Assoc.get p.live cred).map f else Assoc.get p.live cred' := by
  unfold editEntry
  cases h : Assoc.get p.live cred with
  | none =>
    dsimp only
    by_cases heq : cred' = cred
    · rw [if_pos heq, heq, h, Option.map_none]
    · rw [if_neg heq]
  | some entry =>
    dsimp only
    rw [Assoc.get_set, Option.map_some]

theorem shrinks_editEntry (p : Proxy) (cred : Cred) {f : Entry → Entry}
    (hf : ∀ e, (f e).set = e.set ∧ (f e).tunnels.Sublist e.tunnels) :
    Shrinks p (p.editEntry cred f) := by
  intro cred' entry' he
  rw [get_editEntry] at he
  split at he
  · next heq =>
    obtain ⟨entry, hentry, rfl⟩ := Option.map_eq_some_iff.1 he
    exact ⟨entry, heq ▸ hentry, hf entry⟩
  · exact ⟨entry', he, rfl, List.Sublist.refl _⟩

theorem shrinks_detach (p : Proxy) (cred : Cred) (t : TunnelHandle) : Shrinks p (p.detach cred t) :=
  shrinks_editEntry p cred fun _ => ⟨rfl, List.erase_sublist⟩

theorem shrinks_close (p : Proxy) (id : Nat) : Shrinks p (p.close id) := by
  unfold close
  split
  · exact .of_live rfl
  · next r _ =>
    split
    · exact .of_live rfl
    · exact (Shrinks.of_live rfl).trans
        ((shrinks_detach ((p.edit id fun r => { r with closed := true }).giveBack id) r.cred
          ⟨id, r.host⟩).trans (.of_live rfl))

theorem shrinks_closeAll : ∀ (ts : List TunnelHandle) (p : Proxy), Shrinks p (p.closeAll ts)
  | [], _ => .of_live rfl
  | t :: ts, p => (shrinks_close p t.id).trans (shrinks_closeAll ts (p.close t.id))

theorem shrinks_retire (p : Proxy) (cred : Cred) (entry : Entry) (endedAt : Nat) :
    Shrinks p (p.retire cred entry endedAt) := by
  have hdropped : Shrinks p { p with
      live := Assoc.erase p.live cred
      retired := Assoc.set p.retired cred ⟨entry.denials, endedAt + DENIAL_RETENTION_MS⟩ } := by
    intro cred' entry' he
    dsimp only at he
    rw [Assoc.get_erase] at he
    split at he
    · cases he
    · exact ⟨entry', he, rfl, List.Sublist.refl _⟩
  exact hdropped.trans (shrinks_closeAll _ _)

theorem shrinks_liveEntry (p : Proxy) (cred : Cred) (now : Nat) :
    Shrinks p (p.liveEntry cred now).2 := by
  unfold liveEntry
  split
  · exact .of_live rfl
  · split
    · exact shrinks_retire _ _ _ _
    · exact .of_live rfl

theorem shrinks_sweep (p : Proxy) (now : Nat) : Shrinks p (p.sweep now) := by
  have hfold : ∀ (creds : List Cred) (p : Proxy),
      Shrinks p (creds.foldl (fun p cred => (p.liveEntry cred now).2) p) := by
    intro creds
    induction creds with
    | nil => exact fun _ => .of_live rfl
    | cons cred creds ih => exact fun p => (shrinks_liveEntry p cred now).trans (ih _)
  exact (hfold _ p).trans (.of_live rfl)

theorem shrinks_recordDenial (p : Proxy) (cred : Cred) (host : JsString) (port : Nat)
    (reason : DenialReason) (clock : Clock) (k : Nat) :
    Shrinks p (p.recordDenial cred host port reason clock k) := by
  have hlive := shrinks_liveEntry p cred (clock k)
  unfold recordDenial
  split
  · next heq => rwa [heq] at hlive
  · next heq =>
    rw [heq] at hlive
    split
    · exact hlive
    · exact hlive.trans (shrinks_editEntry _ cred fun _ => ⟨rfl, List.Sublist.refl _⟩)

theorem shrinks_deny (p : Proxy) (id : Nat) (cred : Cred) (host : JsString) (port : Nat)
    (why : DenialReason) (clock : Clock) (k : Nat) :
    Shrinks p (p.deny id cred host port why clock k) :=
  (shrinks_recordDenial p cred host port why clock k).trans (.of_live (live_reply _ _ _ _))

theorem shrinks_refuse (p : Proxy) (id : Nat) (r : Request) (why : DenialReason)
    (name : Option JsString) (clock : Clock) : Shrinks p (p.refuse id r why name clock) :=
  (shrinks_recordDenial p r.cred (name.getD r.host) r.port why clock 0).trans (shrinks_close _ _)

theorem shrinks_delete (p : Proxy) (cred : Cred) (now : Nat) : Shrinks p (p.delete cred now) := by
  unfold delete
  split
  · exact .of_live rfl
  · exact shrinks_retire _ _ _ _

theorem shrinks_denials (p : Proxy) (cred : Cred) (clock : Clock) :
    Shrinks p (p.denials cred clock).2 := by
  have hlive := shrinks_liveEntry p cred (clock 0)
  unfold denials
  split
  · next heq => rwa [heq] at hlive
  · next heq =>
    rw [heq] at hlive
    split
    · exact hlive
    · split
      · exact hlive.trans (.of_live rfl)
      · exact hlive

/-! ## The bytes of a tunnel -/

theorem shrinks_checkFirst (p : Proxy) (id : Nat) (r : Request) (buf : Bytes) (clock : Clock) :
    Shrinks p (p.checkFirst id r buf clock) := by
  unfold checkFirst
  cases verdict r.host buf false with
  | none => exact .of_live rfl
  | some v =>
    dsimp only
    split
    · exact .of_live rfl
    · cases v with
      | error e =>
        exact (shrinks_setStage p id .done).trans (shrinks_refuse _ _ _ _ _ _)
      | ok n => exact .of_live (by simp)

theorem shrinks_checkSecond (p : Proxy) (id : Nat) (r : Request) (buf : Bytes) (clock : Clock) :
    Shrinks p (p.checkSecond id r buf clock) := by
  unfold checkSecond
  cases verdict r.host buf true with
  | none => exact .of_live rfl
  | some v =>
    dsimp only
    split
    · exact .of_live rfl
    · cases v with
      | error e =>
        exact (shrinks_setStage p id .done).trans (shrinks_refuse _ _ _ _ _ _)
      | ok n => exact .of_live (by simp)

theorem shrinks_checkAnswer (p : Proxy) (id : Nat) (r : Request) (behind buf : Bytes)
    (clock : Clock) : Shrinks p (p.checkAnswer id r behind buf clock) := by
  unfold checkAnswer
  dsimp only
  split
  · exact .of_live rfl
  · split
    · exact .of_live rfl
    · split
      · exact ((shrinks_setStage p id .done).trans (shrinks_writeClient _ id buf)).trans
          (shrinks_checkSecond _ _ _ _ _)
      · exact .of_live (by simp)

theorem shrinks_connected (p : Proxy) (id : Nat) (r : Request) (clock : Clock) :
    Shrinks p (p.connected id r clock) := by
  unfold connected
  dsimp only
  split
  · exact .of_live rfl
  · split
    · have hestablished : Shrinks p (p.edit id fun r => { r with established := true }) := .of_live rfl
      exact (hestablished.trans (shrinks_writeClient _ id establishedText)).trans
        (shrinks_checkFirst _ _ _ _ _)
    · exact .of_live (by simp)

theorem shrinks_clientData (p : Proxy) (id : Nat) (r : Request) (n : Nat) (clock : Clock) :
    Shrinks p (p.clientData id r n clock) := by
  have hread : Shrinks p (p.edit id fun r =>
      { r with client := { r.client with inbox := r.client.inbox.drop n } }) := .of_live rfl
  unfold clientData
  dsimp only
  split
  · exact .of_live rfl
  · split
    · exact hread.trans (shrinks_checkFirst _ _ _ _ _)
    · exact hread.trans (shrinks_checkSecond _ _ _ _ _)
    · exact .of_live (by simp)
    · exact .of_live rfl

theorem shrinks_serverData (p : Proxy) (id : Nat) (r : Request) (n : Nat) (clock : Clock) :
    Shrinks p (p.serverData id r n clock) := by
  have hread : Shrinks p (p.edit id fun r =>
      { r with upstream := { r.upstream with inbox := r.upstream.inbox.drop n } }) := .of_live rfl
  unfold serverData
  dsimp only
  split
  · exact .of_live rfl
  · split
    · exact hread.trans (shrinks_checkAnswer _ _ _ _ _ _)
    · exact .of_live rfl
    · exact .of_live rfl

theorem shrinks_clientClosed (p : Proxy) (id : Nat) (r : Request) :
    Shrinks p (p.clientClosed id r) := by
  unfold clientClosed
  dsimp only
  split
  · have hdestroyed : Shrinks p (p.destroyClient id) := .of_live rfl
    exact hdestroyed.trans (shrinks_close _ _)
  · exact .of_live rfl

theorem shrinks_upstreamError (p : Proxy) (id : Nat) (r : Request) :
    Shrinks p (p.upstreamError id r) := by
  unfold upstreamError
  split
  · exact .of_live rfl
  · refine Shrinks.trans (.of_live ?_) (shrinks_close _ _)
    split
    · rfl
    · exact live_reply _ _ _ _

theorem shrinks_connectTimeout (p : Proxy) (id : Nat) (r : Request) :
    Shrinks p (p.connectTimeout id r) := by
  unfold connectTimeout
  split
  · exact (Shrinks.of_live (live_reply _ _ _ _)).trans (shrinks_close _ _)
  · exact .of_live rfl

theorem shrinks_helloTimeout (p : Proxy) (id : Nat) (r : Request) (clock : Clock) :
    Shrinks p (p.helloTimeout id r clock) := by
  have hdone : Shrinks p (if r.closed then p.setStage id .done
      else (p.setStage id .done).refuse id r .helloTimeout none clock) := by
    split
    · exact .of_live rfl
    · exact (shrinks_setStage p id .done).trans (shrinks_refuse _ _ _ _ _ _)
  unfold helloTimeout
  dsimp only
  split
  · exact hdone
  · exact hdone
  · exact .of_live rfl

theorem shrinks_serverHelloTimeout (p : Proxy) (id : Nat) (r : Request) :
    Shrinks p (p.serverHelloTimeout id r) := by
  unfold serverHelloTimeout
  dsimp only
  split
  · split
    · exact .of_live rfl
    · exact (shrinks_setStage p id .done).trans (shrinks_close _ _)
  · exact .of_live rfl

theorem shrinks_idleTimeout (p : Proxy) (id : Nat) (r : Request) :
    Shrinks p (p.idleTimeout id r) := by
  unfold idleTimeout
  split
  · exact shrinks_close _ _
  · exact .of_live rfl

/-! ## A new set -/

/-- The tunnels outside the set are out of the registry. -/
theorem closeOutside_out (cred : Cred) (hnodup : ∀ e, Assoc.get p.live cred = some e → e.tunnels.Nodup)
    (set : HostSet) (ts : List TunnelHandle) :
    Shrinks p (p.closeOutside cred set ts) ∧
      ∀ e, Assoc.get (p.closeOutside cred set ts).live cred = some e →
        ∀ t ∈ ts, hostInSet set t.host = false → t ∉ e.tunnels := by
  have hfold : ∀ (ts : List TunnelHandle) (p : Proxy),
      (∀ e, Assoc.get p.live cred = some e → e.tunnels.Nodup) →
        Shrinks p (ts.foldl (fun p t => (p.detach cred t).close t.id) p) ∧
          ∀ e, Assoc.get (ts.foldl (fun p t => (p.detach cred t).close t.id) p).live cred = some e →
            ∀ t ∈ ts, t ∉ e.tunnels := by
    intro ts
    induction ts with
    | nil => exact fun p _ => ⟨.of_live rfl, fun _ _ => nofun⟩
    | cons t ts ih =>
      intro p hnodup
      have hstep : Shrinks p ((p.detach cred t).close t.id) :=
        (shrinks_detach p cred t).trans (shrinks_close _ _)
      have hnodup' : ∀ e, Assoc.get ((p.detach cred t).close t.id).live cred = some e →
          e.tunnels.Nodup ∧ t ∉ e.tunnels := by
        intro e he
        obtain ⟨e', he', _, hsub⟩ := shrinks_close (p.detach cred t) t.id cred e he
        unfold detach at he'
        rw [get_editEntry, if_pos rfl] at he'
        obtain ⟨e₀, he₀, rfl⟩ := Option.map_eq_some_iff.1 he'
        have hnd := hnodup e₀ he₀
        exact ⟨(hnd.erase t).sublist hsub, fun hmem => hnd.not_mem_erase (hsub.subset hmem)⟩
      obtain ⟨hshrinks, hout⟩ := ih _ fun e he => (hnodup' e he).1
      refine ⟨hstep.trans hshrinks, fun e he t' ht' => ?_⟩
      rcases List.mem_cons.1 ht' with rfl | ht'
      · obtain ⟨e', he', _, hsub⟩ := hshrinks cred e he
        exact fun hmem => (hnodup' e' he').2 (hsub.subset hmem)
      · exact hout e he t' ht'
  obtain ⟨hshrinks, hout⟩ := hfold (ts.filter fun t => !hostInSet set t.host) p hnodup
  refine ⟨hshrinks, fun e he t ht hset => hout e he t (List.mem_filter.2 ⟨ht, ?_⟩)⟩
  rw [hset]
  rfl

theorem nodup_tunnels {limits : Limits} {busy : Option Nat} (h : Safe limits busy p) :
    ∀ e, Assoc.get p.live cred = some e → e.tunnels.Nodup :=
  fun _ he => (h.nodup cred _ (tunnels_of_get he)).of_map

/-- A credential that is registered anew has the set it is registered with. -/
theorem fitting_put {limits : Limits} (h : p.Fitting) (hsafe : Safe limits none p) (cred : Cred)
    (reg : Registration) (clock : Clock) : (p.put cred reg clock).2.Fitting := by
  have hswept := shrinks_sweep p (clock 0)
  have hsafe' := safe_sweep hsafe (clock 0)
  unfold put
  dsimp only
  split
  · exact h.shrinks hswept
  · generalize p.sweep (clock 0) = q at hswept hsafe'
    obtain ⟨hshrinks, hout⟩ := closeOutside_out cred (nodup_tunnels hsafe') reg.set
      (((Assoc.get q.live cred).map Entry.tunnels).getD [])
    have hfit := (h.shrinks hswept).shrinks hshrinks
    generalize q.closeOutside cred reg.set
      (((Assoc.get q.live cred).map Entry.tunnels).getD []) = q' at hshrinks hout hfit
    intro cred' entry' he t ht
    dsimp only at he
    rw [Assoc.get_set] at he
    split at he
    · cases he
      dsimp only at ht ⊢
      cases he' : Assoc.get q'.live cred with
      | none =>
        rw [he'] at ht
        cases ht
      | some e' =>
        rw [he'] at ht
        obtain ⟨e, he, _, hsub⟩ := hshrinks cred e' he'
        have hold : t ∈ ((Assoc.get q.live cred).map Entry.tunnels).getD [] := by
          rw [he]
          exact hsub.subset ht
        cases hset : hostInSet reg.set t.host with
        | true => rfl
        | false => exact absurd ht (hout e' he' t hold hset)
    · exact hfit cred' entry' he t ht

/-! ## A tunnel that is attached -/

/-- A tunnel that was closed is out of the registry. -/
theorem out_of_close {limits : Limits} {busy : Option Nat} {c : Place} (h : Safe limits busy p)
    (hc : p.books.places[id]? = some c) (hclosed : c.closed = false)
    (he : Assoc.get (p.close id).live c.cred = some entry) : ⟨id, c.host⟩ ∉ entry.tunnels := by
  have hts := tunnels_of_get he
  rw [books_close, Books.close_tunnels hc hclosed, if_pos rfl] at hts
  obtain ⟨ts, hts', hentry⟩ := Option.map_eq_some_iff.1 hts
  rw [← hentry]
  exact ((h.nodup _ ts hts').of_map).not_mem_erase

/-- Its credential is gone, or has a set that has the host of the request. -/
def Current (p : Proxy) (r : Request) (now : Nat) : Prop :=
  ∀ entry, Assoc.get p.live r.cred = some entry → now < entry.expiresAt →
    hostInSet entry.set r.host = true

theorem fitting_tunnel {limits : Limits} (h : p.Fitting) (hopening : Opening limits id r.cred r.host p)
    (ip : JsString) (connects : Bool) (now : Nat) (hcurrent : connects = true → Current p r now) :
    (p.tunnel id r ip connects now).Fitting := by
  have hshrinks := shrinks_liveEntry p r.cred now
  cases heq : p.liveEntry r.cred now with
  | mk found q =>
    rw [heq] at hshrinks
    cases found with
    | none =>
      unfold tunnel attach
      rw [heq]
      exact h.shrinks (hshrinks.trans (.of_live (live_reply _ _ _ _)))
    | some entry =>
      obtain ⟨hentry, rfl, hnow⟩ := liveEntry_some heq
      rw [tunnel_of_live hentry hnow]
      dsimp only
      obtain ⟨hsafe, hplace⟩ := safe_attach hopening hentry rfl
      have hget : ∀ cred, Assoc.get ((q.editEntry r.cred fun e =>
          { e with tunnels := e.tunnels ++ [⟨id, r.host⟩] }).edit id
            fun r => { r with attached := true, stage := .done }).live cred =
          if cred = r.cred then some { entry with tunnels := entry.tunnels ++ [⟨id, r.host⟩] }
          else Assoc.get q.live cred := by
        intro cred
        rw [live_edit, get_editEntry, hentry]
        rfl
      generalize (q.editEntry r.cred fun e => { e with tunnels := e.tunnels ++ [⟨id, r.host⟩] }).edit
        id (fun r => { r with attached := true, stage := .done }) = q' at hsafe hplace hget
      -- what the registry holds is what it held, and the tunnel
      have hfit : ∀ cred e, Assoc.get q'.live cred = some e → ∀ t ∈ e.tunnels,
          hostInSet e.set t.host = true ∨
            cred = r.cred ∧ e.set = entry.set ∧ t = ⟨id, r.host⟩ := by
        intro cred e he t ht
        rw [hget] at he
        split at he
        · next hcred =>
          cases he
          rcases List.mem_append.1 ht with ht | ht
          · exact .inl (h r.cred entry hentry t ht)
          · exact .inr ⟨hcred, rfl, List.mem_singleton.1 ht⟩
        · exact .inl (h cred e he t ht)
      split
      · next hconnects =>
        intro cred e he t ht
        rcases hfit cred e he t ht with hset | ⟨_, hset, rfl⟩
        · exact hset
        · rw [hset]
          exact hcurrent hconnects entry hentry hnow
      · intro cred e he t ht
        have hreply := books_reply q' id 502 ""
        obtain ⟨e', he', hset, hsub⟩ := ((Shrinks.of_live (live_reply q' id 502 "")).trans
          (shrinks_close (q'.reply id 502 "") id)) cred e he
        rcases hfit cred e' he' t (hsub.subset ht) with hin | ⟨rfl, _, rfl⟩
        · rw [hset]
          exact hin
        · exact absurd ht (out_of_close (hsafe.of_books hreply) (hreply ▸ hplace) rfl he)

theorem fitting_afterLookup {limits : Limits} (h : p.Fitting)
    (hopening : Opening limits id r.cred r.host p) (cfg : Config) (addresses : List JsString)
    (connects : Bool) (clock : Clock) (k : Nat)
    (hcurrent : ∀ ip, pickAddress addresses cfg.deny = .ok ip → r.client.destroyed = false →
      connects = true → Current p r (clock k)) :
    (p.afterLookup cfg id r addresses connects clock k).Fitting := by
  have hstart : Opening limits id r.cred r.host
      (p.edit id fun r => { r with addresses, stage := .idle }) :=
    hopening.of_books (books_edit_same fun _ => rfl)
  have hfit : (p.edit id fun r => { r with addresses, stage := .idle }).Fitting :=
    h.shrinks (.of_live rfl)
  unfold afterLookup
  dsimp only
  split
  · exact hfit.shrinks ((Shrinks.of_live (live_giveBack _ id)).trans (shrinks_deny _ _ _ _ _ _ _ _))
  · next ip hip =>
    split
    · exact hfit.shrinks (.of_live (live_giveBack _ id))
    · next hclient =>
      exact fitting_tunnel hfit hstart ip connects (clock k)
        (hcurrent ip hip (Bool.eq_false_iff.2 hclient))

/-- A request for a literal address is checked and attached within one event. -/
theorem fitting_handle {cfg : Config} (h : p.Fitting) (hsafe : Safe cfg.limits none p)
    (cred : Option Cred) (method target : JsString) (rest : Bytes) (connects : Bool) (clock : Clock) :
    (p.handle cfg cred method target rest connects clock).Fitting := by
  obtain ⟨hcame, hplace⟩ := safe_append hsafe rest
  have hfit : ({ p with requests := p.requests ++ [fresh rest] } : Proxy).Fitting :=
    h.shrinks (.of_live rfl)
  unfold handle
  dsimp only
  generalize ({ p with requests := p.requests ++ [fresh rest] } : Proxy) = p₀ at hcame hplace hfit
  generalize p.requests.length = id at hplace
  split
  · exact hfit.shrinks (.of_live (live_reply _ _ _ _))
  · next name =>
    have hlive := shrinks_liveEntry p₀ name (clock 0)
    split
    · next heq =>
      rw [heq] at hlive
      exact hfit.shrinks (hlive.trans (.of_live (live_reply _ _ _ _)))
    · next entry p₁ heq =>
      obtain ⟨hentry, rfl, -⟩ := liveEntry_some heq
      have hdeny (host : JsString) (port : Nat) (why : DenialReason) :
          (p₁.deny id name host port why clock 1).Fitting :=
        hfit.shrinks (shrinks_deny _ _ _ _ _ _ _ _)
      split
      · exact hdeny _ _ _
      · split
        · exact hdeny _ _ _
        · next host port htarget =>
          split
          · exact hdeny _ _ _
          · split
            · exact hdeny _ _ _
            · next hset =>
              split
              · exact hfit.shrinks (.of_live (live_reply _ _ _ _))
              · next hfull =>
                obtain ⟨htotal, hcred⟩ := not_or.1 hfull
                have hopening := opening_takeSlot host port entry.set
                  hcame hplace (not_le.1 htotal) (not_le.1 hcred)
                have htook : (p₁.takeSlot id (admitted rest name host port entry.set)
                    ((Assoc.get p₁.opening name).getD 0)).Fitting := hfit.shrinks (.of_live rfl)
                split
                · refine Fitting.shrinks ?_ (.of_live (live_release _ _))
                  refine fitting_afterLookup (r := admitted rest name host port entry.set) htook
                    hopening cfg [host] connects clock 1 fun _ _ _ _ e he _ => ?_
                  have hsame : Assoc.get p₁.live name = some e := he
                  rw [hentry] at hsame
                  cases hsame
                  have hin : hostInSet entry.set host = true := by simpa using hset
                  exact hin
                · exact htook

end Shrinks

end Proxy

/-- A name resolution that ends with a tunnel ends while the host is in the set of its credential. -/
def StillInSet (cfg : Config) (p : Proxy) (e : Event) : Prop :=
  match e.action with
  | .resolved id (some addresses) true => ∀ r, p.requests[id]? = some r → r.stage = .resolving →
    r.client.destroyed = false → ∀ ip, pickAddress addresses cfg.deny = .ok ip →
      p.Current r (e.clock 0)
  | _ => True

/-- Every open tunnel belongs to a registered credential whose set has its host. -/
def TunnelsCurrent (p : Proxy) : Prop :=
  ∀ r ∈ p.requests, r.isOpen = true →
    ∃ entry ∈ Assoc.get p.live r.cred, hostInSet entry.set r.host = true

instance (p : Proxy) : Decidable (TunnelsCurrent p) :=
  inferInstanceAs (Decidable (∀ r ∈ p.requests, _ → _))

namespace Proxy

variable {cfg : Config} {p : Proxy} {id : Nat} {r : Request}

theorem fitting_onRequest (h : p.Fitting) {f : Request → Proxy}
    (hf : ∀ r, p.requests[id]? = some r → (f r).Fitting) : (p.onRequest id f).Fitting := by
  unfold onRequest
  split
  · exact h
  · next r hr => exact hf r hr

theorem fitting_step (h : p.Fitting) (hsafe : Safe cfg.limits none p)
    (hgood : ∀ (id : Nat) (r : Request), p.requests[id]? = some r → r.flow.Good cfg.deny) (e : Event)
    (hstill : StillInSet cfg p e) : (p.step cfg e).Fitting := by
  unfold StillInSet at hstill
  unfold step
  cases haction : e.action with
  | put cred reg => exact fitting_put h hsafe cred reg e.clock
  | delete cred => exact h.shrinks (shrinks_delete _ _ _)
  | sweep => exact h.shrinks (shrinks_sweep _ _)
  | denials cred => exact h.shrinks (shrinks_denials _ _ _)
  | request cred method target rest connects => exact fitting_handle h hsafe _ _ _ _ _ _
  | resolved id addresses connects =>
    refine fitting_onRequest h fun r hr => ?_
    split
    · next hstage =>
      have hopening := opening_of_resolving hsafe hr (hgood id r hr) hstage
      unfold resolved
      cases addresses with
      | none => exact h.shrinks (.of_live (by simp))
      | some addresses =>
        refine Fitting.shrinks ?_ (.of_live (live_release _ _))
        refine fitting_afterLookup h hopening cfg addresses connects e.clock 0
          fun ip hip hclient hconnects => ?_
        rw [haction, hconnects] at hstill
        exact hstill r hr hstage hclient ip hip
    · exact h
  | connected id =>
    refine fitting_onRequest h fun r _ => ?_
    split
    · exact h.shrinks (shrinks_connected _ _ _ _)
    · exact h
  | connectTimeout id => exact fitting_onRequest h fun r _ => h.shrinks (shrinks_connectTimeout _ _ _)
  | upstreamError id => exact fitting_onRequest h fun r _ => h.shrinks (shrinks_upstreamError _ _ _)
  | upstreamClosed id =>
    refine fitting_onRequest h fun r _ => ?_
    split
    · exact h.shrinks (shrinks_close _ _)
    · exact h
  | clientClosed id => exact fitting_onRequest h fun r _ => h.shrinks (shrinks_clientClosed _ _ _)
  | clientBytes id bytes => exact h.shrinks (.of_live rfl)
  | clientData id n => exact fitting_onRequest h fun r _ => h.shrinks (shrinks_clientData _ _ _ _ _)
  | serverBytes id bytes => exact h.shrinks (.of_live rfl)
  | serverData id n => exact fitting_onRequest h fun r _ => h.shrinks (shrinks_serverData _ _ _ _ _)
  | helloTimeout id => exact fitting_onRequest h fun r _ => h.shrinks (shrinks_helloTimeout _ _ _ _)
  | serverHelloTimeout id =>
    exact fitting_onRequest h fun r _ => h.shrinks (shrinks_serverHelloTimeout _ _ _)
  | idleTimeout id => exact fitting_onRequest h fun r _ => h.shrinks (shrinks_idleTimeout _ _ _)

/-- Where the registry holds fitting tunnels alone, so are the open ones. -/
theorem Fitting.tunnelsCurrent (h : p.Fitting) (hsafe : Safe cfg.limits none p) :
    TunnelsCurrent p := by
  intro r hr hopen
  obtain ⟨id, hid⟩ := List.mem_iff_getElem?.1 hr
  have hplace : p.books.places[id]? = some r.place := by rw [places_getElem?, hid]; rfl
  obtain ⟨ts, hts, hmem⟩ := hsafe.covered id r.place hplace hopen (by simp)
  obtain ⟨entry, hentry, rfl⟩ := Option.map_eq_some_iff.1 hts
  exact ⟨entry, hentry, h r.cred entry hentry _ hmem⟩

/-- A request is open after it was attached and is no longer being opened. -/
theorem released_place {limits : Limits} {busy : Option Nat} {c : Place} (h : Safe limits busy p)
    (hc : p.books.places[id]? = some c) (hreserved : c.reserved = true) :
    ∃ r, (p.release id).requests[id]? = some r ∧ r.place = { c with reserved := false } := by
  have hpos := opening_pos h hc hreserved
  have hmap := hc
  rw [places_getElem?] at hmap
  obtain ⟨r, hr, rfl⟩ := Option.map_eq_some_iff.1 hmap
  have hplace : (p.release id).books.places[id]? = some { r.place with reserved := false } := by
    rw [books_release hr hreserved hpos]
    refine (Books.getElem?_edit _ _ _ _).trans ?_
    rw [if_pos rfl]
    show (p.books.places[id]?).map _ = _
    rw [hc]
    rfl
  rw [places_getElem?] at hplace
  exact Option.map_eq_some_iff.1 hplace

/-- A name resolution that ends with a tunnel leaves it open, for the set of that time. -/
theorem resolved_opens (addresses : List JsString)
    (hopening : Opening cfg.limits id r.cred r.host p) {entry : Entry} {ip : JsString} {clock : Clock}
    (hentry : Assoc.get p.live r.cred = some entry) (hnow : clock 0 < entry.expiresAt)
    (hip : pickAddress addresses cfg.deny = .ok ip) (hclient : r.client.destroyed = false)
    (h : TunnelsCurrent (p.resolved cfg id r (some addresses) true clock)) :
    hostInSet entry.set r.host = true := by
  have hstart : Opening cfg.limits id r.cred r.host
      (p.edit id fun r => { r with addresses, stage := .idle }) :=
    hopening.of_books (books_edit_same fun _ => rfl)
  have hrun : p.afterLookup cfg id r addresses true clock 0 =
      (p.edit id fun r => { r with addresses, stage := .idle }).tunnel id r ip true (clock 0) := by
    unfold afterLookup
    dsimp only
    rw [hip]
    simp only [hclient, Bool.false_eq_true, if_false]
  unfold resolved at h
  dsimp only at h
  rw [hrun] at h
  have hentry' : Assoc.get (p.edit id fun r => { r with addresses, stage := .idle }).live r.cred =
      some entry := hentry
  generalize (p.edit id fun r => { r with addresses, stage := .idle }) = q at hstart hentry' h
  obtain ⟨hsafe, hplace⟩ := safe_attach hstart hentry' rfl
  have hlive : Assoc.get ((q.editEntry r.cred fun e =>
      { e with tunnels := e.tunnels ++ [⟨id, r.host⟩] }).edit id
        fun r => { r with attached := true, stage := .done }).live r.cred =
      some { entry with tunnels := entry.tunnels ++ [⟨id, r.host⟩] } := by
    rw [live_edit, get_editEntry, if_pos rfl, hentry']
    rfl
  rw [tunnel_of_live hentry' hnow] at h
  dsimp only [if_true] at h
  generalize (q.editEntry r.cred fun e => { e with tunnels := e.tunnels ++ [⟨id, r.host⟩] }).edit
    id (fun r => { r with attached := true, stage := .done }) = q' at hsafe hplace hlive h
  have hconnecting : (q'.edit id fun r => { r with ip := some ip, stage := .connecting }).books =
      q'.books := books_edit_same fun _ => rfl
  have hlive' : Assoc.get (q'.edit id fun r => { r with ip := some ip, stage := .connecting }).live
      r.cred = some { entry with tunnels := entry.tunnels ++ [⟨id, r.host⟩] } := hlive
  rw [← hconnecting] at hplace
  have hsafe' := hsafe.of_books hconnecting
  simp only [if_true] at h
  generalize (q'.edit id fun r => { r with ip := some ip, stage := .connecting }) = q''
    at hplace hlive' hsafe' h
  obtain ⟨r', hr', hplace'⟩ := released_place hsafe' hplace rfl
  have hcred : r'.cred = r.cred := congrArg Place.cred hplace'
  have hhost : r'.host = r.host := congrArg Place.host hplace'
  have hopen : r'.isOpen = true := congrArg Place.isOpen hplace'
  obtain ⟨entry', hentry', hset⟩ := h r' (List.mem_of_getElem? hr') hopen
  rw [live_release, hcred] at hentry'
  rw [hhost] at hset
  cases hlive'.symm.trans hentry'
  exact hset

theorem stillInSet_of_current (hsafe : Safe cfg.limits none p)
    (hgood : ∀ (id : Nat) (r : Request), p.requests[id]? = some r → r.flow.Good cfg.deny) {e : Event}
    (h : TunnelsCurrent (p.step cfg e)) : StillInSet cfg p e := by
  unfold StillInSet
  split
  · next id addresses haction =>
    intro r hr hstage hclient ip hip entry hentry hnow
    have hopening := opening_of_resolving hsafe hr (hgood id r hr) hstage
    refine resolved_opens addresses hopening hentry hnow hip hclient ?_
    unfold step at h
    rw [haction] at h
    unfold onRequest at h
    dsimp only at h
    rw [hr] at h
    dsimp only at h
    rwa [if_pos hstage] at h
  · trivial

theorem good_requests (cfg : Config) (events : List Event) (id : Nat) (r : Request)
    (hr : (Run.after (step cfg) new events).requests[id]? = some r) : r.flow.Good cfg.deny := by
  have hflow : (Run.after (step cfg) new events).flows[id]? = some r.flow := by
    rw [flows_getElem?, hr]
    rfl
  exact good_after cfg hflow

theorem fitting_after (cfg : Config) {events : List Event}
    (h : Run.Obeys (step cfg) (StillInSet cfg) new events) :
    (Run.after (step cfg) new events).Fitting := by
  induction events using List.reverseRecOn with
  | nil => exact fun _ _ => nofun
  | append_singleton events e ih =>
    obtain ⟨hbefore, hstill, _⟩ := Run.obeys_append.1 h
    rw [Run.after_append]
    exact fitting_step (ih hbefore) (safe_after cfg events) (good_requests cfg events) e hstill

end Proxy

/-- Open tunnels obey the current registration in every state of a run, exactly when each name
resolution of the run that ends with a tunnel ends while its credential's set has the host. -/
theorem tunnels_current_iff (cfg : Config) (events : List Event) :
    (∀ before later, events = before ++ later →
        TunnelsCurrent (Run.after (Proxy.step cfg) .new before)) ↔
      Run.Obeys (Proxy.step cfg) (StillInSet cfg) .new events := by
  constructor
  · intro h
    induction events using List.reverseRecOn with
    | nil => trivial
    | append_singleton events e ih =>
      refine Run.obeys_append.2 ⟨ih fun before later heq => ?_, ?_, trivial⟩
      · exact h before (later ++ [e]) (by rw [heq, List.append_assoc])
      · refine Proxy.stillInSet_of_current (Proxy.safe_after cfg events)
          (Proxy.good_requests cfg events) ?_
        have hcurrent := h (events ++ [e]) [] (List.append_nil _).symm
        rwa [Run.after_append] at hcurrent
  · rintro h before later rfl
    exact (Proxy.fitting_after cfg (Run.obeys_append.1 h).1).tunnelsCurrent
      (Proxy.safe_after cfg before)

/-- The set of a credential is replaced while the name of a request resolves. -/
def narrowedRun : List Event :=
  [.put [1] ⟨.names [utf16 "a.eu"], 60, [], []⟩,
    .request (some [1]) (utf16 "CONNECT") (utf16 "a.eu:443") [] true,
    .put [1] ⟨.names [utf16 "b.eu"], 60, [], []⟩,
    .resolved 0 (some [utf16 "1.2.3.4"]) true].map (Event.mk fun _ => 0)

theorem narrowed_tunnel_stays_open :
    ¬ TunnelsCurrent (Run.after (Proxy.step ⟨[], ⟨4, 8⟩⟩) .new narrowedRun) := by
  decide +kernel

end Lynox.Egress
