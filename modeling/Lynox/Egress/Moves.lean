import Lynox.Egress.Flows
import Mathlib.Logic.Relation

/-!
# The moves of a flow

What an event of a request does to its flow (`Flow.Step`), and that an event of the proxy leaves
every flow as it is, moves it so, or is the request the flow is born of (`Proxy.flows_step`).
-/

namespace Lynox.Egress

open Text

/-- A tunnel was attached for the request. -/
def Stage.inTunnel : Stage → Bool
  | .idle => false
  | .resolving => false
  | _ => true

namespace Flow

def readClient (n : Nat) (c : Flow) : Flow :=
  { c with inbox := c.inbox.drop n }

def readServer (n : Nat) (c : Flow) : Flow :=
  { c with serverInbox := c.serverInbox.drop n }

/-- What an event of a request does to its flow. -/
inductive Step (deny : List JsString) (c : Flow) : Flow → Prop
  | unresolved (hstage : c.stage = .resolving) :
    Step deny c { c with stage := .idle, reserved := false }
  | resolved (addresses : List JsString) (g : Flow → Flow) (hstage : c.stage = .resolving)
    (hg : Proxy.AfterLookup deny addresses g) : Step deny c { g c with reserved := false }
  | connected (closed : Bool) (hstage : c.stage = .connecting) :
    Step deny c (c.connected c.host closed (c.set ≠ .all) c.rest)
  | hello (closed : Bool) (buf : Bytes) (n : Nat) (hstage : c.stage = .hello buf) :
    Step deny c ((c.readClient n).checkFirst c.host closed (buf ++ c.inbox.take n))
  | answer (closed : Bool) (behind buf : Bytes) (n : Nat) (hstage : c.stage = .answer behind buf) :
    Step deny c ((c.readServer n).checkAnswer c.host closed behind (buf ++ c.serverInbox.take n))
  | secondHello (closed : Bool) (buf : Bytes) (n : Nat) (hstage : c.stage = .secondHello buf) :
    Step deny c ((c.readClient n).checkSecond c.host closed (buf ++ c.inbox.take n))
  | pipe (n : Nat) (hstage : c.stage = .piping) :
    Step deny c ((c.readClient n).write (c.inbox.take n))
  | pipeBack (n : Nat) (hstage : c.stage = .piping) : Step deny c (c.readServer n)
  | done (hstage : c.stage.inTunnel = true) : Step deny c { c with stage := .done }
  | clientBytes (bytes : Bytes) :
    Step deny c { c with came := c.came ++ bytes, inbox := c.inbox ++ bytes }
  | serverBytes (bytes : Bytes) :
    Step deny c { c with
      serverCame := c.serverCame ++ bytes, serverInbox := c.serverInbox ++ bytes }

section Step

variable {deny : List JsString} {c : Flow}

/-- What a request is for does not change, and what came stays. -/
structure Same (c c' : Flow) : Prop where
  cred : c'.cred = c.cred
  host : c'.host = c.host
  set : c'.set = c.set
  rest : c'.rest = c.rest
  asked : c'.asked = c.asked
  came : c.came <+: c'.came

theorem Same.refl (c : Flow) : c.Same c :=
  ⟨rfl, rfl, rfl, rfl, rfl, List.prefix_rfl⟩

theorem Same.trans {c' c'' : Flow} (h : c.Same c') (h' : c'.Same c'') : c.Same c'' :=
  ⟨h'.cred.trans h.cred, h'.host.trans h.host, h'.set.trans h.set, h'.rest.trans h.rest,
    h'.asked.trans h.asked, h.came.trans h'.came⟩

theorem same_checkFirst (c : Flow) (host : JsString) (closed : Bool) (buf : Bytes) :
    c.Same (c.checkFirst host closed buf) := by
  unfold checkFirst
  split
  · exact ⟨rfl, rfl, rfl, rfl, rfl, List.prefix_rfl⟩
  · exact ⟨rfl, rfl, rfl, rfl, rfl, List.prefix_rfl⟩
  · split <;> exact ⟨rfl, rfl, rfl, rfl, rfl, List.prefix_rfl⟩

theorem same_checkSecond (c : Flow) (host : JsString) (closed : Bool) (buf : Bytes) :
    c.Same (c.checkSecond host closed buf) := by
  unfold checkSecond
  split
  · exact ⟨rfl, rfl, rfl, rfl, rfl, List.prefix_rfl⟩
  · exact ⟨rfl, rfl, rfl, rfl, rfl, List.prefix_rfl⟩
  · split <;> exact ⟨rfl, rfl, rfl, rfl, rfl, List.prefix_rfl⟩

theorem same_checkAnswer (c : Flow) (host : JsString) (closed : Bool) (behind buf : Bytes) :
    c.Same (c.checkAnswer host closed behind buf) := by
  unfold checkAnswer
  split
  · exact ⟨rfl, rfl, rfl, rfl, rfl, List.prefix_rfl⟩
  · split
    · exact ⟨rfl, rfl, rfl, rfl, rfl, List.prefix_rfl⟩
    · exact same_checkSecond _ _ _ _
  · split <;> exact ⟨rfl, rfl, rfl, rfl, rfl, List.prefix_rfl⟩

theorem Step.same {c' : Flow} (hstep : Step deny c c') : c.Same c' := by
  cases hstep with
  | resolved addresses g hstage hg => cases hg <;> exact ⟨rfl, rfl, rfl, rfl, rfl, List.prefix_rfl⟩
  | connected closed hstage =>
    unfold Flow.connected
    split
    · exact Same.refl c
    · split
      · exact (⟨rfl, rfl, rfl, rfl, rfl, List.prefix_rfl⟩ : c.Same { c with established := true }).trans
          (same_checkFirst _ _ _ _)
      · exact ⟨rfl, rfl, rfl, rfl, rfl, List.prefix_rfl⟩
  | hello closed buf n hstage =>
    exact (⟨rfl, rfl, rfl, rfl, rfl, List.prefix_rfl⟩ : c.Same (c.readClient n)).trans
      (same_checkFirst _ _ _ _)
  | answer closed behind buf n hstage =>
    exact (⟨rfl, rfl, rfl, rfl, rfl, List.prefix_rfl⟩ : c.Same (c.readServer n)).trans
      (same_checkAnswer _ _ _ _ _)
  | secondHello closed buf n hstage =>
    exact (⟨rfl, rfl, rfl, rfl, rfl, List.prefix_rfl⟩ : c.Same (c.readClient n)).trans
      (same_checkSecond _ _ _ _)
  | clientBytes bytes => exact ⟨rfl, rfl, rfl, rfl, rfl, List.prefix_append _ _⟩
  | _ => exact ⟨rfl, rfl, rfl, rfl, rfl, List.prefix_rfl⟩

/-- A request for which nothing is under way stays so. -/
theorem Step.idle {c' : Flow} (hstep : Step deny c c') (hidle : c.stage = .idle) :
    c'.stage = .idle ∧ c'.attached = c.attached := by
  cases hstep with
  | clientBytes bytes => exact ⟨hidle, rfl⟩
  | serverBytes bytes => exact ⟨hidle, rfl⟩
  | done hstage =>
    rw [hidle] at hstage
    cases hstage
  | unresolved hstage | resolved _ _ hstage | connected _ hstage | hello _ _ _ hstage
  | answer _ _ _ _ hstage | secondHello _ _ _ hstage | pipe _ hstage | pipeBack _ hstage =>
    rw [hidle] at hstage
    cases hstage

/-- What steps make of a flow. -/
abbrev Grown (deny : List JsString) : Flow → Flow → Prop :=
  Relation.ReflTransGen (Step deny)

theorem Grown.same {c' : Flow} (h : Grown deny c c') : c.Same c' := by
  induction h with
  | refl => exact Same.refl c
  | tail _ hstep ih => exact ih.trans hstep.same

theorem Grown.idle {c' : Flow} (h : Grown deny c c') (hidle : c.stage = .idle) :
    c'.stage = .idle ∧ c'.attached = c.attached := by
  induction h with
  | refl => exact ⟨hidle, rfl⟩
  | tail _ hstep ih =>
    obtain ⟨hidle', hattached⟩ := hstep.idle ih.1
    exact ⟨hidle', hattached.trans ih.2⟩

end Step

end Flow

namespace Proxy

/-! ## What an event does to the flows -/

/-- Every flow is an earlier one, or what an event of its request made of that. -/
def Moved (deny : List JsString) (p p' : Proxy) : Prop :=
  ∀ (id : Nat) (c' : Flow), p'.flows[id]? = some c' →
    ∃ c, p.flows[id]? = some c ∧ (c' = c ∨ Flow.Step deny c c')

section Moved

variable {deny : List JsString} {p p' : Proxy} {id : Nat} {r : Request} {g : Flow → Flow}

theorem moved_same (h : p'.flows = p.flows) : Moved deny p p' :=
  fun _ c' hc => ⟨c', h ▸ hc, .inl rfl⟩

/-- One flow was moved. -/
theorem moved_modify (h : p'.flows = p.flows.modify id g) (hr : p.requests[id]? = some r)
    (hg : g r.flow = r.flow ∨ Flow.Step deny r.flow (g r.flow)) : Moved deny p p' := by
  intro j c' hc
  rw [h, List.getElem?_modify] at hc
  have hflow : p.flows[id]? = some r.flow := by rw [flows_getElem?, hr]; rfl
  by_cases hj : id = j
  · subst hj
    rw [hflow] at hc
    simp only [if_true, Option.map_eq_map, Option.map_some] at hc
    cases hc
    exact ⟨_, hflow, hg⟩
  · simp only [hj, if_false, Option.map_eq_map, Option.map_id'] at hc
    exact ⟨c', hc, .inl rfl⟩

/-- A request was edited. -/
theorem moved_edit {f : Request → Request}
    (hf : ∀ r : Request, (f r).flow = r.flow ∨ Flow.Step deny r.flow (f r).flow) :
    Moved deny p (p.edit id f) := by
  intro j c' hc
  rw [flows_getElem?, Proxy.edit, List.getElem?_modify] at hc
  rw [flows_getElem?]
  cases hr : p.requests[j]? with
  | none =>
    rw [hr] at hc
    cases hc
  | some r =>
    rw [hr] at hc
    refine ⟨r.flow, rfl, ?_⟩
    by_cases hj : id = j
    · simp only [hj, if_true, Option.map_eq_map, Option.map_some] at hc
      cases hc
      exact hf r
    · simp only [hj, if_false, Option.map_eq_map, Option.map_some] at hc
      cases hc
      exact .inl rfl

theorem moved_onRequest {f : Request → Proxy}
    (h : ∀ r, p.requests[id]? = some r → Moved deny p (f r)) : Moved deny p (p.onRequest id f) := by
  unfold onRequest
  split
  · exact moved_same rfl
  · next r hr => exact h r hr

end Moved

section Handlers

variable {p : Proxy} {id : Nat} {r : Request} {deny : List JsString}

theorem moved_resolved (cfg : Config) (hr : p.requests[id]? = some r) (hstage : r.stage = .resolving)
    (addresses : Option (List JsString)) (connects : Bool) (clock : Clock) :
    Moved cfg.deny p (p.resolved cfg id r addresses connects clock) := by
  cases addresses with
  | none =>
    refine moved_modify (g := fun c => { c with stage := .idle, reserved := false }) ?_ hr
      (.inr (.unresolved hstage))
    unfold resolved
    rw [flows_release, flows_reply, flows_giveBack, flows_setStage, List.modify_modify_eq]
    rfl
  | some addresses =>
    obtain ⟨g, hg, hflows⟩ := flows_afterLookup p cfg id r addresses connects clock 0
    refine moved_modify (g := fun c => { g c with reserved := false }) ?_ hr
      (.inr (.resolved addresses g hstage hg))
    unfold resolved
    rw [flows_release, hflows, List.modify_modify_eq]
    rfl

theorem moved_clientData (hr : p.requests[id]? = some r) (n : Nat) (clock : Clock) :
    Moved deny p (p.clientData id r n clock) := by
  have hread : (p.edit id fun r =>
      { r with client := { r.client with inbox := r.client.inbox.drop n } }).flows =
      p.flows.modify id (Flow.readClient n) := flows_edit fun _ => rfl
  unfold clientData
  dsimp only
  split
  · exact moved_same rfl
  · split
    · next buf hstage =>
      refine moved_modify (g := fun c => (c.readClient n).checkFirst r.host r.closed
        (buf ++ r.client.inbox.take n)) ?_ hr (.inr (.hello r.closed buf n hstage))
      rw [flows_checkFirst, hread, List.modify_modify_eq]
      rfl
    · next buf hstage =>
      refine moved_modify (g := fun c => (c.readClient n).checkSecond r.host r.closed
        (buf ++ r.client.inbox.take n)) ?_ hr (.inr (.secondHello r.closed buf n hstage))
      rw [flows_checkSecond, hread, List.modify_modify_eq]
      rfl
    · next hstage =>
      refine moved_modify (g := fun c => (c.readClient n).write (r.client.inbox.take n)) ?_ hr
        (.inr (.pipe n hstage))
      rw [flows_writeUpstream, hread, List.modify_modify_eq]
      rfl
    · exact moved_same rfl

theorem moved_serverData (hr : p.requests[id]? = some r) (n : Nat) (clock : Clock) :
    Moved deny p (p.serverData id r n clock) := by
  have hread : (p.edit id fun r =>
      { r with upstream := { r.upstream with inbox := r.upstream.inbox.drop n } }).flows =
      p.flows.modify id (Flow.readServer n) := flows_edit fun _ => rfl
  unfold serverData
  dsimp only
  split
  · exact moved_same rfl
  · split
    · next behind buf hstage =>
      refine moved_modify (g := fun c => (c.readServer n).checkAnswer r.host r.closed behind
        (buf ++ r.upstream.inbox.take n)) ?_ hr (.inr (.answer r.closed behind buf n hstage))
      rw [flows_checkAnswer, hread, List.modify_modify_eq]
      rfl
    · next hstage =>
      exact moved_modify ((flows_writeClient _ _ _).trans hread) hr (.inr (.pipeBack n hstage))
    · exact moved_same rfl

theorem moved_helloTimeout (hr : p.requests[id]? = some r) (clock : Clock) :
    Moved deny p (p.helloTimeout id r clock) := by
  have hdone (hstage : r.stage.inTunnel = true) : Moved deny p
      (if r.closed then p.setStage id .done
        else (p.setStage id .done).refuse id r .helloTimeout none clock) := by
    refine moved_modify (g := fun c => { c with stage := .done }) ?_ hr (.inr (.done hstage))
    split
    · exact flows_setStage _ _ _
    · rw [flows_refuse, flows_setStage]
  unfold helloTimeout
  dsimp only
  split
  · next h => exact hdone (by rw [h]; rfl)
  · next h => exact hdone (by rw [h]; rfl)
  · exact moved_same rfl

theorem moved_serverHelloTimeout (hr : p.requests[id]? = some r) :
    Moved deny p (p.serverHelloTimeout id r) := by
  unfold serverHelloTimeout
  dsimp only
  split
  · next h =>
    refine moved_modify (g := fun c => { c with stage := .done }) ?_ hr
      (.inr (.done (show r.stage.inTunnel = true by rw [h]; rfl)))
    split
    · exact flows_setStage _ _ _
    · rw [flows_close, flows_setStage]
  · exact moved_same rfl

theorem moved_clientClosed (id : Nat) (r : Request) : Moved deny p (p.clientClosed id r) := by
  refine moved_same ?_
  unfold clientClosed
  dsimp only
  split
  · rw [flows_close, flows_destroyClient]
  · exact flows_destroyClient _ _

theorem moved_upstreamError (id : Nat) (r : Request) : Moved deny p (p.upstreamError id r) := by
  refine moved_same ?_
  unfold upstreamError
  split
  · rfl
  · rw [flows_close]
    split
    · rfl
    · exact flows_reply _ _ _ _

theorem moved_connectTimeout (id : Nat) (r : Request) : Moved deny p (p.connectTimeout id r) := by
  refine moved_same ?_
  unfold connectTimeout
  split
  · rw [flows_close, flows_reply]
  · rfl

theorem moved_receive (id : Nat) (bytes : Bytes) :
    Moved deny p (p.edit id fun r => { r with client := r.client.receive bytes }) ∧
      Moved deny p (p.edit id fun r => { r with upstream := r.upstream.receive bytes }) := by
  refine ⟨moved_edit fun r => ?_, moved_edit fun r => ?_⟩
  · unfold Socket.receive
    split
    · exact .inl rfl
    · exact .inr (.clientBytes bytes)
  · unfold Socket.receive
    split
    · exact .inl rfl
    · exact .inr (.serverBytes bytes)

end Handlers

/-! ## Requests that come -/

/-- The flow of a request that has just come : it was admitted with the set its credential has, or
nothing is done for it. -/
inductive Born (deny : List JsString) (p : Proxy) (cred : Option Cred) (target : JsString)
    (rest : Bytes) : Flow → Prop
  | refused : Born deny p cred target rest (fresh rest).flow
  | admitted (name : Cred) (host : JsString) (port : Nat) (entry : Entry)
    (hcred : cred = some name) (hlive : Assoc.get p.live name = some entry)
    (htarget : parseAuthority target = .ok (host, port)) (hport : port ∈ ALLOWED_PORTS)
    (hset : hostInSet entry.set host = true) {c : Flow}
    (hc : c = (admitted rest name host port entry.set).flow ∨
      Flow.Step deny (admitted rest name host port entry.set).flow c) :
    Born deny p cred target rest c

theorem liveEntry_some {p p' : Proxy} {cred : Cred} {now : Nat} {entry : Entry}
    (h : p.liveEntry cred now = (some entry, p')) :
    Assoc.get p.live cred = some entry ∧ p' = p ∧ now < entry.expiresAt := by
  unfold liveEntry at h
  split at h
  · cases h
  · next e he =>
    split at h
    · cases h
    · next hlate =>
      cases h
      exact ⟨he, rfl, Nat.lt_of_not_le hlate⟩

/-- The flows of a request that has just come beside the others. -/
theorem flows_append (p : Proxy) (r : Request) :
    ({ p with requests := p.requests ++ [r] } : Proxy).flows = p.flows ++ [r.flow] :=
  List.map_append

theorem modify_last {α : Type*} (l : List α) (a : α) (g : α → α) :
    (l ++ [a]).modify l.length g = l ++ [g a] := by
  induction l with
  | nil => rfl
  | cons b l ih => simp [ih]

theorem flows_handle (p : Proxy) (cfg : Config) (cred : Option Cred) (method target : JsString)
    (rest : Bytes) (connects : Bool) (clock : Clock) :
    ∃ c, Born cfg.deny p cred target rest c ∧
      (p.handle cfg cred method target rest connects clock).flows = p.flows ++ [c] := by
  have hcame := flows_append p (fresh rest)
  unfold handle
  dsimp only
  generalize hp₀ : ({ p with requests := p.requests ++ [fresh rest] } : Proxy) = p₀ at hcame
  have hlive₀ : p₀.live = p.live := by rw [← hp₀]
  split
  · exact ⟨_, .refused, (flows_reply _ _ _ _).trans hcame⟩
  · next name =>
    have hlive := flows_liveEntry p₀ name (clock 0)
    split
    · next h =>
      rw [h] at hlive
      exact ⟨_, .refused, (flows_reply _ _ _ _).trans (hlive.trans hcame)⟩
    · next entry p₁ h =>
      obtain ⟨hentry, rfl, -⟩ := liveEntry_some h
      rw [hlive₀] at hentry
      have hdeny (host : JsString) (port : Nat) (why : DenialReason) :
          ∃ c, Born cfg.deny p (some name) target rest c ∧
            (p₁.deny p.requests.length name host port why clock 1).flows = p.flows ++ [c] :=
        ⟨_, .refused, (flows_deny _ _ _ _ _ _ _ _).trans hcame⟩
      split
      · exact hdeny _ _ _
      · split
        · exact hdeny _ _ _
        · next host port htarget =>
          split
          · exact hdeny _ _ _
          · next hport =>
            split
            · exact hdeny _ _ _
            · next hset =>
              split
              · exact ⟨_, .refused, (flows_reply _ _ _ _).trans hcame⟩
              · next hfull =>
                have hmem : port ∈ ALLOWED_PORTS := not_not.1 hport
                have hin : hostInSet entry.set host = true := by simpa using hset
                have htook : (p₁.takeSlot p.requests.length
                    (Proxy.admitted rest name host port entry.set)
                    ((Assoc.get p₁.opening name).getD 0)).flows =
                    p.flows ++ [(Proxy.admitted rest name host port entry.set).flow] := by
                  unfold takeSlot
                  rw [flows_edit (g := fun _ => (Proxy.admitted rest name host port entry.set).flow)
                    fun _ => rfl]
                  show p₁.flows.modify _ _ = _
                  rw [hcame, show p.requests.length = p.flows.length from (List.length_map _).symm,
                    modify_last]
                split
                · obtain ⟨g, hg, hflows⟩ := flows_afterLookup (p₁.takeSlot p.requests.length
                    (Proxy.admitted rest name host port entry.set)
                    ((Assoc.get p₁.opening name).getD 0)) cfg p.requests.length
                    (Proxy.admitted rest name host port entry.set) [host] connects clock 1
                  refine ⟨_, .admitted name host port entry rfl hentry htarget hmem hin
                    (.inr (.resolved [host] g rfl hg)), ?_⟩
                  rw [flows_release, hflows, htook, List.modify_modify_eq,
                    show p.requests.length = p.flows.length from (List.length_map _).symm,
                    modify_last]
                  rfl
                · exact ⟨_, .admitted name host port entry rfl hentry htarget hmem hin (.inl rfl),
                    htook⟩

/-- An event leaves a flow as it is, moves it, or is the request the flow is born of. -/
theorem flows_step (cfg : Config) (p : Proxy) (e : Event) {id : Nat} {c' : Flow}
    (hc : (p.step cfg e).flows[id]? = some c') :
    (∃ c, p.flows[id]? = some c ∧ (c' = c ∨ Flow.Step cfg.deny c c')) ∨
      ∃ cred method target rest connects, e.action = .request cred method target rest connects ∧
        id = p.requests.length ∧ Born cfg.deny p cred target rest c' := by
  unfold step at hc
  cases haction : e.action <;> rw [haction] at hc <;> dsimp only at hc
  case request cred method target rest connects =>
    obtain ⟨c, hborn, hflows⟩ := flows_handle p cfg cred method target rest connects e.clock
    rw [hflows] at hc
    by_cases hid : id < p.flows.length
    · rw [List.getElem?_append_left hid] at hc
      exact .inl ⟨c', hc, .inl rfl⟩
    · rw [List.getElem?_append_right (Nat.le_of_not_lt hid), List.getElem?_singleton] at hc
      split at hc
      · next hzero =>
        cases hc
        have hlength : p.flows.length = p.requests.length := List.length_map _
        exact .inr ⟨cred, method, target, rest, connects, rfl, by omega, hborn⟩
      · cases hc
  all_goals refine .inl ?_
  case put cred reg => exact moved_same (flows_put _ _ _ _) _ _ hc
  case delete cred => exact moved_same (flows_delete _ _ _) _ _ hc
  case sweep => exact moved_same (flows_sweep _ _) _ _ hc
  case denials cred => exact moved_same (flows_denials _ _ _) _ _ hc
  case resolved id addresses connects =>
    refine moved_onRequest (fun r hr => ?_) _ _ hc
    split
    · next hstage => exact moved_resolved cfg hr hstage addresses connects e.clock
    · exact moved_same rfl
  case connected id =>
    refine moved_onRequest (fun r hr => ?_) _ _ hc
    split
    · next hstage =>
      exact moved_modify (flows_connected _ _ _ _) hr (.inr (.connected r.closed hstage))
    · exact moved_same rfl
  case connectTimeout id => exact moved_onRequest (fun r _ => moved_connectTimeout id r) _ _ hc
  case upstreamError id => exact moved_onRequest (fun r _ => moved_upstreamError id r) _ _ hc
  case upstreamClosed id =>
    refine moved_onRequest (fun r _ => ?_) _ _ hc
    split
    · exact moved_same (flows_close _ _)
    · exact moved_same rfl
  case clientClosed id => exact moved_onRequest (fun r _ => moved_clientClosed id r) _ _ hc
  case clientBytes id bytes => exact (moved_receive id bytes).1 _ _ hc
  case clientData id n => exact moved_onRequest (fun r hr => moved_clientData hr n e.clock) _ _ hc
  case serverBytes id bytes => exact (moved_receive id bytes).2 _ _ hc
  case serverData id n => exact moved_onRequest (fun r hr => moved_serverData hr n e.clock) _ _ hc
  case helloTimeout id => exact moved_onRequest (fun r hr => moved_helloTimeout hr e.clock) _ _ hc
  case serverHelloTimeout id =>
    exact moved_onRequest (fun r hr => moved_serverHelloTimeout hr) _ _ hc
  case idleTimeout id =>
    refine moved_onRequest (fun r _ => ?_) _ _ hc
    unfold idleTimeout
    split
    · exact moved_same (flows_close _ _)
    · exact moved_same rfl

/-! ## Where a flow comes from -/

/-- A flow of a run is what steps made of the flow its request was born with. -/
theorem origin (cfg : Config) {events : List Event} {id : Nat} {c : Flow}
    (hc : (Run.after (step cfg) new events).flows[id]? = some c) :
    ∃ before clock later cred method target rest connects,
      events = before ++ ⟨clock, .request cred method target rest connects⟩ :: later ∧
      id = (Run.after (step cfg) new before).requests.length ∧
      ∃ c₀, Born cfg.deny (Run.after (step cfg) new before) cred target rest c₀ ∧
        Flow.Grown cfg.deny c₀ c := by
  induction events using List.reverseRecOn generalizing c with
  | nil => cases hc
  | append_singleton events e ih =>
    rw [Run.after_append] at hc
    rcases flows_step cfg _ e hc with
      ⟨c₁, hc₁, hstep⟩ | ⟨cred, method, target, rest, connects, haction, hid, hborn⟩
    · obtain ⟨before, clock, later, cred, method, target, rest, connects, hevents, hid, c₀, hborn,
        hgrown⟩ := ih hc₁
      refine ⟨before, clock, later ++ [e], cred, method, target, rest, connects, ?_, hid, c₀, hborn,
        ?_⟩
      · rw [hevents, List.append_assoc]
        rfl
      · rcases hstep with rfl | hstep
        · exact hgrown
        · exact hgrown.tail hstep
    · obtain ⟨clock, action⟩ := e
      subst haction
      exact ⟨events, clock, [], cred, method, target, rest, connects, rfl, hid, c, hborn, .refl⟩

end Proxy

end Lynox.Egress
