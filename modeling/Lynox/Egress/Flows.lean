import Lynox.Egress.Proxy

/-!
# What a request reads and writes

A `Flow` is a request without what closing a tunnel changes. Whatever the registry does, every flow
stays as it is; the handler of a request's event changes the flow of that request alone.
-/

namespace Lynox.Egress

open Text

structure Flow where
  cred : Cred
  host : JsString
  set : HostSet
  rest : Bytes
  asked : Bool
  addresses : List JsString
  ip : Option JsString
  reserved : Bool
  attached : Bool
  established : Bool
  stage : Stage
  came : Bytes
  inbox : Bytes
  serverCame : Bytes
  serverInbox : Bytes
  wrote : List Bytes

def Request.flow (r : Request) : Flow where
  cred := r.cred
  host := r.host
  set := r.set
  rest := r.rest
  asked := r.asked
  addresses := r.addresses
  ip := r.ip
  reserved := r.reserved
  attached := r.attached
  established := r.established
  stage := r.stage
  came := r.client.came
  inbox := r.client.inbox
  serverCame := r.upstream.came
  serverInbox := r.upstream.inbox
  wrote := r.upstream.wrote

/-- Nothing is written for no bytes. -/
def Flow.write (c : Flow) (bytes : Bytes) : Flow :=
  { c with wrote := if bytes = [] then c.wrote else c.wrote ++ [bytes] }

theorem map_modify {α β : Type*} {h : α → β} {f : α → α} {g : β → β} (hfg : ∀ a, h (f a) = g (h a))
    (l : List α) (i : Nat) : (l.modify i f).map h = (l.map h).modify i g := by
  refine List.ext_getElem? fun j => ?_
  rw [List.getElem?_map, List.getElem?_modify, List.getElem?_modify, List.getElem?_map]
  cases l[j]? with
  | none => rfl
  | some a =>
    by_cases hij : i = j
    · simp [hij, hfg]
    · simp [hij]

theorem modify_same {α : Type*} (l : List α) (i : Nat) : l.modify i (fun a => a) = l :=
  l.modify_id i

namespace Proxy

def flows (p : Proxy) : List Flow :=
  p.requests.map Request.flow

section Flows

variable {p : Proxy} {id : Nat} {f : Request → Request} {g : Flow → Flow} {r : Request}

theorem flows_edit (hfg : ∀ r, (f r).flow = g r.flow) : (p.edit id f).flows = p.flows.modify id g :=
  map_modify hfg _ _

theorem flows_edit_same (hf : ∀ r, (f r).flow = r.flow) : (p.edit id f).flows = p.flows := by
  rw [flows_edit (g := fun c => c) hf, modify_same]

theorem flows_getElem? (p : Proxy) (id : Nat) : p.flows[id]? = p.requests[id]?.map Request.flow :=
  List.getElem?_map

@[simp] theorem flows_setStage (p : Proxy) (id : Nat) (stage : Stage) :
    (p.setStage id stage).flows = p.flows.modify id fun c => { c with stage } :=
  flows_edit fun _ => rfl

@[simp] theorem flows_writeClient (p : Proxy) (id : Nat) (bytes : Bytes) :
    (p.writeClient id bytes).flows = p.flows :=
  flows_edit_same fun _ => rfl

@[simp] theorem flows_writeUpstream (p : Proxy) (id : Nat) (bytes : Bytes) :
    (p.writeUpstream id bytes).flows = p.flows.modify id fun c => c.write bytes := by
  unfold writeUpstream Flow.write
  split
  · exact (modify_same _ _).symm
  · exact flows_edit fun _ => rfl

@[simp] theorem flows_destroyClient (p : Proxy) (id : Nat) :
    (p.destroyClient id).flows = p.flows :=
  flows_edit_same fun _ => rfl

@[simp] theorem flows_destroyUpstream (p : Proxy) (id : Nat) :
    (p.destroyUpstream id).flows = p.flows :=
  flows_edit_same fun _ => rfl

@[simp] theorem flows_reply (p : Proxy) (id code : Nat) (extra : String) :
    (p.reply id code extra).flows = p.flows := by
  unfold reply
  split
  · rfl
  · split
    · rfl
    · exact flows_writeClient _ _ _

@[simp] theorem flows_giveBack (p : Proxy) (id : Nat) : (p.giveBack id).flows = p.flows :=
  flows_edit_same (p := { p with opened := p.opened - 1 }) fun _ => rfl

@[simp] theorem flows_editEntry (p : Proxy) (cred : Cred) (f : Entry → Entry) :
    (p.editEntry cred f).flows = p.flows := by
  unfold editEntry
  split <;> rfl

@[simp] theorem flows_detach (p : Proxy) (cred : Cred) (t : TunnelHandle) :
    (p.detach cred t).flows = p.flows :=
  flows_editEntry _ _ _

@[simp] theorem flows_close (p : Proxy) (id : Nat) : (p.close id).flows = p.flows := by
  unfold close
  split
  · rfl
  · split
    · rfl
    · rw [flows_destroyUpstream, flows_destroyClient, flows_detach, flows_giveBack]
      exact flows_edit_same fun _ => rfl

@[simp] theorem flows_closeAll : ∀ (ts : List TunnelHandle) (p : Proxy),
    (p.closeAll ts).flows = p.flows
  | [], _ => rfl
  | t :: ts, p => by
    rw [closeAll, List.foldl_cons, ← closeAll, flows_closeAll ts, flows_close]

@[simp] theorem flows_retire (p : Proxy) (cred : Cred) (entry : Entry) (endedAt : Nat) :
    (p.retire cred entry endedAt).flows = p.flows :=
  flows_closeAll _ _

@[simp] theorem flows_liveEntry (p : Proxy) (cred : Cred) (now : Nat) :
    (p.liveEntry cred now).2.flows = p.flows := by
  unfold liveEntry
  split
  · rfl
  · split
    · exact flows_retire _ _ _ _
    · rfl

@[simp] theorem flows_sweep (p : Proxy) (now : Nat) : (p.sweep now).flows = p.flows := by
  have hfold : ∀ (creds : List Cred) (p : Proxy),
      (creds.foldl (fun p cred => (p.liveEntry cred now).2) p).flows = p.flows := by
    intro creds
    induction creds with
    | nil => exact fun _ => rfl
    | cons cred creds ih => exact fun p => (ih _).trans (flows_liveEntry p cred now)
  exact hfold _ p

@[simp] theorem flows_closeOutside (p : Proxy) (cred : Cred) (set : HostSet)
    (ts : List TunnelHandle) : (p.closeOutside cred set ts).flows = p.flows := by
  have hfold : ∀ (ts : List TunnelHandle) (p : Proxy),
      (ts.foldl (fun p t => (p.detach cred t).close t.id) p).flows = p.flows := by
    intro ts
    induction ts with
    | nil => exact fun _ => rfl
    | cons t ts ih =>
      intro p
      rw [List.foldl_cons, ih, flows_close, flows_detach]
  exact hfold _ p

@[simp] theorem flows_put (p : Proxy) (cred : Cred) (reg : Registration) (clock : Clock) :
    (p.put cred reg clock).2.flows = p.flows := by
  unfold put
  dsimp only
  split
  · exact flows_sweep _ _
  · exact (flows_closeOutside _ _ _ _).trans (flows_sweep _ _)

@[simp] theorem flows_delete (p : Proxy) (cred : Cred) (now : Nat) :
    (p.delete cred now).flows = p.flows := by
  unfold delete
  split
  · rfl
  · exact flows_retire _ _ _ _

@[simp] theorem flows_denials (p : Proxy) (cred : Cred) (clock : Clock) :
    (p.denials cred clock).2.flows = p.flows := by
  have hlive := flows_liveEntry p cred (clock 0)
  unfold denials
  split
  · next h => rwa [h] at hlive
  · next h =>
    rw [h] at hlive
    split
    · exact hlive
    · split <;> exact hlive

@[simp] theorem flows_recordDenial (p : Proxy) (cred : Cred) (host : JsString) (port : Nat)
    (reason : DenialReason) (clock : Clock) (k : Nat) :
    (p.recordDenial cred host port reason clock k).flows = p.flows := by
  have hlive := flows_liveEntry p cred (clock k)
  unfold recordDenial
  split
  · next h => rwa [h] at hlive
  · next h =>
    rw [h] at hlive
    split
    · exact hlive
    · exact (flows_editEntry _ _ _).trans hlive

@[simp] theorem flows_deny (p : Proxy) (id : Nat) (cred : Cred) (host : JsString) (port : Nat)
    (why : DenialReason) (clock : Clock) (k : Nat) :
    (p.deny id cred host port why clock k).flows = p.flows := by
  rw [deny, flows_reply, flows_recordDenial]

@[simp] theorem flows_refuse (p : Proxy) (id : Nat) (r : Request) (why : DenialReason)
    (name : Option JsString) (clock : Clock) : (p.refuse id r why name clock).flows = p.flows := by
  rw [refuse, flows_close, flows_recordDenial]

@[simp] theorem flows_attach (p : Proxy) (cred : Cred) (t : TunnelHandle) (now : Nat) :
    (p.attach cred t now).2.flows = p.flows := by
  have hlive := flows_liveEntry p cred now
  unfold attach
  split
  · next h => rwa [h] at hlive
  · next h =>
    rw [h] at hlive
    exact (flows_editEntry _ _ _).trans hlive

@[simp] theorem flows_release (p : Proxy) (id : Nat) :
    (p.release id).flows = p.flows.modify id fun c => { c with reserved := false } := by
  unfold release
  split
  · next h =>
    refine (List.ext_getElem? fun j => ?_)
    rw [List.getElem?_modify]
    by_cases hj : id = j
    · subst hj
      rw [flows_getElem?, h]
      rfl
    · simp [hj]
  · next r h =>
    split
    · next hr =>
      refine (List.ext_getElem? fun j => ?_)
      rw [List.getElem?_modify]
      by_cases hj : id = j
      · subst hj
        have hfalse : r.reserved = false := by simpa using hr
        rw [flows_getElem?, h]
        simp [Request.flow, hfalse]
      · simp [hj]
    · exact flows_edit fun _ => rfl

/-! ## The handlers on the flow -/

end Flows

end Proxy

namespace Flow

def checkFirst (host : JsString) (closed : Bool) (buf : Bytes) (c : Flow) : Flow :=
  match Proxy.verdict host buf false with
  | none => { c with stage := .hello buf }
  | some (.error _) => { c with stage := .done }
  | some (.ok bytes) =>
    if closed then { c with stage := .done }
    else { c.write (buf.take bytes) with stage := .answer (buf.drop bytes) [] }

def checkSecond (host : JsString) (closed : Bool) (buf : Bytes) (c : Flow) : Flow :=
  match Proxy.verdict host buf true with
  | none => { c with stage := .secondHello buf }
  | some (.error _) => { c with stage := .done }
  | some (.ok bytes) =>
    if closed then { c with stage := .done }
    else { (c.write (buf.take bytes)).write (buf.drop bytes) with stage := .piping }

def checkAnswer (host : JsString) (closed : Bool) (behind buf : Bytes) (c : Flow) : Flow :=
  match isHelloRetryRequest buf with
  | .more => { c with stage := .answer behind buf }
  | .yes => if closed then { c with stage := .done } else c.checkSecond host closed behind
  | .no => if closed then { c with stage := .done } else { c.write behind with stage := .piping }

def connected (host : JsString) (closed checkName : Bool) (rest : Bytes) (c : Flow) : Flow :=
  if closed then c
  else if checkName then { c with established := true }.checkFirst host closed rest
  else { { c with established := true }.write rest with stage := .piping }

end Flow

namespace Proxy

section Handlers

variable {p : Proxy} {id : Nat} {r : Request}

@[simp] theorem flows_checkFirst (p : Proxy) (id : Nat) (r : Request) (buf : Bytes) (clock : Clock) :
    (p.checkFirst id r buf clock).flows = p.flows.modify id (Flow.checkFirst r.host r.closed buf) := by
  unfold checkFirst Flow.checkFirst
  cases verdict r.host buf false with
  | none => exact flows_setStage _ _ _
  | some v =>
    cases r.closed with
    | true => cases v <;> exact flows_setStage _ _ _
    | false =>
      cases v with
      | error _ => exact (flows_refuse _ _ _ _ _ _).trans (flows_setStage _ _ _)
      | ok n =>
        simp only [Bool.false_eq_true, if_false, flows_setStage, flows_writeUpstream,
          List.modify_modify_eq]
        rfl

@[simp] theorem flows_checkSecond (p : Proxy) (id : Nat) (r : Request) (buf : Bytes)
    (clock : Clock) : (p.checkSecond id r buf clock).flows =
      p.flows.modify id (Flow.checkSecond r.host r.closed buf) := by
  unfold checkSecond Flow.checkSecond
  cases verdict r.host buf true with
  | none => exact flows_setStage _ _ _
  | some v =>
    cases r.closed with
    | true => cases v <;> exact flows_setStage _ _ _
    | false =>
      cases v with
      | error _ => exact (flows_refuse _ _ _ _ _ _).trans (flows_setStage _ _ _)
      | ok n =>
        simp only [Bool.false_eq_true, if_false, flows_setStage, flows_writeUpstream,
          List.modify_modify_eq]
        rfl

@[simp] theorem flows_checkAnswer (p : Proxy) (id : Nat) (r : Request) (behind buf : Bytes)
    (clock : Clock) : (p.checkAnswer id r behind buf clock).flows =
      p.flows.modify id (Flow.checkAnswer r.host r.closed behind buf) := by
  unfold checkAnswer Flow.checkAnswer
  cases isHelloRetryRequest buf <;> cases hclosed : r.closed <;>
    simp only [Bool.false_eq_true, reduceCtorEq, if_false, if_true, flows_setStage,
      flows_writeUpstream, flows_writeClient, flows_checkSecond, hclosed,
      List.modify_modify_eq] <;>
    rfl

@[simp] theorem flows_connected (p : Proxy) (id : Nat) (r : Request) (clock : Clock) :
    (p.connected id r clock).flows =
      p.flows.modify id (Flow.connected r.host r.closed r.checkName r.rest) := by
  have hestablished : (p.edit id fun r => { r with established := true }).flows =
      p.flows.modify id fun c => { c with established := true } := flows_edit fun _ => rfl
  unfold connected Flow.connected
  cases hclosed : r.closed with
  | true => simp [modify_same]
  | false =>
    cases r.checkName <;>
      simp only [Bool.false_eq_true, if_false, if_true, flows_setStage, flows_writeUpstream,
        flows_writeClient, flows_checkFirst, hestablished, hclosed, List.modify_modify_eq] <;>
      rfl

/-- What a flow is once the addresses of its host are known. -/
inductive AfterLookup (deny : List JsString) (addresses : List JsString) : (Flow → Flow) → Prop
  | finished : AfterLookup deny addresses fun c => { c with addresses, stage := .idle }
  | thrown : AfterLookup deny addresses fun c =>
    { c with addresses, attached := true, stage := .done }
  | connecting (ip : JsString) (hip : pickAddress addresses deny = .ok ip) :
    AfterLookup deny addresses fun c =>
      { c with addresses, attached := true, ip := some ip, stage := .connecting }

theorem flows_afterLookup (p : Proxy) (cfg : Config) (id : Nat) (r : Request)
    (addresses : List JsString) (connects : Bool) (clock : Clock) (k : Nat) :
    ∃ g, AfterLookup cfg.deny addresses g ∧
      (p.afterLookup cfg id r addresses connects clock k).flows = p.flows.modify id g := by
  have hstart : (p.edit id fun r => { r with addresses, stage := .idle }).flows =
      p.flows.modify id fun c => { c with addresses, stage := .idle } := flows_edit fun _ => rfl
  unfold afterLookup
  dsimp only
  split
  · exact ⟨_, .finished, by rw [flows_deny, flows_giveBack, hstart]⟩
  · next ip hip =>
    split
    · exact ⟨_, .finished, by rw [flows_giveBack, hstart]⟩
    · unfold tunnel
      have hattach := flows_attach (p.edit id fun r => { r with addresses, stage := .idle }) r.cred
        ⟨id, r.host⟩ (clock k)
      split
      · next h =>
        rw [h] at hattach
        exact ⟨_, .finished, by rw [flows_reply, flows_giveBack]; exact hattach.trans hstart⟩
      · next p' h =>
        rw [h] at hattach
        have hdone : (p'.edit id fun r => { r with attached := true, stage := .done }).flows =
            p.flows.modify id fun c => { c with addresses, attached := true, stage := .done } := by
          rw [flows_edit (g := fun c => { c with attached := true, stage := .done }) fun _ => rfl,
            show p'.flows = _ from hattach.trans hstart, List.modify_modify_eq]
          rfl
        dsimp only
        split
        · refine ⟨_, .connecting ip hip, ?_⟩
          rw [flows_edit (g := fun c => { c with ip := some ip, stage := .connecting }) fun _ => rfl,
            hdone, List.modify_modify_eq]
          rfl
        · exact ⟨_, .thrown, by rw [flows_close, flows_reply, hdone]⟩

end Handlers

end Proxy

end Lynox.Egress
