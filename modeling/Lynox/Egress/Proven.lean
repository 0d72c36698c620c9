import Lynox.Egress.Moves

/-!
# Nothing leaves before the name is proven

What was written to the upstream, what is held back and what the client's socket still holds are
together what the client sent (`Flow.Kept`); and with a set of names the first write is a client
hello for the host, and the second one too when the server asks for it (`Flow.Named`).
-/

namespace Lynox.Egress

open Text

/-- A second hello for the host, with what may stand in front of it. -/
def IsSecond (host : JsString) (bytes : Bytes) : Prop :=
  ∃ skipped hello, bytes = skipped ++ hello ∧ Skippable skipped ∧ IsHello host hello

theorem IsHello.ne_nil {host : JsString} {bytes : Bytes} (h : IsHello host bytes) : bytes ≠ [] := by
  rintro rfl
  obtain ⟨hello, _, ⟨records, hrecords, hbytes, hmessage⟩, _⟩ := h
  cases records with
  | nil => cases hmessage
  | cons r records =>
    have hlength := congrArg List.length hbytes
    rw [Tls.recordBytes_cons, List.length_append, Tls.length_encode, List.length_nil] at hlength
    omega

theorem IsSecond.ne_nil {host : JsString} {bytes : Bytes} (h : IsSecond host bytes) :
    bytes ≠ [] := by
  obtain ⟨skipped, hello, rfl, _, hhello⟩ := h
  exact fun hnil => hhello.ne_nil (List.append_eq_nil_iff.1 hnil).2

namespace Flow

/-- The server's answer asked for no second hello, or one went out. -/
def Told (c : Flow) : Prop :=
  (∃ buf, buf <+: c.serverCame ∧ isHelloRetryRequest buf = .no) ∨
    ∃ w w₂ ws, c.wrote = w :: w₂ :: ws ∧ IsSecond c.host w₂

/-- Nothing that the client or the server sent is lost, doubled or out of its place. -/
def Kept (c : Flow) : Prop :=
  match c.stage with
  | .hello buf => c.wrote = [] ∧ c.came = buf ++ c.inbox ∧ c.serverInbox = c.serverCame
  | .answer behind buf =>
    c.came = c.wrote.flatten ++ behind ++ c.inbox ∧ c.serverCame = buf ++ c.serverInbox
  | .secondHello buf => c.came = c.wrote.flatten ++ buf ++ c.inbox
  | .piping => c.came = c.wrote.flatten ++ c.inbox
  | .done => c.wrote.flatten <+: c.came
  | _ => c.wrote = [] ∧ c.came = c.rest ++ c.inbox ∧ c.serverInbox = c.serverCame

/-- The first write is a hello for the host, and nothing follows it until the server told. -/
def Named (c : Flow) : Prop :=
  match c.stage with
  | .answer _ _ => ∃ w, c.wrote = [w] ∧ IsHello c.host w
  | .secondHello _ => ∃ w, c.wrote = [w] ∧ IsHello c.host w
  | .piping => (∃ w ws, c.wrote = w :: ws ∧ IsHello c.host w) ∧ c.Told
  | .done => ∀ w ws, c.wrote = w :: ws → IsHello c.host w ∧ (ws = [] ∨ c.Told)
  | _ => True

structure Good (deny : List JsString) (c : Flow) : Prop where
  resolving : c.stage = .resolving → c.reserved = true ∧ c.attached = false ∧ c.ip = none
  attached : c.stage.inTunnel = true → c.attached = true
  inSet : c.asked = true ∨ c.stage ≠ .idle → hostInSet c.set c.host = true
  picked : ∀ ip, c.ip = some ip → pickAddress c.addresses deny = .ok ip
  kept : c.Kept
  named : c.set ≠ .all → c.Named

section Good

variable {deny : List JsString} {c : Flow} {buf behind chunk : Bytes}

/-- One write for the host is a first write nothing follows. -/
theorem first_of_one (hwrote : ∃ w, c.wrote = [w] ∧ IsHello c.host w) {w : Bytes}
    {ws : List Bytes} (hw : c.wrote = w :: ws) : IsHello c.host w ∧ (ws = [] ∨ c.Told) := by
  obtain ⟨w', hw', hhello⟩ := hwrote
  rw [hw] at hw'
  obtain ⟨rfl, rfl⟩ := List.cons.inj hw'
  exact ⟨hhello, .inl rfl⟩

theorem Good.prefix (h : c.Good deny) : c.wrote.flatten <+: c.came := by
  have hkept := h.kept
  unfold Kept at hkept
  split at hkept
  · rw [hkept.1]
    exact List.nil_prefix
  · rw [hkept.1, List.append_assoc]
    exact List.prefix_append _ _
  · rw [hkept, List.append_assoc]
    exact List.prefix_append _ _
  · rw [hkept]
    exact List.prefix_append _ _
  · exact hkept
  · rw [hkept.1]
    exact List.nil_prefix

/-- The first write names the host, and what follows waited for the server. -/
theorem Good.first (h : c.Good deny) (hset : c.set ≠ .all) {w : Bytes} {ws : List Bytes}
    (hw : c.wrote = w :: ws) : IsHello c.host w ∧ (ws = [] ∨ c.Told) := by
  have hnamed := h.named hset
  have hkept := h.kept
  have hnone : c.wrote ≠ [] := by
    rw [hw]
    exact List.cons_ne_nil _ _
  unfold Kept at hkept
  unfold Named at hnamed
  cases hstage : c.stage <;> rw [hstage] at hkept hnamed <;> dsimp only at hkept hnamed
  case idle => exact absurd hkept.1 hnone
  case resolving => exact absurd hkept.1 hnone
  case connecting => exact absurd hkept.1 hnone
  case hello => exact absurd hkept.1 hnone
  case answer => exact first_of_one hnamed hw
  case secondHello => exact first_of_one hnamed hw
  case piping =>
    obtain ⟨⟨w', ws', hw', hhello⟩, htold⟩ := hnamed
    rw [hw] at hw'
    obtain ⟨rfl, rfl⟩ := List.cons.inj hw'
    exact ⟨hhello, .inr htold⟩
  case done => exact hnamed w ws hw

/-- After a HelloRetryRequest nothing goes out before a second hello for the host. -/
theorem Good.retried (h : c.Good deny) (hset : c.set ≠ .all) (hretry : Tls.StartsRetry c.serverCame) :
    c.wrote.length ≤ 1 ∨ ∃ w w₂ ws, c.wrote = w :: w₂ :: ws ∧ IsSecond c.host w₂ := by
  cases hw : c.wrote with
  | nil => exact .inl (Nat.zero_le _)
  | cons w ws =>
    rcases (h.first hset hw).2 with rfl | ⟨buf, hbuf, hno⟩ | hsecond
    · exact .inl le_rfl
    · exact absurd hno (isHelloRetryRequest_ne_no hretry hbuf)
    · rw [hw] at hsecond
      exact .inr hsecond

/-- What stays of a request whose tunnel was attached. -/
structure Tunnelled (deny : List JsString) (c : Flow) : Prop where
  attached : c.attached = true
  inSet : hostInSet c.set c.host = true
  picked : ∀ ip, c.ip = some ip → pickAddress c.addresses deny = .ok ip

theorem Good.tunnelled (h : c.Good deny) (hstage : c.stage.inTunnel = true) : c.Tunnelled deny where
  attached := h.attached hstage
  inSet := h.inSet (.inr fun hidle => by rw [hidle] at hstage; cases hstage)
  picked := h.picked

theorem Tunnelled.good (h : c.Tunnelled deny) (hstage : c.stage.inTunnel = true) (hkept : c.Kept)
    (hnamed : c.set ≠ .all → c.Named) : c.Good deny where
  resolving hr := by rw [hr] at hstage; cases hstage
  attached _ := h.attached
  inSet _ := h.inSet
  picked := h.picked
  kept := hkept
  named := hnamed

/-- A tunnel whose bytes are no longer read. -/
theorem Tunnelled.done (h : c.Tunnelled deny) (hcame : c.wrote.flatten <+: c.came)
    (hfirst : c.set ≠ .all → ∀ w ws, c.wrote = w :: ws →
      IsHello c.host w ∧ (ws = [] ∨ c.Told)) : ({ c with stage := .done } : Flow).Good deny :=
  Tunnelled.good ⟨h.attached, h.inSet, h.picked⟩ rfl hcame hfirst

theorem Good.done (h : c.Good deny) (hstage : c.stage.inTunnel = true) :
    ({ c with stage := .done } : Flow).Good deny :=
  (h.tunnelled hstage).done h.prefix fun hset _ _ hw => h.first hset hw

theorem flatten_write (c : Flow) (bytes : Bytes) :
    (c.write bytes).wrote.flatten = c.wrote.flatten ++ bytes := by
  unfold write
  dsimp only
  split
  · next h => rw [h, List.append_nil]
  · simp

theorem wrote_write (c : Flow) (h : chunk ≠ []) : (c.write chunk).wrote = c.wrote ++ [chunk] :=
  if_neg h

/-- A verdict that lets bytes pass read a hello for the host. -/
theorem verdict_ok {host : JsString} {afterRetry : Bool} {n : Nat}
    (h : Proxy.verdict host buf afterRetry = some (.ok n)) :
    parseClientHello buf afterRetry = .hello (some host) n := by
  unfold Proxy.verdict at h
  split at h
  · cases h
  · cases h
  · cases h
  · next sni bytes hparse =>
    by_cases hsni : sni = host
    · rw [if_pos hsni] at h
      cases h
      rw [hparse, hsni]
    · rw [if_neg hsni] at h
      cases h

theorem good_checkFirst {host : JsString} (closed : Bool) (h : c.Tunnelled deny)
    (hhost : c.host = host) (hwrote : c.wrote = []) (hcame : c.came = buf ++ c.inbox)
    (hserver : c.serverInbox = c.serverCame) : (c.checkFirst host closed buf).Good deny := by
  have hdone : ({ c with stage := .done } : Flow).Good deny := by
    refine h.done ?_ fun _ w ws hw => ?_
    · rw [hwrote]
      exact List.nil_prefix
    · rw [hw] at hwrote
      cases hwrote
  unfold checkFirst
  split
  · exact Tunnelled.good ⟨h.attached, h.inSet, h.picked⟩ rfl ⟨hwrote, hcame, hserver⟩ fun _ => trivial
  · exact hdone
  · next n hverdict =>
    have hhello := parseClientHello_first (verdict_ok hverdict)
    split
    · exact hdone
    · refine Tunnelled.good ⟨h.attached, h.inSet, h.picked⟩ rfl ⟨?_, hserver.symm⟩ fun _ => ?_
      · show c.came = (c.write (buf.take n)).wrote.flatten ++ buf.drop n ++ c.inbox
        rw [flatten_write, hwrote, List.flatten_nil, List.nil_append, List.take_append_drop, hcame]
      · refine ⟨buf.take n, ?_, hhost ▸ hhello⟩
        show (c.write (buf.take n)).wrote = _
        rw [wrote_write c hhello.ne_nil, hwrote, List.nil_append]

theorem good_checkSecond {host : JsString} (closed : Bool) (h : c.Tunnelled deny)
    (hhost : c.host = host) (hwrote : c.set ≠ .all → ∃ w, c.wrote = [w] ∧ IsHello c.host w)
    (hcame : c.came = c.wrote.flatten ++ buf ++ c.inbox) :
    (c.checkSecond host closed buf).Good deny := by
  have hdone : ({ c with stage := .done } : Flow).Good deny := by
    refine h.done ?_ fun hset _ _ hw => first_of_one (hwrote hset) hw
    rw [hcame, List.append_assoc]
    exact List.prefix_append _ _
  unfold checkSecond
  split
  · exact Tunnelled.good ⟨h.attached, h.inSet, h.picked⟩ rfl hcame hwrote
  · exact hdone
  · next n hverdict =>
    obtain ⟨skipped, hello, hbytes, hskip, hhello⟩ := parseClientHello_second (verdict_ok hverdict)
    have hsecond : IsSecond c.host (buf.take n) := ⟨skipped, hello, hbytes, hskip, hhost ▸ hhello⟩
    split
    · exact hdone
    · refine Tunnelled.good ⟨h.attached, h.inSet, h.picked⟩ rfl ?_ fun hset => ?_
      · show c.came = ((c.write (buf.take n)).write (buf.drop n)).wrote.flatten ++ c.inbox
        rw [flatten_write, flatten_write, List.append_assoc c.wrote.flatten, List.take_append_drop,
          hcame]
      · obtain ⟨w, hw, hfirst⟩ := hwrote hset
        have hshape : ∃ ws, ((c.write (buf.take n)).write (buf.drop n)).wrote =
            w :: buf.take n :: ws := by
          have htwo : (c.write (buf.take n)).wrote = [w, buf.take n] := by
            rw [wrote_write c hsecond.ne_nil, hw]
            rfl
          by_cases hdrop : buf.drop n = []
          · refine ⟨[], ?_⟩
            rw [hdrop]
            exact htwo
          · refine ⟨[buf.drop n], ?_⟩
            rw [wrote_write _ hdrop, htwo]
            rfl
        obtain ⟨ws, hshape⟩ := hshape
        exact ⟨⟨w, _, hshape, hfirst⟩, .inr ⟨w, _, ws, hshape, hsecond⟩⟩

theorem good_checkAnswer {host : JsString} (closed : Bool) (h : c.Tunnelled deny)
    (hhost : c.host = host) (hwrote : c.set ≠ .all → ∃ w, c.wrote = [w] ∧ IsHello c.host w)
    (hcame : c.came = c.wrote.flatten ++ behind ++ c.inbox)
    (hserver : c.serverCame = buf ++ c.serverInbox) :
    (c.checkAnswer host closed behind buf).Good deny := by
  have hdone : ({ c with stage := .done } : Flow).Good deny := by
    refine h.done ?_ fun hset _ _ hw => first_of_one (hwrote hset) hw
    rw [hcame, List.append_assoc]
    exact List.prefix_append _ _
  unfold checkAnswer
  split
  · exact Tunnelled.good ⟨h.attached, h.inSet, h.picked⟩ rfl ⟨hcame, hserver⟩ hwrote
  · split
    · exact hdone
    · exact good_checkSecond closed h hhost hwrote hcame
  · next hno =>
    split
    · exact hdone
    · refine Tunnelled.good ⟨h.attached, h.inSet, h.picked⟩ rfl ?_ fun hset => ?_
      · show c.came = (c.write behind).wrote.flatten ++ c.inbox
        rw [flatten_write, hcame]
      · obtain ⟨w, hw, hfirst⟩ := hwrote hset
        refine ⟨?_, .inl ⟨buf, ?_, hno⟩⟩
        · by_cases hbehind : behind = []
          · refine ⟨w, [], ?_, hfirst⟩
            rw [hbehind]
            exact hw
          · refine ⟨w, [behind], ?_, hfirst⟩
            show (c.write behind).wrote = _
            rw [wrote_write c hbehind, hw]
            rfl
        · show buf <+: c.serverCame
          rw [hserver]
          exact List.prefix_append _ _

theorem good_connected {host : JsString} {closed checkName : Bool} (h : c.Good deny)
    (hstage : c.stage = .connecting) (hhost : c.host = host)
    (hcheck : checkName = true ↔ c.set ≠ .all) :
    (c.connected host closed checkName c.rest).Good deny := by
  have ht := h.tunnelled (by rw [hstage]; rfl)
  have hkept := h.kept
  unfold Kept at hkept
  rw [hstage] at hkept
  obtain ⟨hwrote, hcame, hserver⟩ := hkept
  unfold connected
  split
  · exact h
  · split
    · exact good_checkFirst closed (c := { c with established := true })
        ⟨ht.attached, ht.inSet, ht.picked⟩ hhost hwrote hcame hserver
    · next hno =>
      refine Tunnelled.good ⟨ht.attached, ht.inSet, ht.picked⟩ rfl ?_ fun hset => ?_
      · show c.came = (({ c with established := true } : Flow).write c.rest).wrote.flatten ++ c.inbox
        rw [flatten_write]
        show c.came = c.wrote.flatten ++ c.rest ++ c.inbox
        rw [hwrote, hcame]
        rfl
      · exact absurd (hcheck.2 hset) hno

/-! ## Bytes that come and go -/

/-- The next bytes of the client in the first hello. -/
theorem good_hello {n : Nat} (closed : Bool) (h : c.Good deny) (hstage : c.stage = .hello buf) :
    ((c.readClient n).checkFirst c.host closed (buf ++ c.inbox.take n)).Good deny := by
  have ht := h.tunnelled (by rw [hstage]; rfl)
  have hkept := h.kept
  unfold Kept at hkept
  rw [hstage] at hkept
  obtain ⟨hwrote, hcame, hserver⟩ := hkept
  refine good_checkFirst closed ⟨ht.attached, ht.inSet, ht.picked⟩ rfl hwrote ?_ hserver
  show c.came = buf ++ c.inbox.take n ++ c.inbox.drop n
  rw [List.append_assoc, List.take_append_drop, hcame]

theorem good_secondHello {n : Nat} (closed : Bool) (h : c.Good deny)
    (hstage : c.stage = .secondHello buf) :
    ((c.readClient n).checkSecond c.host closed (buf ++ c.inbox.take n)).Good deny := by
  have ht := h.tunnelled (by rw [hstage]; rfl)
  have hkept := h.kept
  have hnamed := h.named
  unfold Kept at hkept
  unfold Named at hnamed
  rw [hstage] at hkept hnamed
  refine good_checkSecond closed ⟨ht.attached, ht.inSet, ht.picked⟩ rfl hnamed ?_
  show c.came = c.wrote.flatten ++ (buf ++ c.inbox.take n) ++ c.inbox.drop n
  rw [hkept]
  simp [List.append_assoc]

theorem good_answer {n : Nat} (closed : Bool) (h : c.Good deny)
    (hstage : c.stage = .answer behind buf) :
    ((c.readServer n).checkAnswer c.host closed behind (buf ++ c.serverInbox.take n)).Good deny := by
  have ht := h.tunnelled (by rw [hstage]; rfl)
  have hkept := h.kept
  have hnamed := h.named
  unfold Kept at hkept
  unfold Named at hnamed
  rw [hstage] at hkept hnamed
  refine good_checkAnswer closed ⟨ht.attached, ht.inSet, ht.picked⟩ rfl hnamed hkept.1 ?_
  show c.serverCame = buf ++ c.serverInbox.take n ++ c.serverInbox.drop n
  rw [List.append_assoc, List.take_append_drop, hkept.2]

theorem good_pipe {n : Nat} (h : c.Good deny) (hstage : c.stage = .piping) :
    ((c.readClient n).write (c.inbox.take n)).Good deny := by
  have ht := h.tunnelled (by rw [hstage]; rfl)
  have hkept := h.kept
  have hnamed := h.named
  unfold Kept at hkept
  unfold Named at hnamed
  rw [hstage] at hkept hnamed
  refine Tunnelled.good ⟨ht.attached, ht.inSet, ht.picked⟩
    (by rw [write, readClient]; simp [hstage, Stage.inTunnel]) ?_ fun hset => ?_
  · unfold Kept
    rw [show ((c.readClient n).write (c.inbox.take n)).stage = .piping from hstage]
    show c.came = ((c.readClient n).write (c.inbox.take n)).wrote.flatten ++ c.inbox.drop n
    rw [flatten_write]
    show c.came = c.wrote.flatten ++ c.inbox.take n ++ c.inbox.drop n
    rw [List.append_assoc, List.take_append_drop, hkept]
  · unfold Named
    rw [show ((c.readClient n).write (c.inbox.take n)).stage = .piping from hstage]
    obtain ⟨⟨w, ws, hw, hhello⟩, htold⟩ := hnamed hset
    have hmore : ∃ more, ((c.readClient n).write (c.inbox.take n)).wrote = c.wrote ++ more := by
      by_cases hnil : c.inbox.take n = []
      · refine ⟨[], ?_⟩
        rw [hnil, List.append_nil]
        rfl
      · exact ⟨[c.inbox.take n], wrote_write _ hnil⟩
    obtain ⟨more, hmore⟩ := hmore
    refine ⟨⟨w, ws ++ more, by rw [hmore, hw]; rfl, hhello⟩, ?_⟩
    rcases htold with hno | ⟨w', w₂, ws', hw', hsecond⟩
    · exact .inl hno
    · exact .inr ⟨w', w₂, ws' ++ more, by rw [hmore, hw']; rfl, hsecond⟩

theorem good_pipeBack {n : Nat} (h : c.Good deny) (hstage : c.stage = .piping) :
    (c.readServer n).Good deny := by
  have ht := h.tunnelled (by rw [hstage]; rfl)
  have hkept := h.kept
  have hnamed := h.named
  unfold Kept at hkept
  unfold Named at hnamed
  rw [hstage] at hkept hnamed
  refine Tunnelled.good ⟨ht.attached, ht.inSet, ht.picked⟩
    (by rw [readServer, hstage]; rfl) ?_ fun hset => ?_
  · unfold Kept
    rw [show (c.readServer n).stage = .piping from hstage]
    exact hkept
  · unfold Named
    rw [show (c.readServer n).stage = .piping from hstage]
    exact hnamed hset

/-- Bytes come in from the client. -/
theorem good_clientBytes (h : c.Good deny) (bytes : Bytes) :
    ({ c with came := c.came ++ bytes, inbox := c.inbox ++ bytes } : Flow).Good deny := by
  refine ⟨h.resolving, h.attached, h.inSet, h.picked, ?_, h.named⟩
  have hkept := h.kept
  unfold Kept at hkept ⊢
  dsimp only
  cases hstage : c.stage <;> rw [hstage] at hkept <;> dsimp only at hkept ⊢
  case hello => exact ⟨hkept.1, by rw [hkept.2.1, List.append_assoc], hkept.2.2⟩
  case answer => exact ⟨by rw [hkept.1, List.append_assoc], hkept.2⟩
  case secondHello => rw [hkept, List.append_assoc]
  case piping => rw [hkept, List.append_assoc]
  case done => exact hkept.trans (List.prefix_append _ _)
  all_goals exact ⟨hkept.1, by rw [hkept.2.1, List.append_assoc], hkept.2.2⟩

/-- Bytes come in from the server. -/
theorem good_serverBytes (h : c.Good deny) (bytes : Bytes) :
    ({ c with serverCame := c.serverCame ++ bytes, serverInbox := c.serverInbox ++ bytes } :
      Flow).Good deny := by
  have htold : c.Told → Told { c with
      serverCame := c.serverCame ++ bytes, serverInbox := c.serverInbox ++ bytes } := by
    rintro (⟨buf, hbuf, hno⟩ | hsecond)
    · exact .inl ⟨buf, hbuf.trans (List.prefix_append _ _), hno⟩
    · exact .inr hsecond
  refine ⟨h.resolving, h.attached, h.inSet, h.picked, ?_, fun hset => ?_⟩
  · have hkept := h.kept
    unfold Kept at hkept ⊢
    dsimp only
    cases hstage : c.stage <;> rw [hstage] at hkept <;> dsimp only at hkept ⊢
    case hello => exact ⟨hkept.1, hkept.2.1, by rw [hkept.2.2]⟩
    case answer => exact ⟨hkept.1, by rw [hkept.2, List.append_assoc]⟩
    case secondHello => exact hkept
    case piping => exact hkept
    case done => exact hkept
    all_goals exact ⟨hkept.1, hkept.2.1, by rw [hkept.2.2]⟩
  · have hnamed := h.named hset
    unfold Named at hnamed ⊢
    dsimp only
    cases hstage : c.stage <;> rw [hstage] at hnamed <;> dsimp only at hnamed ⊢
    case answer => exact hnamed
    case secondHello => exact hnamed
    case piping => exact ⟨hnamed.1, htold hnamed.2⟩
    case done => exact fun w ws hw => (hnamed w ws hw).imp id (Or.imp id htold)

/-- The name resolution ended. -/
theorem good_resolved {addresses : List JsString} {g : Flow → Flow} (h : c.Good deny)
    (hstage : c.stage = .resolving) (hg : Proxy.AfterLookup deny addresses g) :
    ({ g c with reserved := false } : Flow).Good deny := by
  obtain ⟨_, hattached, hnone⟩ := h.resolving hstage
  have hin : hostInSet c.set c.host = true :=
    h.inSet (.inr fun hidle => by rw [hstage] at hidle; cases hidle)
  have hkept := h.kept
  unfold Kept at hkept
  rw [hstage] at hkept
  have hno : ∀ {ip : JsString}, c.ip ≠ some ip := fun hip => by rw [hnone] at hip; cases hip
  cases hg with
  | finished => exact ⟨nofun, nofun, fun _ => hin, fun ip hip => absurd hip hno, hkept, fun _ => trivial⟩
  | thrown =>
    refine Tunnelled.good ⟨rfl, hin, fun ip hip => absurd hip hno⟩ rfl ?_ fun _ w ws hw => ?_
    · show c.wrote.flatten <+: c.came
      rw [hkept.1]
      exact List.nil_prefix
    · rw [show c.wrote = w :: ws from hw] at hkept
      cases hkept.1
  | connecting ip hip =>
    refine Tunnelled.good ⟨rfl, hin, fun ip' h => ?_⟩ rfl hkept fun _ => trivial
    cases h
    exact hip

theorem Good.step {c' : Flow} (h : c.Good deny) (hstep : Step deny c c') : c'.Good deny := by
  cases hstep with
  | unresolved hstage =>
    have hkept := h.kept
    unfold Kept at hkept
    rw [hstage] at hkept
    refine ⟨nofun, nofun, fun _ => h.inSet (.inr fun hidle => ?_), h.picked, hkept, fun _ => trivial⟩
    rw [hstage] at hidle
    cases hidle
  | resolved addresses g hstage hg => exact good_resolved h hstage hg
  | connected closed hstage => exact good_connected h hstage rfl (by simp)
  | hello closed buf n hstage => exact good_hello closed h hstage
  | answer closed behind buf n hstage => exact good_answer closed h hstage
  | secondHello closed buf n hstage => exact good_secondHello closed h hstage
  | pipe n hstage => exact good_pipe h hstage
  | pipeBack n hstage => exact good_pipeBack h hstage
  | done hstage => exact h.done hstage
  | clientBytes bytes => exact good_clientBytes h bytes
  | serverBytes bytes => exact good_serverBytes h bytes

theorem Good.grown {c' : Flow} (h : c.Good deny) (hgrown : Grown deny c c') : c'.Good deny := by
  induction hgrown with
  | refl => exact h
  | tail _ hstep ih => exact ih.step hstep

/-- A request that has just come, with nothing done for it or admitted. -/
theorem good_fresh (rest : Bytes) : (Proxy.fresh rest).flow.Good deny where
  resolving := nofun
  attached := nofun
  inSet h := by
    rcases h with h | h
    · cases h
    · exact absurd rfl h
  picked := nofun
  kept := ⟨rfl, (List.append_nil rest).symm, rfl⟩
  named _ := trivial

theorem good_admitted {cred : Cred} {host : JsString} {port : Nat} {set : HostSet} (rest : Bytes)
    (hset : hostInSet set host = true) :
    (Proxy.admitted rest cred host port set).flow.Good deny where
  resolving _ := ⟨rfl, rfl, rfl⟩
  attached := nofun
  inSet _ := hset
  picked := nofun
  kept := ⟨rfl, (List.append_nil rest).symm, rfl⟩
  named _ := trivial

theorem good_born {p : Proxy} {cred : Option Cred} {target : JsString} {rest : Bytes}
    (h : Proxy.Born deny p cred target rest c) : c.Good deny := by
  cases h with
  | refused => exact good_fresh rest
  | admitted name host port entry hcred hlive htarget hport hset hc =>
    rcases hc with rfl | hstep
    · exact good_admitted rest hset
    · exact (good_admitted rest hset).step hstep

end Good

end Flow

/-! ## The requests of a run -/

/-- What may be sent for a request, and where to. -/
structure Request.Proven (deny : List JsString) (r : Request) : Prop where
  asked : r.asked = true → hostInSet r.set r.host = true
  picked : ∀ ip, r.ip = some ip → pickAddress r.addresses deny = .ok ip
  inOrder : r.upstream.wrote.flatten <+: r.client.came
  named : r.set ≠ .all → ∀ w ws, r.upstream.wrote = w :: ws → IsHello r.host w
  retried : r.set ≠ .all → Tls.StartsRetry r.upstream.came → r.upstream.wrote.length ≤ 1 ∨
    ∃ w w₂ ws, r.upstream.wrote = w :: w₂ :: ws ∧ IsSecond r.host w₂

theorem Flow.Good.proven {deny : List JsString} {r : Request} (h : r.flow.Good deny) :
    r.Proven deny where
  asked ha := h.inSet (.inl ha)
  picked := h.picked
  inOrder := h.prefix
  named hset _ _ hw := (h.first hset hw).1
  retried hset hretry := h.retried hset hretry

theorem good_after (cfg : Config) {events : List Event} {id : Nat} {c : Flow}
    (hc : (Run.after (Proxy.step cfg) .new events).flows[id]? = some c) : c.Good cfg.deny := by
  obtain ⟨_, _, _, _, _, _, _, _, _, _, c₀, hborn, hgrown⟩ := Proxy.origin cfg hc
  exact (Flow.good_born hborn).grown hgrown

/-- The request came behind a head that named a host of its credential's set. -/
def Request.CameFor (cfg : Config) (events : List Event) (r : Request) : Prop :=
  ∃ before clock later method target rest connects entry port,
    events = before ++ ⟨clock, .request (some r.cred) method target rest connects⟩ :: later ∧
      Assoc.get (Run.after (Proxy.step cfg) .new before).live r.cred = some entry ∧
      parseAuthority target = .ok (r.host, port) ∧ port ∈ ALLOWED_PORTS ∧ r.set = entry.set ∧
      rest <+: r.client.came

theorem cameFor_of_started {cfg : Config} {events : List Event} {id : Nat} {r : Request}
    (hr : (Run.after (Proxy.step cfg) .new events).requests[id]? = some r)
    (hstarted : r.asked = true ∨ r.attached = true) : r.CameFor cfg events := by
  have hflow : (Run.after (Proxy.step cfg) .new events).flows[id]? = some r.flow := by
    rw [Proxy.flows_getElem?, hr]
    rfl
  obtain ⟨before, clock, later, cred, method, target, rest, connects, hevents, _, c₀, hborn, hgrown⟩ :=
    Proxy.origin cfg hflow
  have hsame := hgrown.same
  cases hborn with
  | refused =>
    -- nothing was done for it, and nothing is
    have hidle := hgrown.idle rfl
    rcases hstarted with h | h
    · have := hsame.asked.symm.trans h
      cases this
    · have := hidle.2.symm.trans h
      cases this
  | admitted name host port entry hcred hlive htarget hport hset hc =>
    have hsame₀ : (Proxy.admitted rest name host port entry.set).flow.Same r.flow := by
      rcases hc with rfl | hstep
      · exact hsame
      · exact hstep.same.trans hsame
    have hname : r.cred = name := hsame₀.cred
    have hhost : r.host = host := hsame₀.host
    subst hname hhost hcred
    exact ⟨before, clock, later, method, target, rest, connects, entry, port, hevents, hlive, htarget,
      hport, hsame₀.set, hsame₀.came⟩

/-- In every state of every run, what was sent for a request is proven; and where something was
begun for it, the set is the one its credential had when it came. -/
theorem nothing_leaves_unproven (cfg : Config) (events : List Event) (id : Nat) (r : Request)
    (hr : (Run.after (Proxy.step cfg) .new events).requests[id]? = some r) :
    r.Proven cfg.deny ∧ (r.asked = true ∨ r.attached = true → r.CameFor cfg events) := by
  have hflow : (Run.after (Proxy.step cfg) .new events).flows[id]? = some r.flow := by
    rw [Proxy.flows_getElem?, hr]
    rfl
  exact ⟨(good_after cfg hflow).proven, cameFor_of_started hr⟩

/-- A client hello for `a.eu`. -/
def shortHello : Bytes :=
  [22, 3, 1, 0, 60, 1, 0, 0, 56, 3, 3] ++ List.replicate 32 0 ++ [0, 0, 2, 0x13, 1, 1, 0] ++
    [0, 13, 0, 0, 0, 9, 0, 7, 0, 0, 4, 97, 46, 101, 117]

/-- A tunnel whose hello comes in two chunks. -/
def provenRun : List Event :=
  [.put [1] ⟨.names [utf16 "a.eu"], 60, [], []⟩,
    .request (some [1]) (utf16 "CONNECT") (utf16 "a.eu:443") [] true,
    .resolved 0 (some [utf16 "1.2.3.4"]) true, .connected 0, .clientBytes 0 shortHello,
    .clientData 0 30, .clientData 0 100].map (Event.mk fun _ => 0)

theorem short_hello_is_proven : ∃ r : Request,
    (Run.after (Proxy.step ⟨[], ⟨4, 8⟩⟩) .new provenRun).requests[0]? = some r ∧
      r.upstream.wrote = [shortHello] ∧ r.Proven [] ∧ r.CameFor ⟨[], ⟨4, 8⟩⟩ provenRun := by
  have hrun : ((Run.after (Proxy.step ⟨[], ⟨4, 8⟩⟩) .new provenRun).requests[0]?.map fun r =>
      (r.upstream.wrote, r.attached)) = some ([shortHello], true) := by decide +kernel
  obtain ⟨r, hr, hshape⟩ := Option.map_eq_some_iff.1 hrun
  obtain ⟨hwrote, hattached⟩ := Prod.mk.inj hshape
  have hproven := nothing_leaves_unproven ⟨[], ⟨4, 8⟩⟩ provenRun 0 r hr
  exact ⟨r, hr, hwrote, hproven.1, hproven.2 (.inr hattached)⟩

end Lynox.Egress
