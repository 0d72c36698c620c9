import Lynox.Bulk.Effect
import Lynox.Text.Stringify

/-!
# Refusals

A write that the host refused may be sent again, and one without a clear answer may not. `send`
reports a refusal by what it makes of the answer : `readResponse` sorts the status and reads the
body where the answer is parsed, `graphqlAnswer` reads GraphQL's own errors out of it, and
`graphqlWriteAnswer` the errors of the write.

A status of 408 or 499 says that somebody in between gave up, so it is no refusal of a write. `readResponse` takes
the answer that is parsed for that of a read, and the answer to a GraphQL write is parsed as well. So a GraphQL write
answered with one of the two is reported as refused, and apart from it a report is a refusal
(`reported_is_refused_iff`).
-/

namespace Lynox.External

open Text
open Bulk (HostAnswer Unsent ExternalRead)

/-! ## Answers of a host -/

/-- How a stream of bytes ends. -/
inductive Ending
  | done
  | broken
  deriving DecidableEq

/-- A body is a stream of chunks, or there is none. -/
structure Response where
  status : ℕ
  retryAfter : Option JsString
  body : Option (List Bytes × Ending)

/-- What comes of `fetchPinned` : an answer, an address that is refused before the request leaves,
or anything else it throws, a timeout or a broken connection. -/
inductive Fetched
  | response (res : Response)
  | blocked
  | broken

/-- The longest a `Retry-After` is honoured for. -/
def retryAfterCapMs : ℕ :=
  60000

/-- The time a `Retry-After` asks for, as seconds or as a date, which `dateParse` reads. -/
def retryAfterMs (dateParse : JsString → Option ℤ) (header : Option JsString) (now : ℤ) : ℕ :=
  match header.map trim with
  | none => retryAfterCapMs
  | some trimmed =>
    if trimmed ≠ [] ∧ trimmed.all isDigit then min (digitsVal trimmed * 1000) retryAfterCapMs
    else
      match dateParse trimmed with
      | some time => min (time - now).toNat retryAfterCapMs
      | none => retryAfterCapMs

/-- What a request comes to, or an exception. -/
abbrev Answered := Except Unit (HostAnswer Json)

/-- The chunks up to the end, none past `max` bytes. -/
def readChunks (max : ℕ) (ending : Ending) : ℕ → List Bytes → Except Unit (Option Bytes)
  | _, [] => if ending = .done then .ok (some []) else .error ()
  | size, value :: chunks =>
    if max < size + value.length then .ok none
    else (readChunks max ending (size + value.length) chunks).map fun rest => rest.map (value ++ ·)

def readCapped (res : Response) (max : ℕ) : Except Unit (Option JsString) :=
  match res.body with
  | none => .ok (some [])
  | some (chunks, ending) => (readChunks max ending 0 chunks).map fun body => body.map decode

/-- What the status says, where it does not leave the answer to the body. -/
def readStatus (dateParse : JsString → Option ℤ) (res : Response) (now : ℤ) (parse : Bool) :
    Option (HostAnswer Json) :=
  let status := res.status
  if 300 ≤ status ∧ status < 400 then some .redirect
  else if status = 401 ∨ status = 403 then some .unauthorized
  else if status = 404 ∨ status = 410 then some .notFound
  else if status = 429 then some (.retryAfter (retryAfterMs dateParse res.retryAfter now))
  else if parse = false ∧ (status = 408 ∨ status = 499) then some .failed
  else if 400 ≤ status ∧ status < 500 then some .refused
  else if status < 200 ∨ 300 ≤ status then some .failed
  else none

def readResponse (dateParse : JsString → Option ℤ) (res : Response) (now : ℤ) (parse : Bool)
    (maxBytes : ℕ) :
    Answered :=
  match readStatus dateParse res now parse with
  | some answer => .ok answer
  | none =>
    if parse = false then .ok (.ok none)
    else
      (readCapped res maxBytes).map fun
        | none => .tooLarge
        | some body =>
          match Text.parse body with
          | some value => .ok (some value)
          | none => .notJson

/-! ## GraphQL's errors -/

/-- The code of an error. -/
def errorCode (e : Json) : Option Json :=
  (e.get "extensions").bind (·.get "code")

def isText (name : String) : Json → Bool
  | .string s => s = utf16 name
  | _ => false

/-- One of the errors has the code. -/
def carries (errors : List Json) (code : String) : Bool :=
  errors.any fun e => (errorCode e).any (isText code)

/-- The errors of a list. What is no list names none. -/
def listedErrors : Json → List Json
  | .array items => items
  | _ => []

/-- The codes, in the order they decide an answer. -/
def graphqlErrorOrder : List String :=
  ["THROTTLED", "ACCESS_DENIED", "SHOP_INACTIVE", "MAX_COST_EXCEEDED", "INTERNAL_SERVER_ERROR"]

def graphqlAnswer (dateParse : JsString → Option ℤ) (read : HostAnswer Json) (retryAfter : Option JsString)
    (now : ℤ) : HostAnswer Json :=
  match read with
  | .ok (some (.object fields)) =>
    match (Json.object fields).get "errors" with
    | none => .ok ((Json.object fields).get "data")
    | some (.array []) => .ok ((Json.object fields).get "data")
    | some errors =>
      match graphqlErrorOrder.find? (carries (listedErrors errors)) with
      | some "THROTTLED" => .retryAfter (retryAfterMs dateParse retryAfter now)
      | some "ACCESS_DENIED" => .unauthorized
      | some "SHOP_INACTIVE" => .shopInactive
      | some "MAX_COST_EXCEEDED" => .formCost
      | some "INTERNAL_SERVER_ERROR" => .failed
      | _ => .graphqlError
  | .ok _ => .graphqlError
  | answer => answer

/-- Nothing stands where a write returns what it wrote. -/
def isNothing : Json → Bool
  | .null => true
  | .array [] => true
  | _ => false

def graphqlWriteAnswer (answer : HostAnswer Json) : HostAnswer Json :=
  match answer with
  | .ok (some (.object [(_, .object root)])) =>
    match (Json.object root).get "userErrors" with
    | some (.array []) =>
      if root.any fun f => f.1 ≠ utf16 "userErrors" && isNothing f.2 then .graphqlError else answer
    | some (.array (_ :: _)) => .refused
    | _ => .graphqlError
  | .ok _ => .graphqlError
  | answer => answer

/-! ## Sending -/

inductive Method
  | get | patch | put | post
  deriving DecidableEq

structure GraphqlRequest where
  body : JsString
  detail : JsString
  writes : Bool

def isReadMethod (method : JsString) : Bool :=
  method = utf16 "GET" || method = utf16 "HEAD"

/-- What decides whether a request leaves, under the names the checks have. The body of a request is
its text. -/
structure Gates (Connection : Type) where
  isMailProviderTarget : (url : JsString) → Bool
  isGraphqlEndpoint : (url : JsString) → Bool
  effectiveWriteMethod : Method → (url : JsString) → (payload : Option JsString) → Option JsString
  contractGrants : (url method : JsString) → (body : Option JsString) → Bool
  isOutboundEffectWrite : (url method : JsString) → Bool
  outboundEffectField : (url : JsString) → (payload : Option JsString) → Bool
  isMintedShopifyWrite : (payload : JsString) → Bool
  connectedAccount : (url : JsString) → Bool
  isMeasuredWriteForm : (url method : JsString) → Bool
  assertHostPolicy : (url : JsString) → Bool
  scan : (url : JsString) → (payload : Option JsString) → Bool
  attach : (url method : JsString) → Option Connection
  gateReadingKept : Method → (url : JsString) → (payload : Option JsString) → Bool
  rateLimit : (url : JsString) → Bool
  recordRead : (url : JsString) → (detail : Option JsString) → Bool

variable {Connection : Type}

/-- The text a request is sent with. -/
def payloadOf (method : Method) (body : Value) (graphql : Option GraphqlRequest) : Option JsString :=
  match graphql with
  | some request => some request.body
  | none => if method = .get then none else some body.write

def methodName : Method → JsString
  | .get => utf16 "GET"
  | .patch => utf16 "PATCH"
  | .put => utf16 "PUT"
  | .post => utf16 "POST"

/-- The checks in their order : why a request does not leave. -/
def Gates.stops (G : Gates Connection) (method : Method) (url : JsString) (body : Value)
    (graphql : Option GraphqlRequest) : Option Unsent :=
  let payload := payloadOf method body graphql
  let reads := graphql.any fun request => !request.writes
  if G.isMailProviderTarget url then some .blocked
  else if graphql.isSome ∧ ¬ G.isGraphqlEndpoint url then some .notGranted
  else
    match G.effectiveWriteMethod method url payload with
    | none => some .notGranted
    | some gated =>
      let engineFormWrite := graphql.any fun request =>
        !request.writes || G.isMintedShopifyWrite request.body
      if ¬ G.contractGrants url gated (graphql.map (·.body)) then some .notGranted
      else if G.isOutboundEffectWrite url gated then some .notGranted
      else if ¬ isReadMethod gated ∧ G.outboundEffectField url payload then some .notGranted
      else if ¬ isReadMethod gated ∧ ¬ engineFormWrite ∧ G.connectedAccount url ∧
          ¬ G.isMeasuredWriteForm url gated then some .notGranted
      else if ¬ G.assertHostPolicy url then some .blocked
      else if G.scan url payload then some .secret
      else if (G.attach url (if reads then utf16 "GET" else gated)).isNone then some .noCredential
      else if ¬ G.gateReadingKept method url payload then some .noCredential
      else if G.rateLimit url then some .rateLimited
      else if (isReadMethod (methodName method) ∨ reads) ∧
          ¬ G.recordRead url (graphql.map (·.detail)) then some .unrecorded
      else none

/-- What is reported while a request is made. -/
inductive Report
  | onSend
  | onRefused
  deriving DecidableEq

/-- What a request that left comes to. -/
def answerOf (dateParse : JsString → Option ℤ) (now : ℤ) (maxBytes : ℕ) (isRead : Bool)
    (graphql : Option GraphqlRequest) : Fetched → HostAnswer Json
  | .blocked => .blocked
  | .broken => .failed
  | .response res =>
    match readResponse dateParse res now (isRead || graphql.isSome) maxBytes with
    | .error _ => .failed
    | .ok read =>
      match graphql with
      | none => read
      | some request =>
        let answer := graphqlAnswer dateParse read res.retryAfter now
        if request.writes then graphqlWriteAnswer answer else answer

/-- `send` : the answer, and the reports in their order. -/
def send (G : Gates Connection) (dateParse : JsString → Option ℤ) (now : ℤ) (method : Method)
    (url : JsString)
    (body : Value) (maxBytes : ℕ) (graphql : Option GraphqlRequest) (fetched : Fetched) :
    ExternalRead Json × List Report :=
  match G.stops method url body graphql with
  | some why => (.unsent why, [])
  | none =>
    let answer := answerOf dateParse now maxBytes (isReadMethod (methodName method)) graphql fetched
    (.host answer, .onSend :: if answer.refusedAnswer then [.onRefused] else [])

/-- A write the client sends : one of the verbs with the after-state, or a GraphQL document, whose body
`shopifyWriteRequest` builds where it can. -/
inductive Write
  | rest (method : Method) (h : method ≠ .get) (body : Value)
  | graphql (body : Option JsString) (detail : JsString)

/-- The most a body may hold. -/
def bulkMaxTargetBytes : ℕ :=
  1024 * 1024

/-- `write` and `graphqlWrite`. -/
def sendWrite (G : Gates Connection) (dateParse : JsString → Option ℤ) (now : ℤ) (url : JsString)
    (fetched : Fetched) :
    Write → ExternalRead Json × List Report
  | .rest method _ body => send G dateParse now method url body bulkMaxTargetBytes none fetched
  | .graphql none _ => (.unsent .notGranted, [])
  | .graphql (some body) detail =>
    send G dateParse now .post url .null bulkMaxTargetBytes (some ⟨body, detail, true⟩) fetched

/-! ## What refuses a write -/

def Write.isGraphql : Write → Bool
  | .rest _ _ _ => false
  | .graphql _ _ => true

/-- No errors are in the answer. -/
def NoErrors (answer : Json) : Prop :=
  answer.get "errors" = none ∨ answer.get "errors" = some (.array [])

/-- Errors by which the host did not act : it was asked too often, or refused the credential. -/
def ErrorsRefuse (answer : Json) : Prop :=
  ∃ errors, answer.get "errors" = some (.array errors) ∧
    (carries errors "THROTTLED" = true ∨ carries errors "ACCESS_DENIED" = true)

/-- The write's own errors, under the one root field of the data. -/
def UserErrorsRefuse (answer : Json) : Prop :=
  NoErrors answer ∧ ∃ name root e es, answer.get "data" = some (.object [(name, .object root)]) ∧
    (Json.object root).get "userErrors" = some (.array (e :: es))

/-- A GraphQL answer whose body is read and refuses the write. -/
def BodyRefuses (res : Response) : Prop :=
  ∃ body answer, readCapped res bulkMaxTargetBytes = .ok (some body) ∧ Text.parse body = some answer ∧
    (ErrorsRefuse answer ∨ UserErrorsRefuse answer)

/-- The host did not act on the write : it answered with a 4xx that says so, or with a GraphQL
answer that refuses the write, or the address was blocked before the request left. -/
def ClearRefusal (w : Write) : Fetched → Prop
  | .blocked => True
  | .broken => False
  | .response res =>
    (400 ≤ res.status ∧ res.status < 500 ∧ res.status ≠ 408 ∧ res.status ≠ 499) ∨
      (w.isGraphql = true ∧ 200 ≤ res.status ∧ res.status < 300 ∧ BodyRefuses res)

/-- A GraphQL write leaves and is answered with 408 or 499. -/
def GivenUpInBetween (G : Gates Connection) (url : JsString) (fetched : Fetched) : Write → Prop
  | .rest _ _ _ => False
  | .graphql none _ => False
  | .graphql (some body) detail =>
    G.stops .post url .null (some ⟨body, detail, true⟩) = none ∧
      ∃ res, fetched = .response res ∧ (res.status = 408 ∨ res.status = 499)

section Answers

variable {dateParse : JsString → Option ℤ} {res : Response} {now : ℤ} {answer : HostAnswer Json}

/-- The statuses that decide an answer, by whether it is parsed. -/
theorem readStatus_refused {parse : Bool} (h : readStatus dateParse res now parse = some answer) :
    answer.refusedAnswer = true ↔ 400 ≤ res.status ∧ res.status < 500 ∧
      (parse = true ∨ res.status ≠ 408 ∧ res.status ≠ 499) := by
  unfold readStatus at h
  dsimp only at h
  cases parse <;> split_ifs at h <;> first
    | (obtain rfl := Option.some.inj h; simp only [HostAnswer.refusedAnswer]; simp; omega)
    | (obtain rfl := Option.some.inj h; simp only [HostAnswer.refusedAnswer]; simp_all)

theorem readStatus_eq_none {parse : Bool} :
    readStatus dateParse res now parse = none ↔ 200 ≤ res.status ∧ res.status < 300 := by
  unfold readStatus
  dsimp only
  split_ifs <;> simp <;> omega

/-- A parsed answer is refused by its errors, or by the write's own. -/
theorem graphqlWriteAnswer_refused {value : Json} {retryAfter : Option JsString}
    (h : (graphqlWriteAnswer (graphqlAnswer dateParse
    (.ok (some value)) retryAfter now)).refusedAnswer = true) :
    ErrorsRefuse value ∨ UserErrorsRefuse value := by
  -- the data, where the answer has no errors
  have hdata : NoErrors value → (graphqlWriteAnswer (.ok (value.get "data"))).refusedAnswer = true →
      UserErrorsRefuse value := by
    intro hnone hrefused
    refine ⟨hnone, ?_⟩
    unfold graphqlWriteAnswer at hrefused
    split at hrefused
    · next name root hroot =>
      split at hrefused
      · split_ifs at hrefused
        · cases hrefused
        · cases hrefused
      · next e es herrors => exact ⟨name, root, e, es, HostAnswer.ok.inj hroot, herrors⟩
      · cases hrefused
    · cases hrefused
    · next hne => exact absurd rfl (hne _)
  unfold graphqlAnswer at h
  split at h
  · next fields hvalue =>
    obtain rfl : value = .object fields := Option.some.inj (HostAnswer.ok.inj hvalue)
    split at h
    · next hnone => exact .inr (hdata (.inl hnone) h)
    · next hnone => exact .inr (hdata (.inr hnone) h)
    · next errors _ herrors =>
      have harray : ∀ code, carries (listedErrors errors) code = true →
          (Json.object fields).get "errors" = some (.array (listedErrors errors)) := by
        intro code hcode
        cases errors with
        | array items => exact herrors
        | _ => cases hcode
      by_cases hthrottled : carries (listedErrors errors) "THROTTLED" = true
      · exact .inl ⟨_, harray _ hthrottled, .inl hthrottled⟩
      · by_cases hdenied : carries (listedErrors errors) "ACCESS_DENIED" = true
        · exact .inl ⟨_, harray _ hdenied, .inr hdenied⟩
        · exfalso
          simp only [graphqlErrorOrder, List.find?, hthrottled, hdenied] at h
          cases hclosed : carries (listedErrors errors) "SHOP_INACTIVE" <;>
            cases hcost : carries (listedErrors errors) "MAX_COST_EXCEEDED" <;>
            cases hserver : carries (listedErrors errors) "INTERNAL_SERVER_ERROR" <;>
            simp [hclosed, hcost, hserver, graphqlWriteAnswer, HostAnswer.refusedAnswer] at h
  · cases h
  · next hne => exact absurd rfl (hne _)

theorem readResponse_unparsed (dateParse : JsString → Option ℤ) (res : Response) (now : ℤ) (maxBytes : ℕ) :
    ∃ answer, readResponse dateParse res now false maxBytes = .ok answer ∧
      (answer.refusedAnswer = true → 400 ≤ res.status ∧ res.status < 500 ∧ res.status ≠ 408 ∧
        res.status ≠ 499) := by
  unfold readResponse
  rcases hstatus : readStatus dateParse res now false with _ | answer
  · exact ⟨_, rfl, fun h => by cases h⟩
  · refine ⟨answer, rfl, fun h => ?_⟩
    simpa using (readStatus_refused hstatus).1 h

/-- GraphQL's errors are read out of an answer with a value only. -/
theorem graphqlWriteAnswer_of_status (dateParse : JsString → Option ℤ)
    (retryAfter : Option JsString) (now : ℤ)
    (h : ∀ value, answer ≠ .ok value) :
    graphqlWriteAnswer (graphqlAnswer dateParse answer retryAfter now) = answer := by
  cases answer with
  | ok value => exact absurd rfl (h value)
  | _ => rfl

theorem readStatus_ne_ok {parse : Bool} (h : readStatus dateParse res now parse = some answer)
    (value : Option Json) :
    answer ≠ .ok value := by
  rintro rfl
  unfold readStatus at h
  dsimp only at h
  split_ifs at h <;> cases h

/-- An answer to a GraphQL write that is taken for a refusal. -/
theorem graphql_refused {maxBytes : ℕ} (request : GraphqlRequest) (hwrites : request.writes = true)
    (isRead : Bool) :
    (answerOf dateParse now maxBytes isRead (some request) (.response res)).refusedAnswer = true ↔
      (400 ≤ res.status ∧ res.status < 500) ∨
      (200 ≤ res.status ∧ res.status < 300 ∧ ∃ body value, readCapped res maxBytes = .ok (some body) ∧
        Text.parse body = some value ∧
        (graphqlWriteAnswer (graphqlAnswer dateParse
          (.ok (some value)) res.retryAfter now)).refusedAnswer = true) := by
  simp only [answerOf, Option.isSome_some, Bool.or_true, hwrites, if_true]
  unfold readResponse
  rcases hstatus : readStatus dateParse res now true with _ | answer
  · obtain ⟨hlow, hhigh⟩ := readStatus_eq_none.1 hstatus
    have hnot : ¬ (400 ≤ res.status ∧ res.status < 500) := by omega
    simp only [Bool.true_eq_false, if_false, hnot, hlow, hhigh, true_and, false_or]
    rcases hbody : readCapped res maxBytes with e | _ | body
    · simp [Except.map, HostAnswer.refusedAnswer]
    · simp [Except.map, graphqlAnswer, graphqlWriteAnswer, HostAnswer.refusedAnswer]
    · rcases hparse : Text.parse body with _ | value
      · simp [Except.map, hparse, graphqlAnswer, graphqlWriteAnswer, HostAnswer.refusedAnswer]
      · simp [Except.map, hparse]
  · have href := readStatus_refused hstatus
    simp only [true_or, and_true] at href
    have hnot : ¬ (200 ≤ res.status ∧ res.status < 300) := fun h => by
      rw [readStatus_eq_none.2 h] at hstatus
      cases hstatus
    simp only [graphqlWriteAnswer_of_status dateParse res.retryAfter now (readStatus_ne_ok hstatus), href]
    exact ⟨.inl, fun h => h.resolve_right fun h => hnot ⟨h.1, h.2.1⟩⟩

end Answers

/-- A refusal is reported where the host did not act on the write, for every write and whatever
comes of it, but for a GraphQL write that is given up in between. -/
theorem reported_is_refused_iff (G : Gates Connection) (dateParse : JsString → Option ℤ) (now : ℤ)
    (url : JsString)
    (fetched : Fetched) (w : Write) :
    (Report.onRefused ∈ (sendWrite G dateParse now url fetched w).2 → ClearRefusal w fetched) ↔
      ¬ GivenUpInBetween G url fetched w := by
  -- a report is a refused answer to a request that left
  have hreport : ∀ (method : Method) (body : Value) (graphql : Option GraphqlRequest),
      Report.onRefused ∈ (send G dateParse now method url body bulkMaxTargetBytes graphql fetched).2 ↔
        G.stops method url body graphql = none ∧
        (answerOf dateParse now bulkMaxTargetBytes
          (isReadMethod (methodName method)) graphql fetched).refusedAnswer =
          true := by
    intro method body graphql
    unfold send
    rcases G.stops method url body graphql with _ | why
    · by_cases hrefused : (answerOf dateParse now bulkMaxTargetBytes
        (isReadMethod (methodName method)) graphql
        fetched).refusedAnswer = true <;> simp [hrefused]
    · simp
  cases w with
  | rest method hwrite body =>
    refine iff_of_true (fun h => ?_) not_false
    obtain ⟨-, hrefused⟩ := (hreport method body none).1 h
    have hread : isReadMethod (methodName method) = false := by
      cases method with
      | get => exact absurd rfl hwrite
      | _ => decide
    rw [hread] at hrefused
    cases fetched with
    | blocked => trivial
    | broken => cases hrefused
    | response res =>
      obtain ⟨answer, hanswer, himp⟩ := readResponse_unparsed dateParse res now bulkMaxTargetBytes
      simp only [answerOf, Option.isSome_none, Bool.or_self, hanswer] at hrefused
      exact .inl (himp hrefused)
  | graphql body detail =>
    cases body with
    | none => exact iff_of_true (fun h => by cases h) not_false
    | some body =>
      simp only [sendWrite, hreport, GivenUpInBetween]
      cases fetched with
      | blocked => simp [ClearRefusal]
      | broken => simp [ClearRefusal, answerOf, HostAnswer.refusedAnswer]
      | response res =>
        rw [graphql_refused ⟨body, detail, true⟩ rfl]
        constructor
        · rintro h ⟨hstops, res', heq, hstatus⟩
          obtain rfl : res = res' := Fetched.response.inj heq
          rcases h ⟨hstops, .inl (by omega)⟩ with ⟨-, -, h408, h499⟩ | ⟨-, -, hhigh, -⟩
          · omega
          · omega
        · rintro h ⟨hstops, hrefused⟩
          rcases hrefused with ⟨hlow, hhigh⟩ | ⟨hlow, hhigh, text, value, hread, hparse, hrefused⟩
          · refine .inl ⟨hlow, hhigh, fun h408 => h ⟨hstops, res, rfl, .inl h408⟩,
              fun h499 => h ⟨hstops, res, rfl, .inr h499⟩⟩
          · exact .inr ⟨rfl, hlow, hhigh, text, value, hread, hparse, graphqlWriteAnswer_refused hrefused⟩

/-- Every check passes. -/
def openGates : Gates Unit where
  isMailProviderTarget _ := false
  isGraphqlEndpoint _ := true
  effectiveWriteMethod method _ _ := some (methodName method)
  contractGrants _ _ _ := true
  isOutboundEffectWrite _ _ := false
  outboundEffectField _ _ := false
  isMintedShopifyWrite _ := true
  connectedAccount _ := true
  isMeasuredWriteForm _ _ := false
  assertHostPolicy _ := true
  scan _ _ := false
  attach _ _ := some ()
  gateReadingKept _ _ _ := true
  rateLimit _ := false
  recordRead _ _ := true

/-- A GraphQL write that timed out at a proxy is reported as refused. -/
theorem timeout_at_a_proxy_is_reported :
    Report.onRefused ∈ (sendWrite openGates (fun _ => none) 0 (utf16 "https://shop.example/graphql.json")
        (.response ⟨408, none, none⟩) (.graphql (some (utf16 "mutation")) (utf16 "product"))).2 ∧
      ¬ ClearRefusal (.graphql (some (utf16 "mutation")) (utf16 "product"))
        (.response ⟨408, none, none⟩) := by
  refine ⟨by decide, ?_⟩
  simp [ClearRefusal]

end Lynox.External
