import Lynox.Triggers.Inbound

/-!
# The receiver of webhook deliveries

A delivery the trigger's verifier accepted is recorded in the ledger, and recording is the answer
200. A delivery of another shop, or one over the number of events a trigger may hold waiting, is
recorded dropped. What is refused before its verification changes nothing of the ledger.
-/

namespace Lynox.Triggers

open Text InboundEvents

inductive WebhookVerifierKind
  | shopifyHmac | sharedToken
  deriving DecidableEq, Repr

/-- A Shopify body is keyed for the instance, one under a shared token for its trigger. `digest` is
the SHA-256 of the body, in hex. -/
def bodyDedupKey (digest : List UInt8 → String) (kind : WebhookVerifierKind) (triggerId : String)
    (body : List UInt8) : String :=
  match kind with
  | .shopifyHmac => "shopify-hmac:sha256:" ++ digest body
  | .sharedToken => "shared-token:" ++ triggerId ++ ":sha256:" ++ digest body

def maxWaitingEvents : Nat := 500

def shopMismatchReason : String := "The delivery names another shop than the trigger's connection."

def queueFullReason : String :=
  "The trigger already had " ++ toString maxWaitingEvents ++
    " events waiting to run, so this one was not kept."

/-- A request whose body was read : its trigger and verifier, whether it was verified, the shop its
header names (in lower case) and the connection's, and the JSON text of the values the trigger's
mapping reads out of the body, where it has a mapping. -/
structure Delivery where
  triggerId : String
  kind : WebhookVerifierKind
  verified : Bool
  shop : Option String
  shopHost : String
  body : List UInt8
  mapped : Option JsString
  headers : List (String × String)
  deriving DecidableEq

/-- What the receiver records. -/
def Delivery.input (digest : List UInt8 → String) (d : Delivery) (rows : List InboundEvent) :
    RecordDelivery :=
  let shopMismatch : Bool := d.kind = .shopifyHmac && d.shop.getD "" ≠ d.shopHost
  let dedupKey := bodyDedupKey digest d.kind d.triggerId d.body
  let duplicate := has rows dedupKey
  let full : Bool := !shopMismatch && !duplicate && maxWaitingEvents ≤ countWaiting rows d.triggerId
  { triggerId := d.triggerId
    dedupKey := dedupKey
    headers := d.headers
    state := if shopMismatch || full then .dropped else .received
    reason := if shopMismatch then some shopMismatchReason else if full then some queueFullReason
      else none
    values := if !shopMismatch && !full && !duplicate then d.mapped else none }

/-- The ledger after a request, and whether it has a new row. -/
def handle (c : EventCipher) (digest : List UInt8 → String) (rows : List InboundEvent) (d : Delivery)
    (id now : String) : Bool × List InboundEvent :=
  if d.verified then record c rows (d.input digest rows) id now else (false, rows)

section Waiting

variable {rows : List InboundEvent} {triggerId : String}

/-- Moving rows never adds a waiting one. -/
theorem countWaiting_moved {rows' : List InboundEvent} (h : AllMoved rows rows') :
    countWaiting rows' triggerId ≤ countWaiting rows triggerId := by
  obtain ⟨g, rfl, hg⟩ := h
  unfold countWaiting
  rw [List.countP_map]
  refine List.countP_mono_left fun r hr hw => ?_
  rw [Function.comp, waits, Bool.and_eq_true, decide_eq_true_eq, decide_eq_true_eq] at hw
  rw [waits, Bool.and_eq_true, decide_eq_true_eq, decide_eq_true_eq, ← (hg r hr).waits hw.2]
  exact hw

/-- What a new row waits for is within the bound. -/
theorem countWaiting_handle {c : EventCipher} {digest : List UInt8 → String} {d : Delivery}
    {id now : String} (h : ∀ t, countWaiting rows t ≤ maxWaitingEvents) :
    countWaiting (handle c digest rows d id now).2 triggerId ≤ maxWaitingEvents := by
  unfold handle record
  split_ifs with hverified hthere
  · exact h triggerId
  · unfold countWaiting
    rw [List.countP_append]
    by_cases hw : waits triggerId ((d.input digest rows).row c id now) = true
    · rw [List.countP_singleton, if_pos hw]
      rw [waits, Bool.and_eq_true, decide_eq_true_eq, decide_eq_true_eq] at hw
      obtain ⟨hid, hstate⟩ := hw
      have hnew : has rows (d.input digest rows).dedupKey = false :=
        (Bool.or_eq_false_iff.mp (Bool.eq_false_iff.mpr hthere)).1
      have hroom : countWaiting rows triggerId < maxWaitingEvents := by
        by_contra hfull
        have hdropped : (d.input digest rows).state = .dropped := by
          rw [← hid] at hfull
          unfold Delivery.input at hnew hfull ⊢
          simp only at hnew hfull ⊢
          rw [if_pos]
          rw [hnew]
          cases hm : (decide (d.kind = .shopifyHmac) && decide (d.shop.getD "" ≠ d.shopHost)) with
          | true => rfl
          | false =>
            simp only [Bool.false_or, Bool.not_false, Bool.true_and, decide_eq_true_eq]
            exact Nat.le_of_not_lt hfull
        exact absurd (hdropped.symm.trans hstate) (by decide)
      exact hroom
    · rw [List.countP_singleton, if_neg hw]
      exact h triggerId
  · exact h triggerId

end Waiting

end Lynox.Triggers
