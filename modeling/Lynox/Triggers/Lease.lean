import Lynox.Data.Lease
import Lynox.Triggers.Store
import Mathlib.Data.String.Basic

/-!
# The lease of a trigger

Holders claim, renew and release the lease of a trigger in any order. On the row of one trigger
`claimLease`, `renewLease` and `releaseLease` are the operations of a `Lease` over texts
(`rowLease_perform`), and calls on other triggers leave it alone. So the rules of leases hold of
the store (`lease_is_exclusive`) : a claim is granted only where no lease on the row has time
left, no other is granted until the time last granted to its holder or its release, and a
holder another one followed can neither renew nor release what the other one holds.
-/

namespace Lynox.Triggers

/-! ## Calls -/

/-- A call on the lease of the trigger `id`. -/
structure LeaseCall where
  id : String
  call : Lease.Call String String

def LeaseClaim.granted : LeaseClaim → Bool
  | .claimed | .interrupted => true
  | .held | .notFound => false

/-- Whether the call is granted, and the store after it. A release answers nothing : whether it
dropped a lease. -/
def LeaseCall.perform (c : LeaseCall) (s : Store) : Bool × Store :=
  match c.call.op with
  | .claim holder until' =>
    let claim := claimLease s c.id holder until' c.call.now
    (claim.1.granted, claim.2)
  | .renew holder until' => renewLease s c.id holder until'
  | .release holder =>
    (s.rows.any fun r => r.id = c.id && r.leaseHolder = some holder, releaseLease s c.id holder)

namespace Store

/-- The store after a list of calls. -/
abbrev afterCalls (s : Store) (calls : List LeaseCall) : Store :=
  Run.after (fun s c => (LeaseCall.perform c s).2) s calls

/-- A claim of `h` on the trigger `id` is granted. -/
def Claimed (id h : String) (s : Store) (c : LeaseCall) : Prop :=
  c.id = id ∧ (∃ until', c.call.op = .claim h until') ∧ (c.perform s).1 = true

/-- No call of the list is one of `P` where it is made. -/
def Never (P : Store → LeaseCall → Prop) : Store → List LeaseCall → Prop :=
  Run.Obeys (fun s c => (LeaseCall.perform c s).2) fun s c => ¬ P s c

/-- The time last granted to `h` on the trigger `id`, from `u` on. -/
def lastGrant (id h : String) : String → Store → List LeaseCall → String
  | u, _, [] => u
  | u, s, c :: calls =>
    lastGrant id h
      (match c.call.op with
        | .claim h' u' | .renew h' u' =>
          if c.id = id ∧ h' = h ∧ (c.perform s).1 = true then u' else u
        | .release _ => u)
      (c.perform s).2 calls

end Store

/-! ## The row of a trigger -/

/-- The lease on the row of a trigger. -/
def rowLease (s : Store) (id : String) : Lease String String :=
  match Table.find Trigger.id s.rows id with
  | some row => ⟨row.leaseHolder, row.leaseUntil⟩
  | none => ⟨none, none⟩

theorem rowLease_of_find {s : Store} {id : String} {row : Trigger}
    (h : Table.find Trigger.id s.rows id = some row) :
    rowLease s id = ⟨row.leaseHolder, row.leaseUntil⟩ := by
  rw [rowLease, h]

/-- No two triggers share an id : it is the primary key. -/
def Store.Keyed (s : Store) : Prop :=
  (s.rows.map Trigger.id).Nodup

section Update

variable {s : Store} {id id' : String} {p : Trigger → Bool} {f : Trigger → Trigger} {row : Trigger}

theorem find_update (hf : ∀ r, (f r).id = r.id) : Table.find Trigger.id (s.update id p f).2.rows id' =
    (Table.find Trigger.id s.rows id').map fun r => if r.id = id && p r then f r else r := by
  refine Table.find_map fun r => ?_
  split
  · exact hf r
  · rfl

theorem find_update_self (hf : ∀ r, (f r).id = r.id)
    (hrow : Table.find Trigger.id s.rows id = some row) :
    Table.find Trigger.id (s.update id p f).2.rows id = some (if p row then f row else row) := by
  rw [find_update hf, hrow, Option.map_some, Table.key_of_find hrow]
  simp

theorem keyed_update (h : s.Keyed) (hf : ∀ r, (f r).id = r.id) : (s.update id p f).2.Keyed := by
  unfold Store.Keyed Store.update
  rw [Table.map_key fun r => ?_]
  · exact h
  · split
    · exact hf r
    · rfl

/-- Whether an update matches, read off the one row under the id. -/
theorem update_fst (h : s.Keyed) (hrow : Table.find Trigger.id s.rows id = some row) :
    (s.update id p f).1 = p row := by
  simp only [Store.update]
  rw [Bool.eq_iff_iff, List.any_eq_true]
  constructor
  · rintro ⟨r, hr, hp⟩
    simp only [Bool.and_eq_true, decide_eq_true_eq] at hp
    have hfind := Table.find_of_mem h hr
    rw [hp.1, hrow] at hfind
    exact Option.some.inj hfind ▸ hp.2
  · intro hp
    exact ⟨row, Table.mem_of_find hrow, by simp [Table.key_of_find hrow, hp]⟩

/-- An update that matches nothing leaves the store as it is. -/
theorem update_of_not (h : s.Keyed) (hrow : Table.find Trigger.id s.rows id = some row)
    (hp : p row = false) : s.update id p f = (false, s) := by
  have hrows : (s.rows.map fun r => if r.id = id && p r then f r else r) = s.rows := by
    refine (List.map_congr_left fun r hr => ?_).trans s.rows.map_id
    split
    · next hmatch =>
      simp only [Bool.and_eq_true, decide_eq_true_eq] at hmatch
      have hfind := Table.find_of_mem h hr
      rw [hmatch.1, hrow] at hfind
      simp [← Option.some.inj hfind, hp] at hmatch
    · rfl
  refine Prod.ext ((update_fst h hrow).trans hp) ?_
  show ({ s with rows := _ } : Store) = s
  rw [hrows]

end Update

section Row

variable {s : Store} {c : LeaseCall} {id : String}

theorem keyed_perform (h : s.Keyed) : (c.perform s).2.Keyed := by
  unfold LeaseCall.perform
  split
  · dsimp only [claimLease]
    split
    · exact h
    · split
      · exact h
      · exact keyed_update h fun _ => rfl
  · exact keyed_update h fun _ => rfl
  · exact keyed_update h fun _ => rfl

/-- A call on another trigger. -/
theorem find_perform_of_ne (hid : c.id ≠ id) :
    Table.find Trigger.id (c.perform s).2.rows id = Table.find Trigger.id s.rows id := by
  have hupdate {p : Trigger → Bool} {f : Trigger → Trigger} (hf : ∀ r, (f r).id = r.id) :
      Table.find Trigger.id (s.update c.id p f).2.rows id = Table.find Trigger.id s.rows id := by
    rw [find_update hf]
    rcases hrow : Table.find Trigger.id s.rows id with _ | row
    · rfl
    · have hne : row.id ≠ c.id := fun he => hid (he.symm.trans (Table.key_of_find hrow))
      simp [hne]
  unfold LeaseCall.perform
  split
  · dsimp only [claimLease]
    split
    · rfl
    · split
      · rfl
      · exact hupdate fun _ => rfl
  · exact hupdate fun _ => rfl
  · exact hupdate fun _ => rfl

/-- A call on the trigger is the operation of its lease. -/
theorem rowLease_perform {row : Trigger} (h : s.Keyed)
    (hrow : Table.find Trigger.id s.rows c.id = some row) :
    (c.perform s).1 = (Lease.perform (rowLease s c.id) c.call).1 ∧
      rowLease (c.perform s).2 c.id = (Lease.perform (rowLease s c.id) c.call).2 ∧
      ∃ row', Table.find Trigger.id (c.perform s).2.rows c.id = some row' := by
  have hlease := rowLease_of_find hrow
  rw [hlease]
  unfold LeaseCall.perform
  rcases hop : c.call.op with ⟨holder, until'⟩ | ⟨holder, until'⟩ | holder
  · rw [Lease.perform_claim hop]
    simp only [claimLease, hrow]
    split
    · next hheld => exact ⟨rfl, hlease, row, hrow⟩
    · have hfind := find_update_self (p := fun _ => true)
        (f := fun r => { r with
          leaseHolder := some holder, leaseUntil := some until', leaseSince := some c.call.now })
        (fun _ => rfl) hrow
      refine ⟨?_, ?_, _, hfind⟩
      · split <;> rfl
      · exact rowLease_of_find hfind
  · rw [Lease.perform_renew hop]
    have hfind := find_update_self (p := fun r => r.leaseHolder = some holder)
      (f := fun r => { r with leaseUntil := some until' }) (fun _ => rfl) hrow
    have hmatch := update_fst (p := fun r => r.leaseHolder = some holder)
      (f := fun r => { r with leaseUntil := some until' }) h hrow
    by_cases hh : row.leaseHolder = some holder
    · simp only [hh, decide_true, if_true] at hfind hmatch ⊢
      exact ⟨hmatch, rowLease_of_find hfind, _, hfind⟩
    · simp only [hh, decide_false, if_false, Bool.false_eq_true] at hfind hmatch ⊢
      exact ⟨hmatch, rowLease_of_find hfind, _, hfind⟩
  · rw [Lease.perform_release hop]
    have hfind := find_update_self (p := fun r => r.leaseHolder = some holder)
      (f := fun r => { r with leaseHolder := none, leaseUntil := none, leaseSince := none })
      (fun _ => rfl) hrow
    have hmatch := update_fst (p := fun r => r.leaseHolder = some holder) (f := fun r => r) h hrow
    by_cases hh : row.leaseHolder = some holder
    · simp only [hh, decide_true, if_true] at hfind hmatch ⊢
      exact ⟨hmatch, rowLease_of_find hfind, _, hfind⟩
    · simp only [hh, decide_false, if_false, Bool.false_eq_true] at hfind hmatch ⊢
      exact ⟨hmatch, rowLease_of_find hfind, _, hfind⟩

end Row

/-! ## Runs -/

/-- The calls on the trigger `id`. -/
def callsOn (id : String) (calls : List LeaseCall) : List (Lease.Call String String) :=
  (calls.filter (·.id = id)).map LeaseCall.call

/-- The trigger is in the store, under a key of its own. -/
def Store.Has (s : Store) (id : String) : Prop :=
  s.Keyed ∧ ∃ row, Table.find Trigger.id s.rows id = some row

section Runs

variable {s : Store} {c : LeaseCall} {id h u : String} {calls : List LeaseCall}

theorem callsOn_cons_self : callsOn c.id (c :: calls) = c.call :: callsOn c.id calls := by
  simp [callsOn]

theorem callsOn_cons_of_ne (hid : c.id ≠ id) : callsOn id (c :: calls) = callsOn id calls := by
  simp [callsOn, hid]

theorem Store.Has.perform (hs : s.Has id) (c : LeaseCall) : (c.perform s).2.Has id := by
  refine ⟨keyed_perform hs.1, ?_⟩
  obtain ⟨row, hrow⟩ := hs.2
  by_cases hid : c.id = id
  · subst hid
    exact (rowLease_perform hs.1 hrow).2.2
  · exact ⟨row, (find_perform_of_ne hid).trans hrow⟩

theorem rowLease_of_ne (hid : c.id ≠ id) : rowLease (c.perform s).2 id = rowLease s id := by
  rw [rowLease, rowLease, find_perform_of_ne hid]

/-- A call on the trigger, of its lease. -/
theorem Store.Has.perform_eq (hs : s.Has c.id) :
    (c.perform s).1 = (Lease.perform (rowLease s c.id) c.call).1 ∧
      rowLease (c.perform s).2 c.id = (Lease.perform (rowLease s c.id) c.call).2 := by
  obtain ⟨row, hrow⟩ := hs.2
  have hrefines := rowLease_perform hs.1 hrow
  exact ⟨hrefines.1, hrefines.2.1⟩

/-- Over a run the lease of a trigger goes through the calls on it. -/
theorem Store.Has.afterCalls (hs : s.Has id) (calls : List LeaseCall) :
    (s.afterCalls calls).Has id ∧
    rowLease (s.afterCalls calls) id = (rowLease s id).after (callsOn id calls) := by
  induction calls generalizing s with
  | nil => exact ⟨hs, rfl⟩
  | cons c calls ih =>
    obtain ⟨hhas, hlease⟩ := ih (hs.perform c)
    refine ⟨hhas, hlease.trans ?_⟩
    by_cases hid : c.id = id
    · subst hid
      rw [callsOn_cons_self, hs.perform_eq.2]
      rfl
    · rw [callsOn_cons_of_ne hid, rowLease_of_ne hid]

theorem claimed_iff (hs : s.Has c.id) :
    Store.Claimed c.id h s c ↔ Lease.Claims h (rowLease s c.id) c.call := by
  rw [Store.Claimed, Lease.Claims, hs.perform_eq.1]
  simp

/-- What a run of the store never does on a trigger, its lease never goes through. -/
theorem never_iff {P : Store → LeaseCall → Prop}
    {Q : Lease String String → Lease.Call String String → Prop}
    (hother : ∀ s c, c.id ≠ id → ¬ P s c)
    (hsame : ∀ s c, c.id = id → s.Has c.id → (P s c ↔ Q (rowLease s c.id) c.call)) (hs : s.Has id) :
    Store.Never P s calls ↔ Lease.Never Q (rowLease s id) (callsOn id calls) := by
  induction calls generalizing s with
  | nil => exact Iff.rfl
  | cons c calls ih =>
    have hrest := ih (hs.perform c)
    by_cases hid : c.id = id
    · subst hid
      rw [hs.perform_eq.2] at hrest
      rw [callsOn_cons_self]
      exact and_congr (not_congr (hsame s c rfl hs)) hrest
    · rw [rowLease_of_ne hid] at hrest
      rw [callsOn_cons_of_ne hid]
      exact ⟨fun hn => hrest.mp hn.2, fun hn => ⟨hother s c hid, hrest.mpr hn⟩⟩

theorem lastGrant_eq (hs : s.Has id) :
    Store.lastGrant id h u s calls = Lease.lastGrant h u (rowLease s id) (callsOn id calls) := by
  induction calls generalizing s u with
  | nil => rfl
  | cons c calls ih =>
    rw [Store.lastGrant, ih (hs.perform c)]
    by_cases hid : c.id = id
    · subst hid
      rw [callsOn_cons_self, Lease.lastGrant, hs.perform_eq.2, Lease.grant, hs.perform_eq.1]
      simp only [true_and]
      cases c.call.op <;> rfl
    · rw [callsOn_cons_of_ne hid, rowLease_of_ne hid]
      simp only [hid, false_and, if_false]
      cases c.call.op <;> rfl

/-- A granted claim is on a trigger that is there. -/
theorem has_of_granted (hkey : s.Keyed) {until' : String} (hop : c.call.op = .claim h until')
    (hgranted : (c.perform s).1 = true) : s.Has c.id := by
  refine ⟨hkey, ?_⟩
  simp only [LeaseCall.perform, hop, claimLease] at hgranted
  split at hgranted
  · cases hgranted
  · next row hrow => exact ⟨row, hrow⟩

/-- A holder whose lease another one has can neither renew nor release it. -/
theorem perform_refused (hs : s.Has c.id) (hl : (rowLease s c.id).holder ≠ some h) :
    (∀ u, c.call.op = .renew h u → c.perform s = (false, s)) ∧
      (c.call.op = .release h → c.perform s = (false, s)) := by
  obtain ⟨hkey, row, hrow⟩ := hs
  rw [rowLease_of_find hrow] at hl
  have hmiss : decide (row.leaseHolder = some h) = false := by simpa using hl
  refine ⟨fun u hop => ?_, fun hop => ?_⟩
  · simp only [LeaseCall.perform, hop]
    exact update_of_not hkey hrow hmiss
  · simp only [LeaseCall.perform, hop]
    refine Prod.ext ((update_fst (f := fun r => r) hkey hrow).trans hmiss) ?_
    exact congrArg Prod.snd (update_of_not hkey hrow hmiss)

theorem keyed_afterCalls (hkey : s.Keyed) : (s.afterCalls calls).Keyed :=
  Run.invariant (fun _ _ h => keyed_perform h) hkey

end Runs

/-- Over every run of calls of distinct holders under a clock that does not go back. A claim is
granted only where no lease on the row has time left. Until the time last granted to its holder,
unless the holder releases the lease or claims it anew, no other claim is granted. And once
another claim was granted, the first holder can neither renew nor release until it claims. -/
theorem lease_is_exclusive {s : Store} (hkey : s.Keyed) {pre mid : List LeaseCall}
    {c d : LeaseCall} {h until' : String}
    (hclock : ((pre ++ c :: (mid ++ [d])).map fun e => e.call.now).Pairwise (· ≤ ·))
    (hop : c.call.op = .claim h until') (hgranted : (c.perform (s.afterCalls pre)).1 = true)
    (hid : d.id = c.id) :
    (∃ row, Table.find Trigger.id (s.afterCalls pre).rows c.id = some row ∧
      ∀ u ∈ row.leaseUntil, u ≤ c.call.now) ∧
    (Store.Never (Store.Claimed c.id h) (c.perform (s.afterCalls pre)).2 mid →
      (∀ e ∈ mid, e.id = c.id → e.call.op ≠ .release h) →
      d.call.now < Store.lastGrant c.id h until' (c.perform (s.afterCalls pre)).2 mid →
      Store.Never (fun s e => ∃ h', Store.Claimed c.id h' s e) (c.perform (s.afterCalls pre)).2
        (mid ++ [d])) ∧
    (∀ m₁ e m₂ h', mid = m₁ ++ e :: m₂ → h' ≠ h →
      Store.Claimed c.id h' ((c.perform (s.afterCalls pre)).2.afterCalls m₁) e →
      Store.Never (Store.Claimed c.id h)
        (e.perform ((c.perform (s.afterCalls pre)).2.afterCalls m₁)).2 m₂ →
      (∀ u, d.call.op = .renew h u →
        d.perform ((c.perform (s.afterCalls pre)).2.afterCalls mid) =
          (false, (c.perform (s.afterCalls pre)).2.afterCalls mid)) ∧
      (d.call.op = .release h →
        d.perform ((c.perform (s.afterCalls pre)).2.afterCalls mid) =
          (false, (c.perform (s.afterCalls pre)).2.afterCalls mid))) := by
  have hhas := has_of_granted (keyed_afterCalls hkey) hop hgranted
  have hclaims : Lease.Claims h (rowLease (s.afterCalls pre) c.id) c.call :=
    (claimed_iff hhas).mp ⟨rfl, ⟨until', hop⟩, hgranted⟩
  have hstart : rowLease (c.perform (s.afterCalls pre)).2 c.id = ⟨some h, some until'⟩ := by
    rw [hhas.perform_eq.2, hclaims.perform_eq hop]
  have hnext := hhas.perform c
  have hnever (h' : String) {s' : Store} {l : List LeaseCall} (hs' : s'.Has c.id) :
      Store.Never (Store.Claimed c.id h') s' l ↔
        Lease.Never (Lease.Claims h') (rowLease s' c.id) (callsOn c.id l) :=
    never_iff (fun _ _ hne hcl => hne hcl.1) (fun _ _ he hs => he ▸ claimed_iff hs) hs'
  refine ⟨?_, fun hown hrelease hnow => ?_, fun m₁ e m₂ h' hmid hne htaken hown => ?_⟩
  · obtain ⟨row, hrow⟩ := hhas.2
    refine ⟨row, hrow, ?_⟩
    have hlapsed := hclaims.lapsed
    rwa [rowLease_of_find hrow] at hlapsed
  · rw [hnever h hnext, hstart] at hown
    rw [lastGrant_eq hnext, hstart] at hnow
    have hcalls {k : Lease.Call String String} (hk : k ∈ callsOn c.id mid) :
        ∃ e ∈ mid, e.id = c.id ∧ e.call = k := by
      obtain ⟨e, he, rfl⟩ := List.mem_map.mp hk
      exact ⟨e, (List.mem_filter.mp he).1, by simpa using (List.mem_filter.mp he).2, rfl⟩
    have hlater (k : Lease.Call String String) (hk : k ∈ callsOn c.id mid) :
        k.now ≤ d.call.now := by
      obtain ⟨e, he, -, rfl⟩ := hcalls hk
      rw [List.map_append, List.map_cons, List.map_append] at hclock
      have hrest := (List.pairwise_cons.mp (List.pairwise_append.mp hclock).2.1).2
      exact (List.pairwise_append.mp hrest).2.2 _ (List.mem_map_of_mem he) _ (by simp)
    obtain ⟨hnone, hafter⟩ := Lease.stands_after hown (fun k hk => by
      obtain ⟨e, he, heid, rfl⟩ := hcalls hk
      exact hrelease e he heid) hlater hnow
    have htransfer {s' : Store} {l : List LeaseCall} (hs' : s'.Has c.id) :
        Store.Never (fun s e => ∃ h', Store.Claimed c.id h' s e) s' l ↔
          Lease.Never (fun l k => ∃ h', Lease.Claims h' l k) (rowLease s' c.id) (callsOn c.id l) := by
      refine never_iff (fun _ _ hne hcl => hne hcl.choose_spec.1) (fun s e he hs => ?_) hs'
      exact exists_congr fun h' => he ▸ claimed_iff hs
    rw [htransfer hnext, hstart, show callsOn c.id (mid ++ [d]) = callsOn c.id mid ++ [d.call] by
      simp [callsOn, hid]]
    refine Run.obeys_append.mpr ⟨hnone, ?_, trivial⟩
    rintro ⟨h', hclaimed⟩
    have hstate := hclaimed.lapsed
    rw [show Run.after _ _ _ = _ from hafter] at hstate
    exact absurd (hstate _ rfl) (not_le_of_gt hnow)
  · have hs₁ := hnext.afterCalls m₁
    have heid : e.id = c.id := htaken.1
    have hs₂ := hs₁.1.perform e
    have hclaimed : Lease.Claims h' (rowLease ((c.perform (s.afterCalls pre)).2.afterCalls m₁) e.id)
        e.call := (claimed_iff (heid ▸ hs₁.1)).mp (heid ▸ htaken)
    have hlost : (rowLease (e.perform ((c.perform (s.afterCalls pre)).2.afterCalls m₁)).2
        c.id).holder ≠ some h := by
      rw [← heid, (heid ▸ hs₁.1 : Store.Has _ e.id).perform_eq.2, hclaimed.holds]
      exact fun he => hne (Option.some.inj he)
    have hend := hs₂.afterCalls m₂
    have hholder := (Lease.lost_after (u := until') hlost ((hnever h hs₂).mp hown)).1
    rw [← hend.2] at hholder
    have hrun : (c.perform (s.afterCalls pre)).2.afterCalls mid =
        (e.perform ((c.perform (s.afterCalls pre)).2.afterCalls m₁)).2.afterCalls m₂ := by
      rw [hmid, Store.afterCalls, Run.after_append]
      rfl
    rw [hrun]
    exact perform_refused (hid ▸ hend.1) (hid ▸ hholder)

/-- A store of one trigger. -/
def oneTrigger : Store :=
  upsert ⟨[], [], false⟩ (bulkRow "r" .bulkApply "run" "0") "0" "0"

/-- The first holder's lease ran out at five and was claimed at six; its renewal at seven is
refused. -/
theorem late_renewal_is_refused :
    let id := bulkTriggerId .bulkApply "r"
    let taken := oneTrigger.afterCalls
      [⟨id, ⟨.claim "first" "5", "0"⟩⟩, ⟨id, ⟨.claim "second" "9", "6"⟩⟩]
    LeaseCall.perform ⟨id, ⟨.renew "first" "12", "7"⟩⟩ taken = (false, taken) :=
  ((@lease_is_exclusive oneTrigger (List.nodup_singleton _) [] [⟨_, ⟨.claim "second" "9", "6"⟩⟩]
    ⟨_, ⟨.claim "first" "5", "0"⟩⟩ ⟨_, ⟨.renew "first" "12", "7"⟩⟩ _ _ (by decide) rfl (by decide)
    rfl).2.2
    [] _ [] "second" rfl (by decide) ⟨rfl, ⟨_, rfl⟩, by decide⟩ trivial).1 _ rfl

end Lynox.Triggers
