import Lynox.Process.Run
import Mathlib.Order.Lattice

/-!
# Leases

A lease names its holder and the time it runs out. It is granted to a claim that finds none, or
one that has run out, renewed and released under its holder's name alone; a lapsed lease stays
on its row until it is claimed or released, and its holder may renew it until then.

`lastGrant` is the time last granted to a holder, read off the calls and their answers. Between
a granted claim and that time no other claim is granted, unless the holder released the lease
(`stands_after`); and once it went to another holder nothing is granted to the first any more but
by a claim of its own (`lost_after`). Holders are any type with equality, times any linear order.
-/

namespace Lynox

/-- Who holds a lease and until when. -/
structure Lease (η τ : Type*) where
  holder : Option η
  expiry : Option τ

namespace Lease

inductive Op (η τ : Type*)
  | claim (holder : η) (expiry : τ)
  | renew (holder : η) (expiry : τ)
  | release (holder : η)

/-- An operation, and when it is made. -/
structure Call (η τ : Type*) where
  op : Op η τ
  now : τ

variable {η τ : Type*} [DecidableEq η] [LinearOrder τ]

/-- Whether the call is granted, and the lease after it. -/
def perform (l : Lease η τ) (c : Call η τ) : Bool × Lease η τ :=
  match c.op with
  | .claim h u => if l.expiry.any (c.now < ·) then (false, l) else (true, ⟨some h, some u⟩)
  | .renew h u => if l.holder = some h then (true, ⟨some h, some u⟩) else (false, l)
  | .release h => if l.holder = some h then (true, ⟨none, none⟩) else (false, l)

/-- The lease after a list of calls. -/
abbrev after (l : Lease η τ) (calls : List (Call η τ)) : Lease η τ :=
  Run.after (fun l c => (perform l c).2) l calls

/-- The time granted to `h` by a call, `u` where it grants none. -/
def grant (h : η) (u : τ) (l : Lease η τ) (c : Call η τ) : τ :=
  match c.op with
  | .claim h' u' | .renew h' u' => if h' = h ∧ (perform l c).1 = true then u' else u
  | .release _ => u

/-- The time last granted to `h`, from `u` on. -/
def lastGrant (h : η) : τ → Lease η τ → List (Call η τ) → τ
  | u, _, [] => u
  | u, l, c :: calls => lastGrant h (grant h u l c) (perform l c).2 calls

/-- A claim of `h` is granted. -/
def Claims (h : η) (l : Lease η τ) (c : Call η τ) : Prop :=
  (∃ u, c.op = .claim h u) ∧ (perform l c).1 = true

/-- No call of the list, each made where those before it lead, is one of `P`. -/
def Never (P : Lease η τ → Call η τ → Prop) : Lease η τ → List (Call η τ) → Prop :=
  Run.Obeys (fun l c => (perform l c).2) fun l c => ¬ P l c

variable {h : η} {l : Lease η τ} {u : τ} {calls : List (Call η τ)} {c : Call η τ}

theorem perform_claim {u' : τ} {h' : η} (hc : c.op = .claim h' u') :
    perform l c = if l.expiry.any (c.now < ·) then (false, l) else (true, ⟨some h', some u'⟩) := by
  rw [perform, hc]

theorem perform_renew {u' : τ} {h' : η} (hc : c.op = .renew h' u') :
    perform l c = if l.holder = some h' then (true, ⟨some h', some u'⟩) else (false, l) := by
  rw [perform, hc]

theorem perform_release {h' : η} (hc : c.op = .release h') :
    perform l c = if l.holder = some h' then (true, ⟨none, none⟩) else (false, l) := by
  rw [perform, hc]

/-- A granted claim found no lease that had not run out. -/
theorem Claims.lapsed (hc : Claims h l c) : ∀ u ∈ l.expiry, u ≤ c.now := by
  obtain ⟨⟨u', hop⟩, hgranted⟩ := hc
  rw [perform_claim hop] at hgranted
  split at hgranted
  · cases hgranted
  · next hlapsed =>
    intro u hu
    rw [Option.mem_def] at hu
    simpa [hu] using hlapsed

/-- And it holds the lease from then on. -/
theorem Claims.perform_eq (hc : Claims h l c) (hop : c.op = .claim h u) :
    perform l c = (true, ⟨some h, some u⟩) := by
  have hgranted := hc.2
  rw [perform_claim hop] at hgranted ⊢
  split at hgranted
  · cases hgranted
  · next hlapsed => rw [if_neg hlapsed]

theorem Claims.holds (hc : Claims h l c) : (perform l c).2.holder = some h := by
  obtain ⟨u', hop⟩ := hc.1
  rw [hc.perform_eq hop]

/-- What another claim is granted is nothing to `h`. -/
theorem grant_lost_of_claims {h' : η} (hne : h' ≠ h) (hc : Claims h' l c) : grant h u l c = u := by
  obtain ⟨⟨u', hop⟩, -⟩ := hc
  simp [grant, hop, hne]

/-- A holder another one followed is granted nothing without a claim of its own. -/
theorem perform_lost (hl : l.holder ≠ some h) (hc : ¬ Claims h l c) :
    (perform l c).2.holder ≠ some h ∧ (∀ u', c.op = .renew h u' → perform l c = (false, l)) ∧
      (c.op = .release h → perform l c = (false, l)) := by
  refine ⟨?_, fun u' hop => ?_, fun hop => ?_⟩
  · rcases hop : c.op with ⟨h', u'⟩ | ⟨h', u'⟩ | h'
    · have hne : (perform l c).1 = true → h' ≠ h := by
        rintro hgranted rfl
        exact hc ⟨⟨u', hop⟩, hgranted⟩
      rw [perform_claim hop] at hne ⊢
      split
      · exact hl
      · next hlapsed => simpa using hne (by rw [if_neg hlapsed])
    · rw [perform_renew hop]
      split
      · next hh => exact fun he => hl (hh.trans he)
      · exact hl
    · rw [perform_release hop]
      split
      · simp
      · exact hl
  · rw [perform_renew hop, if_neg hl]
  · rw [perform_release hop, if_neg hl]

theorem grant_lost (hl : l.holder ≠ some h) (hc : ¬ Claims h l c) : grant h u l c = u := by
  unfold grant
  rcases hop : c.op with ⟨h', u'⟩ | ⟨h', u'⟩ | h'
  · refine if_neg ?_
    rintro ⟨rfl, hgranted⟩
    exact hc ⟨⟨u', hop⟩, hgranted⟩
  · refine if_neg ?_
    rintro ⟨rfl, hgranted⟩
    rw [(perform_lost hl hc).2.1 u' hop] at hgranted
    cases hgranted
  · rfl

/-- And so it stays, over any calls. -/
theorem lost_after (hl : l.holder ≠ some h) (hcalls : Never (Claims h) l calls) :
    (l.after calls).holder ≠ some h ∧ lastGrant h u l calls = u := by
  induction calls generalizing l with
  | nil => exact ⟨hl, rfl⟩
  | cons c calls ih =>
    rw [lastGrant, grant_lost hl hcalls.1]
    exact ih (perform_lost hl hcalls.1).1 hcalls.2

/-- A call that neither releases the lease nor claims it for its holder finds it lapsed and takes
it over, or grants no claim and leaves the holder with the time last granted. -/
theorem perform_held (hc : ¬ Claims h ⟨some h, some u⟩ c) (hrelease : c.op ≠ .release h) :
    (∃ h', h' ≠ h ∧ Claims h' ⟨some h, some u⟩ c) ∨
      (∀ h', ¬ Claims h' ⟨some h, some u⟩ c) ∧
        (perform ⟨some h, some u⟩ c).2 = ⟨some h, some (grant h u ⟨some h, some u⟩ c)⟩ := by
  rcases hop : c.op with ⟨h', u'⟩ | ⟨h', u'⟩ | h'
  · by_cases hgranted : (perform ⟨some h, some u⟩ c).1 = true
    · refine .inl ⟨h', ?_, ⟨u', hop⟩, hgranted⟩
      rintro rfl
      exact hc ⟨⟨u', hop⟩, hgranted⟩
    · refine .inr ⟨fun _ hclaims => hgranted hclaims.2, ?_⟩
      have hheld := hgranted
      rw [perform_claim hop] at hheld ⊢
      split
      · simp [grant, hop, hgranted]
      · next hlapsed => simp [hlapsed] at hheld
  · refine .inr ⟨fun h'' hclaims => ?_, ?_⟩
    · obtain ⟨⟨u'', hop'⟩, -⟩ := hclaims
      cases hop.symm.trans hop'
    · by_cases hh : h = h'
      · subst hh
        simp [grant, perform, hop]
      · have hne : h' ≠ h := fun he => hh he.symm
        simp [grant, perform, hop, hh, hne]
  · have hne : h ≠ h' := by
      rintro rfl
      exact hrelease hop
    refine .inr ⟨fun h'' hclaims => ?_, ?_⟩
    · obtain ⟨⟨u'', hop'⟩, -⟩ := hclaims
      cases hop.symm.trans hop'
    · simp [grant, perform, hop, hne]

/-- Until the time last granted to its holder, a lease that was not released stands : no claim
is granted. -/
theorem stands_after {now : τ} (hcalls : Never (Claims h) ⟨some h, some u⟩ calls)
    (hrelease : ∀ c ∈ calls, c.op ≠ .release h) (hclock : ∀ c ∈ calls, c.now ≤ now)
    (hnow : now < lastGrant h u ⟨some h, some u⟩ calls) :
    Never (fun l c => ∃ h', Claims h' l c) ⟨some h, some u⟩ calls ∧
      after ⟨some h, some u⟩ calls = ⟨some h, some (lastGrant h u ⟨some h, some u⟩ calls)⟩ := by
  induction calls generalizing u with
  | nil => exact ⟨trivial, rfl⟩
  | cons c calls ih =>
    rw [lastGrant] at hnow ⊢
    obtain ⟨hc, hrest⟩ := hcalls
    rcases perform_held hc (hrelease c List.mem_cons_self) with ⟨h', hne, hclaims⟩ | ⟨hnone, hnext⟩
    · -- taken over : from here on `h` is granted nothing, and its time has passed
      have hlost : (perform ⟨some h, some u⟩ c).2.holder ≠ some h := by
        rw [hclaims.holds]
        exact fun he => hne (Option.some.inj he)
      rw [(lost_after hlost hrest).2, grant_lost_of_claims hne hclaims] at hnow
      have hpassed : u ≤ now := le_trans (hclaims.lapsed u rfl) (hclock c List.mem_cons_self)
      exact absurd hnow (not_lt_of_ge hpassed)
    · simp only [hnext] at hnow hrest ⊢
      obtain ⟨hnever, hafter⟩ := ih hrest (fun d hd => hrelease d (List.mem_cons_of_mem c hd))
        (fun d hd => hclock d (List.mem_cons_of_mem c hd)) hnow
      refine ⟨⟨fun ⟨h', hclaims⟩ => hnone h' hclaims, ?_⟩, ?_⟩
      · show Never _ (perform ⟨some h, some u⟩ c).2 calls
        rw [hnext]
        exact hnever
      · rw [after, Run.after_cons, hnext]
        exact hafter

end Lease

end Lynox
