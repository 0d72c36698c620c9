import Mathlib.Logic.Relation
import Mathlib.Logic.Function.Iterate

/-!
# Forests by their parents

A forest is a function that gives each node its parent, if it has one, under a rank that falls
along it. Two nodes are of one tree when any chain of parents and children links them; the root
of a node is where its parents end, and nodes of one tree have the same roots
(`SameTree.isRootOf_iff`).

Walking down from a root one generation at a time reaches every node of the tree after as many
rounds as its rank (`mem_iterate`).
-/

namespace Lynox.Forest

open Relation

variable {α : Type*} {up up' : α → Option α}

/-- Linked by parents and children, to any depth. -/
def SameTree (up : α → Option α) : α → α → Prop :=
  EqvGen fun a b => up a = some b

/-- The end of the parents of `a`. -/
def IsRootOf (up : α → Option α) (r a : α) : Prop :=
  ReflTransGen (fun a b => up a = some b) a r ∧ up r = none

theorem isRootOf_parent {r a b : α} (h : up a = some b) : IsRootOf up r a ↔ IsRootOf up r b := by
  constructor
  · rintro ⟨hpath, hroot⟩
    rcases hpath.cases_head with rfl | ⟨c, hc, hpath⟩
    · rw [h] at hroot
      cases hroot
    · obtain rfl : c = b := Option.some.inj (hc.symm.trans h)
      exact ⟨hpath, hroot⟩
  · rintro ⟨hpath, hroot⟩
    exact ⟨hpath.head h, hroot⟩

/-- Nodes of one tree have the same roots. -/
theorem SameTree.isRootOf_iff {r a b : α} (h : SameTree up a b) :
    IsRootOf up r a ↔ IsRootOf up r b := by
  induction h with
  | rel a b h => exact isRootOf_parent h
  | refl a => exact Iff.rfl
  | symm a b _ ih => exact ih.symm
  | trans a b c _ _ ih ih' => exact ih.trans ih'

/-- A map that sends links to trees sends trees to trees. -/
theorem SameTree.map {f : α → α} (hf : ∀ a b, up' a = some b → SameTree up (f a) (f b)) {a b : α}
    (h : SameTree up' a b) : SameTree up (f a) (f b) := by
  induction h with
  | rel a b h => exact hf a b h
  | refl a => exact .refl _
  | symm a b _ ih => exact ih.symm
  | trans a b c _ _ ih ih' => exact ih.trans _ _ _ ih'

variable {grow : List α → List α} {rank : α → ℕ}

theorem subset_iterate (hext : ∀ ids, ids ⊆ grow ids) {m n : ℕ} (h : m ≤ n) (ids : List α) :
    grow^[m] ids ⊆ grow^[n] ids := by
  induction h with
  | refl => exact fun _ ha => ha
  | step _ ih =>
    rw [Function.iterate_succ_apply']
    exact fun a ha => hext _ (ih ha)

/-- What takes in the children of its nodes reaches a node after as many rounds as its rank. -/
theorem mem_iterate (hrank : ∀ a b, up a = some b → rank b < rank a)
    (hext : ∀ ids, ids ⊆ grow ids)
    (hgrow : ∀ ids a b, a ∈ ids → up b = some a → b ∈ grow ids) {a r : α}
    (h : ReflTransGen (fun a b => up a = some b) a r) : a ∈ grow^[rank a] [r] := by
  induction h using ReflTransGen.head_induction_on with
  | refl => exact subset_iterate hext (Nat.zero_le _) _ (List.mem_singleton_self r)
  | @head a b hab _ ih =>
    have hnext : a ∈ grow^[rank b + 1] [r] := by
      rw [Function.iterate_succ_apply']
      exact hgrow _ b a ih hab
    exact subset_iterate hext (hrank a b hab) _ hnext

end Lynox.Forest
