import Mathlib.Data.List.Basic
import Mathlib.Logic.Relation

/-!
# Taking what nothing holds

Things are taken one after another, each with all that hangs on it, where nothing holds any of them. What
was taken holds nothing any more, so that one thing releases another. `gone` lists what was taken so far;
`held gone x` says that something which is left holds `x`. Two runs that can take nothing more have taken
the same (`Run.mem_iff`).
-/

namespace Lynox.Release

open Relation

variable {α : Type*} (hangs : α → α → Prop) (held : List α → α → Prop) (wanted : α → Prop)

/-- A thing is free where nothing that hangs on it and is left is held, itself included. -/
def Free (gone : List α) (x : α) : Prop :=
  ∀ y, ReflTransGen hangs x y → y ∉ gone → ¬ held gone y

/-- A wanted thing that is free is taken with all that hangs on it. -/
def Step (gone gone' : List α) : Prop :=
  ∃ x, wanted x ∧ x ∉ gone ∧ Free hangs held gone x ∧ ∀ y, y ∈ gone' ↔ y ∈ gone ∨ ReflTransGen hangs x y

/-- What may have been taken at some time. -/
def Run : List α → Prop :=
  ReflTransGen (Step hangs held wanted) []

/-- Nothing more can be taken. -/
def Stuck (gone : List α) : Prop :=
  ∀ x, wanted x → x ∉ gone → ¬ Free hangs held gone x

/-- What hangs on a thing that is gone is gone. -/
def Whole (gone : List α) : Prop :=
  ∀ x ∈ gone, ∀ y, hangs x y → y ∈ gone

variable {hangs held wanted} {gone gone' : List α} {x y : α}

theorem Whole.reach (h : Whole hangs gone) (hx : x ∈ gone) (hy : ReflTransGen hangs x y) : y ∈ gone := by
  induction hy with
  | refl => exact hx
  | tail _ hlast ih => exact h _ ih _ hlast

theorem Whole.step (h : Whole hangs gone) (hstep : Step hangs held wanted gone gone') :
    Whole hangs gone' := by
  obtain ⟨x, -, -, -, hmem⟩ := hstep
  intro y hy z hz
  rw [hmem] at hy ⊢
  exact hy.imp (fun hy => h y hy z hz) fun hy => hy.tail hz

theorem Run.whole (h : Run hangs held wanted gone) : Whole hangs gone := by
  induction h with
  | refl => exact fun _ hx => absurd hx List.not_mem_nil
  | tail _ hlast ih => exact ih.step hlast

/-- What was taken was not held when it was. -/
theorem Run.taken (h : Run hangs held wanted gone) (hy : y ∈ gone) :
    ∃ before, Run hangs held wanted before ∧ before ⊆ gone ∧ y ∉ before ∧ ¬ held before y := by
  induction h with
  | refl => exact absurd hy List.not_mem_nil
  | @tail before gone' hrun hlast ih =>
    have hsub : before ⊆ gone' := by
      obtain ⟨x, -, -, -, hmem⟩ := hlast
      exact fun z hz => (hmem z).2 (.inl hz)
    by_cases hbefore : y ∈ before
    · obtain ⟨b, hb, hsub', hnot, hheld⟩ := ih hbefore
      exact ⟨b, hb, List.Subset.trans hsub' hsub, hnot, hheld⟩
    · obtain ⟨x, -, -, hfree, hmem⟩ := hlast
      exact ⟨before, hrun, hsub, hbefore, hfree y (((hmem y).1 hy).resolve_left hbefore) hbefore⟩

section Monotone

variable (hmono : ∀ {gone gone' : List α} {y}, gone ⊆ gone' → y ∉ gone' → held gone' y → held gone y)
include hmono

theorem Free.mono (hsub : gone ⊆ gone') (h : Free hangs held gone x) : Free hangs held gone' x :=
  fun y hy hnot hheld => h y hy (fun hgone => hnot (hsub hgone)) (hmono hsub hnot hheld)

/-- A run takes nothing that one at its end has left. -/
theorem Run.subset (h : Run hangs held wanted gone) (h' : Run hangs held wanted gone')
    (hstuck : Stuck hangs held wanted gone') : gone ⊆ gone' := by
  induction h with
  | refl => exact List.nil_subset _
  | tail _ hlast ih =>
    obtain ⟨x, hwanted, -, hfree, hmem⟩ := hlast
    have hx : x ∈ gone' := by
      by_contra hleft
      exact hstuck x hwanted hleft (hfree.mono hmono ih)
    intro y hy
    exact ((hmem y).1 hy).elim (fun hy => ih hy) fun hy => h'.whole.reach hx hy

/-- Two runs at their ends have taken the same. -/
theorem Run.mem_iff (h : Run hangs held wanted gone) (hstuck : Stuck hangs held wanted gone)
    (h' : Run hangs held wanted gone') (hstuck' : Stuck hangs held wanted gone') : y ∈ gone ↔ y ∈ gone' :=
  ⟨fun hy => h.subset hmono h' hstuck' hy, fun hy => h'.subset hmono h hstuck hy⟩

end Monotone

end Lynox.Release
