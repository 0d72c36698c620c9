import Mathlib.Logic.Basic

/-!
# Runs of a machine

A machine takes one event at a time; a run is the fold of its step over a list of events.
`Allowed` says which events may happen in which state, and `Run.Obeys` that every event of
a run was allowed where it happened. What one allowed step keeps, a run that obeys keeps
(`Run.invariant`), and a relation that every step keeps to its start, from every state that
satisfies an invariant, the run keeps (`Run.relates`).
-/

namespace Lynox.Run

variable {σ ε : Type*} (step : σ → ε → σ) (Allowed : σ → ε → Prop)

/-- The state after the events. -/
def after (s : σ) (events : List ε) : σ :=
  events.foldl step s

@[simp] theorem after_nil (s : σ) : after step s [] = s :=
  rfl

@[simp] theorem after_cons (s : σ) (e : ε) (events : List ε) :
    after step s (e :: events) = after step (step s e) events :=
  rfl

theorem after_append (s : σ) (events events' : List ε) :
    after step s (events ++ events') = after step (after step s events) events' :=
  List.foldl_append

/-- Every event was allowed where it happened. -/
def Obeys : σ → List ε → Prop
  | _, [] => True
  | s, e :: events => Allowed s e ∧ Obeys (step s e) events

instance decidableObeys [∀ s e, Decidable (Allowed s e)] :
    ∀ (s : σ) (events : List ε), Decidable (Obeys step Allowed s events)
  | _, [] => .isTrue trivial
  | s, e :: events =>
    have := decidableObeys (step s e) events
    inferInstanceAs (Decidable (_ ∧ _))

variable {step Allowed}

theorem obeys_append {s : σ} {events events' : List ε} :
    Obeys step Allowed s (events ++ events') ↔
      Obeys step Allowed s events ∧ Obeys step Allowed (after step s events) events' := by
  induction events generalizing s with
  | nil => simp [Obeys]
  | cons e events ih => simp [Obeys, ih, and_assoc]

/-- Events that are allowed wherever they happen. -/
theorem obeys_of_forall {events : List ε} (h : ∀ e ∈ events, ∀ s, Allowed s e) (s : σ) :
    Obeys step Allowed s events := by
  induction events generalizing s with
  | nil => trivial
  | cons e events ih =>
    exact ⟨h e List.mem_cons_self s, ih (fun e' he' => h e' (List.mem_cons_of_mem e he')) (step s e)⟩

/-- What an allowed step keeps, a run keeps. -/
theorem invariant_of {I : σ → Prop} (hstep : ∀ s e, I s → Allowed s e → I (step s e))
    {events : List ε} {s : σ} (hs : I s) (ho : Obeys step Allowed s events) :
    I (after step s events) := by
  induction events generalizing s with
  | nil => exact hs
  | cons e events ih => exact ih (hstep s e hs ho.1) ho.2

/-- What every step keeps, a run keeps. -/
theorem invariant {I : σ → Prop} (hstep : ∀ s e, I s → I (step s e)) {events : List ε} {s : σ}
    (hs : I s) : I (after step s events) := by
  induction events generalizing s with
  | nil => exact hs
  | cons e events ih => exact ih (hstep s e hs)

/-- What every step from a state of `I` keeps to where it started, a run keeps. -/
theorem relates {I : σ → Prop} {R : σ → σ → Prop} (hrefl : ∀ s, R s s)
    (htrans : ∀ s t u, R s t → R t u → R s u)
    (hstep : ∀ s e, I s → I (step s e) ∧ R s (step s e)) {events : List ε} {s : σ} (hs : I s) :
    R s (after step s events) := by
  induction events generalizing s with
  | nil => exact hrefl s
  | cons e events ih => exact htrans _ _ _ (hstep s e hs).2 (ih (hstep s e hs).1)

end Lynox.Run
