import Lynox.Process.Program
import Lynox.Process.Run
import Mathlib.Logic.Function.Basic

/-!
# Many processes at once

A `Crowd` runs programs of any number of processes over one state. What happens next is that a
process enters its program, performs its next operation or dies, or a step of others. Between two
operations of one process anything may be done by the rest.

`R p` says what a process `p` relies on : how the state may change while `p` does nothing.
`Program.Ensured` is safety of a program under it : every operation satisfies its guard where it is
issued, whatever was made of the state along `R p` before. `Crowd.Sound` lists what keeps an
invariant : the programs are ensured, guarded operations keep the invariant, and each is one of
those every other process puts up with. `Crowd.Sound.run` concludes that the invariant holds in
every configuration reached, and `Crowd.Sound.relates` that what every operation keeps between the
state before and after it, a run keeps.
-/

namespace Lynox

universe u v

variable {Op : Type u} {Ans : Op → Type v} {α β : Type v}

namespace Program

section Ensured

variable {σ γ : Type*} (perform : σ → (o : Op) → γ → Ans o × σ) (I : σ → Prop) (R : σ → σ → Prop)
  (G : σ → Op → Prop)

/-- Every operation `p` issues satisfies `G` where it is issued, whatever was made of the state along
`R` within `I`, and what `p` returns satisfies `Q`. -/
def Ensured (Q : α → σ → Prop) : Program Op Ans α → σ → Prop
  | .done a, s => Q a s
  | .step o k, s => ∀ s', R s s' → I s' → G s' o ∧
      ∀ c, Ensured Q (k (perform s' o c).1) (perform s' o c).2

variable {perform I R G} {Q : α → σ → Prop} {s : σ}

theorem Ensured.bind {Q' : β → σ → Prop} {f : α → Program Op Ans β} :
    ∀ {p : Program Op Ans α} {s : σ}, Ensured perform I R G Q p s →
      (∀ a s', Q a s' → Ensured perform I R G Q' (f a) s') → Ensured perform I R G Q' (p >>= f) s
  | .done a, s, h, hf => hf a s h
  | .step _ _, _, h, hf => fun s' hs' hI =>
      ⟨(h s' hs' hI).1, fun c => ((h s' hs' hI).2 c).bind hf⟩

/-- A program stays ensured while others go on. -/
theorem Ensured.others (htrans : ∀ s t u, R s t → R t u → R s u) (hQ : ∀ a s s', Q a s → R s s' → Q a s')
    {s' : σ} (hs : R s s') :
    ∀ {p : Program Op Ans α}, Ensured perform I R G Q p s → Ensured perform I R G Q p s'
  | .done a, h => hQ a s s' h hs
  | .step _ _, h => fun t ht hI => h t (htrans _ _ _ hs ht) hI

end Ensured

/-- One program after the other, for each of a list. -/
def forEach {ι : Type*} (f : ι → Program Op Ans PUnit) : List ι → Program Op Ans PUnit
  | [] => .done ⟨⟩
  | i :: is => f i >>= fun _ => forEach f is

theorem ensured_forEach {σ γ ι : Type*} {perform : σ → (o : Op) → γ → Ans o × σ} {I : σ → Prop}
    {R : σ → σ → Prop} {G : σ → Op → Prop} {K : σ → Prop} {f : ι → Program Op Ans PUnit} :
    ∀ {is : List ι}, (∀ i ∈ is, ∀ s, K s → Ensured perform I R G (fun _ s => K s) (f i) s) →
      ∀ s, K s → Ensured perform I R G (fun _ s => K s) (forEach f is) s
  | [], _, _, hs => hs
  | i :: _, h, s, hs => (h i List.mem_cons_self s hs).bind fun _ s' hs' =>
      ensured_forEach (fun j hj => h j (List.mem_cons_of_mem i hj)) s' hs'

end Program

/-! ## Processes -/

/-- Programs of the processes `π` over a state `σ`, with the choices `γ` of their surroundings and
the steps `ε` of others. -/
structure Crowd (Op : Type u) (Ans : Op → Type v) (σ γ ε π : Type*) (α : Type v) where
  perform : π → σ → (o : Op) → γ → Ans o × σ
  program : π → Program Op Ans α
  outside : ε → σ → σ

/-- A state, and what each process has still to do. -/
structure Crowd.Config (Op : Type u) (Ans : Op → Type v) (σ π : Type*) (α : Type v) where
  state : σ
  live : π → Option (Program Op Ans α)

/-- What happens next. -/
inductive Crowd.Action (γ ε π : Type*)
  | enter (p : π)
  | advance (p : π) (c : γ)
  | die (p : π)
  | outside (e : ε)

namespace Crowd

variable {σ γ ε π : Type*} [DecidableEq π] (C : Crowd Op Ans σ γ ε π α)

/-- One action. An action that is not enabled does nothing. -/
def step (x : Config Op Ans σ π α) : Action γ ε π → Config Op Ans σ π α
  | .enter p =>
    match x.live p with
    | none => { x with live := Function.update x.live p (some (C.program p)) }
    | some _ => x
  | .advance p c =>
    match x.live p with
    | none => x
    | some (.done _) => { x with live := Function.update x.live p none }
    | some (.step o k) =>
      ⟨(C.perform p x.state o c).2, Function.update x.live p (some (k (C.perform p x.state o c).1))⟩
  | .die p => { x with live := Function.update x.live p none }
  | .outside e => { x with state := C.outside e x.state }

/-- A state no process works on. -/
def idle (s : σ) : Config Op Ans σ π α :=
  ⟨s, fun _ => none⟩

/-- What keeps `I`, where every process relies on `R` and guards its operations by `G`. -/
structure Sound (I : σ → Prop) (R : π → σ → σ → Prop) (G : π → σ → Op → Prop)
    (Allowed : σ → ε → Prop) : Prop where
  refl : ∀ p s, R p s s
  trans : ∀ p s t u, R p s t → R p t u → R p s u
  program : ∀ p s, I s → Program.Ensured (C.perform p) I (R p) (G p) (fun _ _ => True) (C.program p) s
  perform : ∀ p s o c, I s → G p s o → I (C.perform p s o c).2
  others : ∀ p q s o c, q ≠ p → I s → G p s o → R q s (C.perform p s o c).2
  outside : ∀ e s, Allowed s e → I s → I (C.outside e s)
  unmoved : ∀ e s q, Allowed s e → I s → R q s (C.outside e s)

namespace Sound

variable {C} {I : σ → Prop} {R : π → σ → σ → Prop} {G : π → σ → Op → Prop} {Allowed : σ → ε → Prop}

/-- `I` holds and what every process has still to do is ensured. -/
def Safe (C : Crowd Op Ans σ γ ε π α) (I : σ → Prop) (R : π → σ → σ → Prop) (G : π → σ → Op → Prop)
    (x : Config Op Ans σ π α) : Prop :=
  I x.state ∧ ∀ p t, x.live p = some t →
    Program.Ensured (C.perform p) I (R p) (G p) (fun _ _ => True) t x.state

/-- The steps of others that are allowed. -/
def ActionAllowed (Allowed : σ → ε → Prop) (x : Config Op Ans σ π α) : Action γ ε π → Prop
  | .outside e => Allowed x.state e
  | _ => True

theorem live_update {live : π → Option (Program Op Ans α)} {p q : π} {t' : Option (Program Op Ans α)}
    {t : Program Op Ans α} (h : Function.update live p t' q = some t) :
    q = p ∧ t' = some t ∨ q ≠ p ∧ live q = some t := by
  by_cases hq : q = p
  · rw [hq, Function.update_self] at h
    exact Or.inl ⟨hq, h⟩
  · rw [Function.update_of_ne hq] at h
    exact Or.inr ⟨hq, h⟩

theorem safe_step (h : C.Sound I R G Allowed) {x : Config Op Ans σ π α} {a : Action γ ε π}
    (hx : Safe C I R G x) (ha : ActionAllowed Allowed x a) : Safe C I R G (C.step x a) := by
  obtain ⟨hI, hlive⟩ := hx
  cases a with
  | enter p =>
    unfold Crowd.step
    simp only
    split
    · refine ⟨hI, fun q t ht => ?_⟩
      rcases live_update ht with ⟨rfl, ht⟩ | ⟨-, ht⟩
      · rw [← Option.some.inj ht]
        exact h.program q x.state hI
      · exact hlive q t ht
    · exact ⟨hI, hlive⟩
  | advance p c =>
    unfold Crowd.step
    simp only
    split
    · exact ⟨hI, hlive⟩
    · refine ⟨hI, fun q t ht => ?_⟩
      rcases live_update ht with ⟨-, ht⟩ | ⟨-, ht⟩
      · exact absurd ht (by simp)
      · exact hlive q t ht
    · rename_i o k hp
      obtain ⟨hG, hk⟩ := hlive p _ hp x.state (h.refl p x.state) hI
      refine ⟨h.perform p x.state o c hI hG, fun q t ht => ?_⟩
      rcases live_update ht with ⟨rfl, ht⟩ | ⟨hq, ht⟩
      · rw [← Option.some.inj ht]
        exact hk c
      · exact (hlive q t ht).others (h.trans q) (fun _ _ _ _ _ => trivial)
          (h.others p q x.state o c hq hI hG)
  | die p =>
    refine ⟨hI, fun q t ht => ?_⟩
    rcases live_update ht with ⟨-, ht⟩ | ⟨-, ht⟩
    · exact absurd ht (by simp)
    · exact hlive q t ht
  | outside e =>
    refine ⟨h.outside e x.state ha hI, fun q t ht => ?_⟩
    exact (hlive q t ht).others (h.trans q) (fun _ _ _ _ _ => trivial) (h.unmoved e x.state q ha hI)

/-- Every configuration reached from a state of `I` satisfies it. -/
theorem run (h : C.Sound I R G Allowed) {s : σ} (hs : I s) {actions : List (Action γ ε π)}
    (ho : Run.Obeys C.step (ActionAllowed Allowed) (idle s) actions) :
    Safe C I R G (Run.after C.step (idle s) actions) :=
  Run.invariant_of (fun _ _ hx ha => h.safe_step hx ha)
    ⟨hs, fun _ _ ht => absurd ht (by simp [idle])⟩ ho

/-- What one action does to the state. -/
theorem relates_step (h : C.Sound I R G Allowed) {ρ : σ → σ → Prop} (hrefl : ∀ s, ρ s s)
    (hperform : ∀ p s o c, I s → G p s o → ρ s (C.perform p s o c).2)
    (houtside : ∀ e s, Allowed s e → I s → ρ s (C.outside e s))
    {x : Config Op Ans σ π α} {a : Action γ ε π} (hx : Safe C I R G x) (ha : ActionAllowed Allowed x a) :
    ρ x.state (C.step x a).state := by
  cases a with
  | enter p =>
    unfold Crowd.step
    simp only
    split <;> exact hrefl x.state
  | advance p c =>
    unfold Crowd.step
    simp only
    split
    · exact hrefl x.state
    · exact hrefl x.state
    · rename_i o k hp
      exact hperform p x.state o c hx.1 (hx.2 p _ hp x.state (h.refl p x.state) hx.1).1
  | die p => exact hrefl x.state
  | outside e => exact houtside e x.state ha hx.1

/-- A relation of states that operations and steps of others keep holds from the start of a run to
its end. -/
theorem relates (h : C.Sound I R G Allowed) {ρ : σ → σ → Prop} (hrefl : ∀ s, ρ s s)
    (htrans : ∀ s t u, ρ s t → ρ t u → ρ s u)
    (hperform : ∀ p s o c, I s → G p s o → ρ s (C.perform p s o c).2)
    (houtside : ∀ e s, Allowed s e → I s → ρ s (C.outside e s))
    {x : Config Op Ans σ π α} (hx : Safe C I R G x) {actions : List (Action γ ε π)}
    (ho : Run.Obeys C.step (ActionAllowed Allowed) x actions) :
    ρ x.state (Run.after C.step x actions).state := by
  induction actions generalizing x with
  | nil => exact hrefl x.state
  | cons a actions ih =>
    exact htrans _ _ _ (h.relates_step hrefl hperform houtside hx ho.1) (ih (h.safe_step hx ho.1) ho.2)

end Sound

end Crowd

end Lynox

/-!
## A program performed alone

`Performs p s a s'` says that `p`, performed from `s` with nothing between its operations, can return
`a` in `s'` : the choices of its surroundings are allowed by `ok`, and every operation leaves the state
as `same` asks. The rules follow the way a program is put together (`performs_bind`,
`performs_forEach`), and `performAll` performs it with one choice throughout.
-/

namespace Lynox.Program

universe u v

variable {Op : Type u} {Ans : Op → Type v} {α β : Type v} {σ γ : Type*}
  (perform : σ → (o : Op) → γ → Ans o × σ) (ok : γ → Prop) (same : σ → σ → Prop)

/-- Performed alone, the program can return `a` in `s'`. -/
def Performs : Program Op Ans α → σ → α → σ → Prop
  | .done b, s, a, s' => b = a ∧ s = s'
  | .step o k, s, a, s' => ∃ c, ok c ∧ same s (perform s o c).2 ∧
      Performs (k (perform s o c).1) (perform s o c).2 a s'

variable {perform ok same} {s s' : σ}

theorem performs_bind {f : α → Program Op Ans β} {b : β} :
    ∀ {p : Program Op Ans α} {s : σ}, Performs perform ok same (p >>= f) s b s' ↔
      ∃ a t, Performs perform ok same p s a t ∧ Performs perform ok same (f a) t b s'
  | .done a, s => by
    constructor
    · exact fun h => ⟨a, s, ⟨rfl, rfl⟩, h⟩
    · rintro ⟨a', t, ⟨rfl, rfl⟩, h⟩
      exact h
  | .step o k, s => by
    constructor
    · rintro ⟨c, hc, hs, h⟩
      obtain ⟨a, t, hp, hf⟩ := performs_bind.mp h
      exact ⟨a, t, ⟨c, hc, hs, hp⟩, hf⟩
    · rintro ⟨a, t, ⟨c, hc, hs, hp⟩, hf⟩
      exact ⟨c, hc, hs, performs_bind.mpr ⟨a, t, hp, hf⟩⟩

/-- What each program of a list keeps, and what each tells of the states it is performed in. -/
theorem performs_forEach {ι : Type*} {f : ι → Program Op Ans PUnit} {K : σ → Prop} {T : ι → Prop} :
    ∀ {is : List ι} {s : σ}, (∀ i ∈ is, ∀ t t' u, K t → Performs perform ok same (f i) t u t' →
      K t' ∧ T i) → K s → ∀ {u}, Performs perform ok same (forEach f is) s u s' → K s' ∧ ∀ i ∈ is, T i
  | [], _, _, hK, _, h => by
    obtain ⟨-, rfl⟩ := h
    exact ⟨hK, fun _ hi => absurd hi List.not_mem_nil⟩
  | i :: is, s, hf, hK, u, h => by
    obtain ⟨u', t, hi, his⟩ := performs_bind.mp h
    obtain ⟨hKt, hT⟩ := hf i List.mem_cons_self s t u' hK hi
    obtain ⟨hKs', hTs⟩ := performs_forEach (fun j hj => hf j (List.mem_cons_of_mem i hj)) hKt his
    refine ⟨hKs', fun j hj => ?_⟩
    rcases List.mem_cons.mp hj with rfl | hj
    · exact hT
    · exact hTs j hj

variable (perform) (same)

/-- The program performed with one choice : whether every operation leaves the state as `same` asks,
and what it comes to. -/
def performAll [DecidableRel same] (c : γ) : Program Op Ans α → σ → Bool × α × σ
  | .done a, s => (true, a, s)
  | .step o k, s =>
    let out := performAll c (k (perform s o c).1) (perform s o c).2
    (decide (same s (perform s o c).2) && out.1, out.2)

variable {perform} {same}

theorem performs_performAll [DecidableRel same] {c : γ} (hc : ok c) :
    ∀ {p : Program Op Ans α} {s : σ}, (performAll perform same c p s).1 = true →
      Performs perform ok same p s (performAll perform same c p s).2.1 (performAll perform same c p s).2.2
  | .done _, _, _ => ⟨rfl, rfl⟩
  | .step _ _, _, h => by
    obtain ⟨hs, hrest⟩ := (Bool.and_eq_true _ _).mp h
    exact ⟨c, hc, of_decide_eq_true hs, performs_performAll hc hrest⟩

end Lynox.Program
