import Mathlib.Logic.Basic

/-!
# Computations with a state that may throw

What a throwing computation did to the state stays done. `Ends m Q E s` : started in `s`, the computation `m`
either returns, with `Q` of what it returns and the state then, or throws, with `E`. The rules are
equivalences, one for each way a computation is put together, so that a whole computation is worked out from
its end. A `step` is one operation, which does nothing where it fails.
-/

namespace Lynox

universe u

variable {σ ε : Type*} {α β : Type u}

/-- From a state to a result or an error, and the next state. -/
def Stateful (σ ε : Type*) (α : Type u) : Type _ :=
  σ → Except ε α × σ

namespace Stateful

def andThen (m : Stateful σ ε α) (f : α → Stateful σ ε β) : Stateful σ ε β := fun s =>
  match m s with
  | (.ok a, s) => f a s
  | (.error e, s) => (.error e, s)

instance : Monad (Stateful σ ε) where
  pure a s := (.ok a, s)
  bind := andThen

def fail (e : ε) : Stateful σ ε α := fun s => (.error e, s)

/-- Go on with the error. -/
def rescue (m : Stateful σ ε α) (handler : ε → Stateful σ ε α) : Stateful σ ε α := fun s =>
  match m s with
  | (.ok a, s) => (.ok a, s)
  | (.error e, s) => handler e s

def state : Stateful σ ε σ := fun s => (.ok s, s)

def update (f : σ → σ) : Stateful σ ε PUnit := fun s => (.ok ⟨⟩, f s)

/-- An operation that fails with the error there is. -/
def step (fault : Option ε) (f : σ → σ) : Stateful σ ε PUnit := fun s =>
  match fault with
  | none => (.ok ⟨⟩, f s)
  | some e => (.error e, s)

/-- What an operation throws is dropped. -/
def attempt (m : Stateful σ ε PUnit) : Stateful σ ε PUnit :=
  m.rescue fun _ => pure ⟨⟩

/-- Whether it returns or throws, and in which state. -/
def Ends (m : Stateful σ ε α) (Q : α → σ → Prop) (E : ε → σ → Prop) (s : σ) : Prop :=
  match m s with
  | (.ok a, s) => Q a s
  | (.error e, s) => E e s

variable {m : Stateful σ ε α} {Q Q' : α → σ → Prop} {E E' : ε → σ → Prop} {s : σ}

@[simp] theorem ends_bind {f : α → Stateful σ ε β} {Q : β → σ → Prop} :
    Ends (m >>= f) Q E s ↔ Ends m (fun a => Ends (f a) Q E) E s := by
  change Ends (andThen m f) Q E s ↔ _
  unfold Ends andThen
  rcases m s with ⟨_ | _, _⟩ <;> rfl

@[simp] theorem ends_rescue {handler : ε → Stateful σ ε α} :
    Ends (m.rescue handler) Q E s ↔ Ends m Q (fun e => Ends (handler e) Q E) s := by
  unfold Ends rescue
  rcases m s with ⟨_ | _, _⟩ <;> rfl

@[simp] theorem ends_state {Q : σ → σ → Prop} : Ends (state : Stateful σ ε σ) Q E s ↔ Q s s :=
  Iff.rfl

@[simp] theorem ends_update {f : σ → σ} {Q : PUnit → σ → Prop} :
    Ends (update f) Q E s ↔ Q ⟨⟩ (f s) :=
  Iff.rfl

@[simp] theorem ends_step {fault : Option ε} {f : σ → σ} {Q : PUnit → σ → Prop} :
    Ends (step fault f) Q E s ↔ (fault = none → Q ⟨⟩ (f s)) ∧ ∀ e, fault = some e → E e s := by
  cases fault with
  | none => exact ⟨fun h => ⟨fun _ => h, fun _ h => nomatch h⟩, fun h => h.1 rfl⟩
  | some e => exact ⟨fun h => ⟨fun h => (nomatch h), fun _ he => Option.some.inj he ▸ h⟩, fun h => h.2 e rfl⟩

theorem Ends.mono (hQ : ∀ a s, Q a s → Q' a s) (hE : ∀ e s, E e s → E' e s) (h : Ends m Q E s) :
    Ends m Q' E' s := by
  unfold Ends at h ⊢
  revert h
  rcases m s with ⟨_ | _, _⟩
  · exact hE _ _
  · exact hQ _ _

end Stateful

end Lynox
