import Mathlib.Logic.Basic

/-!
# Programs that stop between any two operations

A `Program` issues operations one after the other and goes on with each answer. It is
data, not an execution : a process that dies leaves a prefix of its operations performed
and nothing else, and a process entered again starts its program over.

`Guarded` is safety of a program under interference. A program sees a part of the state
through `view`; everything else may be changed by others before each of its operations.
Whatever they do there, every operation the program issues satisfies its guard `G` at what
it then sees, and a program that returns satisfies `Q`. A guard holds at every prefix, so
it holds whenever the process dies.

The rules follow the way a program is put together : `guarded_pure`, `Guarded.bind`,
`Guarded.mono`, and `Guarded.keeps` for what every operation keeps.
-/

namespace Lynox

universe u v

/-- A program over the operations `Op`, each answered in `Ans`. -/
inductive Program (Op : Type u) (Ans : Op → Type v) (α : Type v) : Type (max u v)
  /-- Nothing left to do. -/
  | done (a : α)
  /-- Issue `o` and go on with its answer. -/
  | step (o : Op) (k : Ans o → Program Op Ans α)

namespace Program

variable {Op : Type u} {Ans : Op → Type v}

/-- Run `p`, then `f` of what it returns. -/
def bind {α β : Type v} : Program Op Ans α → (α → Program Op Ans β) → Program Op Ans β
  | .done a, f => f a
  | .step o k, f => .step o fun x => (k x).bind f

instance : Monad (Program Op Ans) where
  pure := .done
  bind := Program.bind

/-- One operation, returning its answer. -/
def issue (o : Op) : Program Op Ans (Ans o) :=
  .step o .done

/-! ## Safety under interference -/

section Guarded

variable {σ γ ν : Type*} (perform : σ → (o : Op) → γ → Ans o × σ) (view : σ → ν)
  (G : ν → Op → Prop)

/-- Every operation `p` issues satisfies `G` at what is seen when it is issued, and what `p`
returns satisfies `Q`, whatever others do to the part of the state that is not seen. -/
def Guarded {α : Type v} (Q : α → ν → Prop) : Program Op Ans α → ν → Prop
  | .done a, s => Q a s
  | .step o k, s => G s o ∧ ∀ w c, view w = s →
      Guarded Q (k (perform w o c).1) (view (perform w o c).2)

variable {perform view G} {α β : Type v} {Q : α → ν → Prop} {s : ν}

theorem guarded_pure {a : α} : Guarded perform view G Q (pure a) s ↔ Q a s :=
  Iff.rfl

/-- A program and what follows it. -/
theorem Guarded.bind {Q' : β → ν → Prop} {f : α → Program Op Ans β} :
    ∀ {p : Program Op Ans α} {s : ν}, Guarded perform view G Q p s →
      (∀ a s', Q a s' → Guarded perform view G Q' (f a) s') →
        Guarded perform view G Q' (p >>= f) s
  | .done a, s, h, hf => hf a s h
  | .step _ _, _, h, hf => ⟨h.1, fun w c hw => (h.2 w c hw).bind hf⟩

theorem Guarded.mono {Q' : α → ν → Prop} (hQ : ∀ a s, Q a s → Q' a s) :
    ∀ {p : Program Op Ans α} {s : ν}, Guarded perform view G Q p s →
      Guarded perform view G Q' p s
  | .done a, s, h => hQ a s h
  | .step _ _, _, h => ⟨h.1, fun w c hw => (h.2 w c hw).mono hQ⟩

/-- What every operation keeps, a program keeps from where it starts to where it returns. -/
theorem Guarded.keeps {ρ : ν → ν → Prop} (hrefl : ∀ s, ρ s s)
    (htrans : ∀ s t u, ρ s t → ρ t u → ρ s u)
    (hstep : ∀ w o c, ρ (view w) (view (perform w o c).2)) :
    ∀ {p : Program Op Ans α} {s : ν}, Guarded perform view G Q p s →
      Guarded perform view G (fun a s' => Q a s' ∧ ρ s s') p s
  | .done _, s, h => ⟨h, hrefl s⟩
  | .step o _, s, h => ⟨h.1, fun w c hw => by
      have hs : ρ s (view (perform w o c).2) := hw ▸ hstep w o c
      exact ((h.2 w c hw).keeps hrefl htrans hstep).mono
        fun _ _ hq => ⟨hq.1, htrans _ _ _ hs hq.2⟩⟩

end Guarded

end Program

end Lynox
