import Lynox.Process.Program

/-!
# Programs that are careful whatever they are answered

`Careful G Q p` says that, whatever `p` is answered, every operation it issues satisfies `G` and
what it returns satisfies `Q`. Nothing is said of a state : what was read may have been changed
since, and what is read next may be anything. `CarefulOr` is the same for a program that may throw.

`stopped` performs a program as far as a list of choices goes, which is what a process that dies leaves.
What every operation that satisfies `G` keeps, a careful program keeps until it stops (`Careful.stopped`).
`performed` performs it to its end.
-/

namespace Lynox.Program

universe u v

variable {Op : Type u} {Ans : Op → Type v} {α β : Type v} {G : Op → Prop}

/-- Whatever the answers, each operation satisfies `G` and what is returned satisfies `Q`. -/
def Careful (G : Op → Prop) (Q : α → Prop) : Program Op Ans α → Prop
  | .done a => Q a
  | .step o k => G o ∧ ∀ a, Careful G Q (k a)

theorem Careful.bind {Q : α → Prop} {Q' : β → Prop} {f : α → Program Op Ans β} :
    ∀ {p : Program Op Ans α}, Careful G Q p → (∀ a, Q a → Careful G Q' (f a)) → Careful G Q' (p >>= f)
  | .done a, h, hf => hf a h
  | .step _ _, h, hf => ⟨h.1, fun a => (h.2 a).bind hf⟩

theorem Careful.mono {Q Q' : α → Prop} (hQ : ∀ a, Q a → Q' a) :
    ∀ {p : Program Op Ans α}, Careful G Q p → Careful G Q' p
  | .done a, h => hQ a h
  | .step _ _, h => ⟨h.1, fun a => (h.2 a).mono hQ⟩

theorem careful_issue {o : Op} (h : G o) : Careful G (fun _ => True) (issue o : Program Op Ans (Ans o)) :=
  ⟨h, fun _ => trivial⟩

/-! ## Programs that may throw -/

/-- A program that returns or throws. -/
def Throwing (Op : Type u) (Ans : Op → Type v) (ε α : Type v) : Type (max u v) :=
  Program Op Ans (Except ε α)

namespace Throwing

variable {ε : Type v}

/-- The program that returns `a`. -/
def ret (a : α) : Throwing Op Ans ε α :=
  Program.done (.ok a)

/-- The program that throws `e`. -/
def fail (e : ε) : Throwing Op Ans ε α :=
  Program.done (.error e)

/-- `p`, and then `f` of what it returns. -/
def andThen (p : Throwing Op Ans ε α) (f : α → Throwing Op Ans ε β) : Throwing Op Ans ε β :=
  Program.bind (α := Except ε α) p fun r =>
    match r with
    | .ok a => f a
    | .error e => fail e

instance : Monad (Throwing Op Ans ε) where
  pure := ret
  bind := andThen

/-- One operation, returning its answer. -/
def ask (o : Op) : Throwing Op Ans ε (Ans o) :=
  Program.step o ret

/-- `p`, and, where it throws, `cleanup` before it is thrown on. -/
def onThrow (p : Throwing Op Ans ε α) (cleanup : Program Op Ans PUnit) : Throwing Op Ans ε α :=
  Program.bind (α := Except ε α) p fun r =>
    match r with
    | .ok a => ret a
    | .error e => cleanup.bind fun _ => fail e

/-- The same where it returns, and nothing said of what is thrown. -/
def CarefulOr (G : Op → Prop) (Q : α → Prop) (p : Throwing Op Ans ε α) : Prop :=
  Careful G (fun r => ∀ a, r = .ok a → Q a) p

variable {Q : α → Prop} {Q' : β → Prop} {p : Throwing Op Ans ε α}

theorem carefulOr_pure {a : α} (h : Q a) : CarefulOr G Q (pure a : Throwing Op Ans ε α) := by
  intro b hb
  rwa [← Except.ok.inj hb]

theorem carefulOr_fail {e : ε} : CarefulOr G Q (fail e : Throwing Op Ans ε α) :=
  fun _ hb => nomatch hb

theorem carefulOr_ask {o : Op} (h : G o) :
    CarefulOr G (fun _ => True) (ask o : Throwing Op Ans ε (Ans o)) :=
  ⟨h, fun _ _ _ => trivial⟩

theorem CarefulOr.bind {f : α → Throwing Op Ans ε β} (hp : CarefulOr G Q p)
    (hf : ∀ a, Q a → CarefulOr G Q' (f a)) : CarefulOr G Q' (p >>= f) := by
  refine Careful.bind (α := Except ε α) hp fun r hr => ?_
  cases r with
  | error e => exact carefulOr_fail
  | ok a => exact hf a (hr a rfl)

theorem CarefulOr.onThrow {cleanup : Program Op Ans PUnit} (hp : CarefulOr G Q p)
    (hc : Careful G (fun _ => True) cleanup) : CarefulOr G Q (onThrow p cleanup) := by
  refine Careful.bind (α := Except ε α) hp fun r hr => ?_
  cases r with
  | error e => exact Careful.bind hc fun _ _ => carefulOr_fail
  | ok a => exact carefulOr_pure (hr a rfl)

theorem CarefulOr.mono {R : α → Prop} (hQ : ∀ a, Q a → R a) (hp : CarefulOr G Q p) : CarefulOr G R p :=
  Careful.mono (fun _ hr a ha => hQ a (hr a ha)) hp

end Throwing

/-! ## As far as the choices go -/

section Stopped

variable {σ γ : Type*} (perform : σ → (o : Op) → γ → Ans o × σ)

/-- What is left to do after as many operations as there are choices, and the state. -/
def stopped : List γ → Program Op Ans α → σ → Program Op Ans α × σ
  | [], p, s => (p, s)
  | _ :: _, .done a, s => (.done a, s)
  | c :: cs, .step o k, s => stopped cs (k (perform s o c).1) (perform s o c).2

variable {perform} {Q : α → Prop} {s : σ}

/-- What every operation that satisfies `G` keeps, a careful program keeps until it stops. -/
theorem Careful.stopped {I : σ → Prop} (hperform : ∀ s o c, I s → G o → I (perform s o c).2) :
    ∀ {choices : List γ} {p : Program Op Ans α} {s : σ}, Careful G Q p → I s →
      I (stopped perform choices p s).2
  | [], _, _, _, hI => hI
  | _ :: _, .done _, _, _, hI => hI
  | c :: _, .step o _, s, h, hI => (h.2 (perform s o c).1).stopped hperform (hperform s o c hI h.1)

variable (perform) in
/-- Performed to its end, every operation with the same choice. -/
def performed (c : γ) : Program Op Ans α → σ → α × σ
  | .done a, s => (a, s)
  | .step o k, s => performed c (k (perform s o c).1) (perform s o c).2

variable (perform) in
theorem performed_bind (c : γ) (f : α → Program Op Ans β) : ∀ (p : Program Op Ans α) (s : σ),
    performed perform c (p >>= f) s = performed perform c (f (performed perform c p s).1)
      (performed perform c p s).2
  | .done _, _ => rfl
  | .step _ k, _ => performed_bind c f (k _) _

variable (perform) in
/-- The end of a program is reached by some choices. -/
theorem exists_stopped (c : γ) : ∀ (p : Program Op Ans α) (s : σ), ∃ choices,
    Program.stopped perform choices p s = (.done (performed perform c p s).1, (performed perform c p s).2)
  | .done a, s => ⟨[], rfl⟩
  | .step o k, s => by
    obtain ⟨choices, h⟩ := exists_stopped c (k (perform s o c).1) (perform s o c).2
    exact ⟨c :: choices, h⟩

namespace Throwing

variable {ε : Type v} {c : γ} {p : Throwing Op Ans ε α} {f : α → Throwing Op Ans ε β} {t : σ}

variable (perform) (ε) (c) in
theorem performed_ask (o : Op) (s : σ) : performed perform c (ask o : Throwing Op Ans ε (Ans o)) s =
    (.ok (perform s o c).1, (perform s o c).2) := rfl

/-- A program that returns, and what follows it. -/
theorem performed_bind_ok {a : α} (h : performed perform c p s = (.ok a, t)) :
    performed perform c (p >>= f : Throwing Op Ans ε β) s = performed perform c (f a) t := by
  have hbind := performed_bind perform c (fun r : Except ε α => match r with
    | .ok a => f a
    | .error e => fail e) p s
  rw [h] at hbind
  exact hbind

theorem performed_onThrow_ok {a : α} {cleanup : Program Op Ans PUnit}
    (h : performed perform c p s = (.ok a, t)) :
    performed perform c (onThrow p cleanup : Throwing Op Ans ε α) s = (.ok a, t) := by
  have hbind := performed_bind perform c (fun r : Except ε α => match r with
    | .ok a => ret a
    | .error e => cleanup.bind fun _ => fail e) p s
  rw [h] at hbind
  exact hbind

end Throwing

end Stopped

end Lynox.Program
