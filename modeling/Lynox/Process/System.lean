import Lynox.Process.Program

/-!
# One process at a time

A `System` runs the programs of `ρ` over a shared state, one at a time. A history is a
list of actions : entering a program while none is live, performing its next operation
with a choice `c` of its surroundings, its death between two operations, and a step of
others. Every action is a function of the configuration, so a history evaluates.

`System.Obeys` restricts a history action by action. `System.Sound` lists what keeps a
property `I` of the state over the histories that obey `Allowed` : the programs are
guarded, and guarded operations, entries, deaths, returns and outside steps keep `I`.
`System.Sound.run` concludes that every configuration reached satisfies `I`, and
`System.Sound.guard` that the operation a live program issues next satisfies its guard.
-/

namespace Lynox

universe u v

/-- Programs named by `ρ` over a state `σ`, with the choices `γ` of their surroundings
and the steps `ε` of others. -/
structure System (Op : Type u) (Ans : Op → Type v) (σ γ ε ρ : Type*) (α : Type v) where
  /-- What one operation answers and does to the state. -/
  perform : σ → (o : Op) → γ → Ans o × σ
  program : ρ → Program Op Ans α
  /-- What entering, returning and dying leave in the state. -/
  entered : ρ → σ → σ
  returned : ρ → α → σ → σ
  died : ρ → σ → σ
  /-- What a step of others does. -/
  outside : ε → σ → σ

/-- A state and the program live on it, with what it has still to do. -/
structure Config (Op : Type u) (Ans : Op → Type v) (σ ρ : Type*) (α : Type v) where
  state : σ
  live : Option (ρ × Program Op Ans α)

/-- What happens next. -/
inductive Action (γ ε ρ : Type*)
  | enter (r : ρ)
  | advance (c : γ)
  | die
  | outside (e : ε)

namespace System

variable {Op : Type u} {Ans : Op → Type v} {σ γ ε ρ : Type*} {α : Type v}
  (S : System Op Ans σ γ ε ρ α)

/-- One action. An action that is not enabled does nothing. -/
def step (x : Config Op Ans σ ρ α) : Action γ ε ρ → Config Op Ans σ ρ α
  | .enter r =>
    match x.live with
    | none => ⟨S.entered r x.state, some (r, S.program r)⟩
    | some _ => x
  | .advance c =>
    match x.live with
    | none => x
    | some (r, .done a) => ⟨S.returned r a x.state, none⟩
    | some (r, .step o k) => ⟨(S.perform x.state o c).2, some (r, k (S.perform x.state o c).1)⟩
  | .die =>
    match x.live with
    | none => x
    | some (r, _) => ⟨S.died r x.state, none⟩
  | .outside e => ⟨S.outside e x.state, x.live⟩

/-- A whole history. -/
def run (x : Config Op Ans σ ρ α) (history : List (Action γ ε ρ)) : Config Op Ans σ ρ α :=
  history.foldl S.step x

/-- Every action of the history is allowed where it is taken. -/
def Obeys (Allowed : Config Op Ans σ ρ α → Action γ ε ρ → Prop) :
    Config Op Ans σ ρ α → List (Action γ ε ρ) → Prop
  | _, [] => True
  | x, a :: history => Allowed x a ∧ Obeys Allowed (S.step x a) history

/-- Actions that are allowed wherever they are taken. -/
theorem obeys_of_forall {Allowed : Config Op Ans σ ρ α → Action γ ε ρ → Prop} :
    ∀ {history : List (Action γ ε ρ)} {x : Config Op Ans σ ρ α},
      (∀ a ∈ history, ∀ y, Allowed y a) → S.Obeys Allowed x history
  | [], _, _ => trivial
  | a :: _, x, h => ⟨h a List.mem_cons_self x, obeys_of_forall fun b hb => h b (List.mem_cons_of_mem a hb)⟩

/-- Actions that are each allowed where the actions before it lead. -/
theorem obeys_of_take {Allowed : Config Op Ans σ ρ α → Action γ ε ρ → Prop} :
    ∀ {history : List (Action γ ε ρ)} {x : Config Op Ans σ ρ α},
      (∀ i a, history[i]? = some a → Allowed (S.run x (history.take i)) a) →
        S.Obeys Allowed x history
  | [], _, _ => trivial
  | a :: _, _, h => ⟨h 0 a rfl, obeys_of_take fun i b hb => h (i + 1) b hb⟩

variable {ν : Type*}

/-- What keeps `I` over the histories that obey `Allowed`; `I` may speak of the program that is
live. Others leave what the live program sees as it is, and its operations are guarded by `G`. -/
structure Sound (view : ρ → σ → ν) (I : Option ρ → σ → Prop) (G : ρ → ν → Op → Prop)
    (Q : ρ → α → ν → Prop) (Allowed : Config Op Ans σ ρ α → Action γ ε ρ → Prop) : Prop where
  program : ∀ r s, Allowed ⟨s, none⟩ (.enter r) → I none s →
    Program.Guarded S.perform (view r) (G r) (Q r) (S.program r) (view r (S.entered r s))
  entered : ∀ r s, Allowed ⟨s, none⟩ (.enter r) → I none s → I (some r) (S.entered r s)
  perform : ∀ r s o k c, Allowed ⟨s, some (r, .step o k)⟩ (.advance c) → I (some r) s →
    G r (view r s) o → I (some r) (S.perform s o c).2
  returned : ∀ r s a, I (some r) s → Q r a (view r s) → I none (S.returned r a s)
  died : ∀ r s p, Allowed ⟨s, some (r, p)⟩ .die → I (some r) s → I none (S.died r s)
  outside : ∀ e s live, Allowed ⟨s, live⟩ (.outside e) → I (live.map Prod.fst) s →
    I (live.map Prod.fst) (S.outside e s)
  unseen : ∀ e s r p, Allowed ⟨s, some (r, p)⟩ (.outside e) → I (some r) s →
    view r (S.outside e s) = view r s

namespace Sound

variable {S} {view : ρ → σ → ν} {I : Option ρ → σ → Prop} {G : ρ → ν → Op → Prop}
  {Q : ρ → α → ν → Prop} {Allowed : Config Op Ans σ ρ α → Action γ ε ρ → Prop}

/-- `I` holds, and what is live is guarded. -/
def Safe (S : System Op Ans σ γ ε ρ α) (view : ρ → σ → ν) (I : Option ρ → σ → Prop)
    (G : ρ → ν → Op → Prop) (Q : ρ → α → ν → Prop) (x : Config Op Ans σ ρ α) : Prop :=
  I (x.live.map Prod.fst) x.state ∧ ∀ r p, x.live = some (r, p) →
    Program.Guarded S.perform (view r) (G r) (Q r) p (view r x.state)

theorem safe_step (h : S.Sound view I G Q Allowed) {x : Config Op Ans σ ρ α}
    {a : Action γ ε ρ} (hx : Safe S view I G Q x) (ha : Allowed x a) :
    Safe S view I G Q (S.step x a) := by
  obtain ⟨s, live⟩ := x
  obtain ⟨hI, hlive⟩ := hx
  cases a with
  | enter r =>
    cases live with
    | none =>
      refine ⟨h.entered r s ha hI, ?_⟩
      rintro r' p' ⟨⟩
      exact h.program r s ha hI
    | some l => exact ⟨hI, hlive⟩
  | advance c =>
    match live with
    | none => exact ⟨hI, hlive⟩
    | some (r, .done a) =>
      exact ⟨h.returned r s a hI (hlive r _ rfl), by rintro _ _ ⟨⟩⟩
    | some (r, .step o k) =>
      obtain ⟨hG, hk⟩ := hlive r _ rfl
      refine ⟨h.perform r s o k c ha hI hG, ?_⟩
      rintro r' p' ⟨⟩
      exact hk s c rfl
  | die =>
    match live with
    | none => exact ⟨hI, hlive⟩
    | some (r, p) => exact ⟨h.died r s p ha hI, by rintro _ _ ⟨⟩⟩
  | outside e =>
    refine ⟨h.outside e s live ha hI, ?_⟩
    rintro r p hrp
    cases hrp
    exact (h.unseen e s r p ha hI).symm ▸ hlive r p rfl

theorem safe_run (h : S.Sound view I G Q Allowed) (history : List (Action γ ε ρ)) :
    ∀ {x : Config Op Ans σ ρ α}, Safe S view I G Q x → S.Obeys Allowed x history →
      Safe S view I G Q (S.run x history) := by
  induction history with
  | nil => exact fun hx _ => hx
  | cons a history ih => exact fun hx ho => ih (safe_step h hx ho.1) ho.2

theorem safe_start {s : σ} (hs : I none s) : Safe S view I G Q ⟨s, none⟩ :=
  ⟨hs, by rintro _ _ ⟨⟩⟩

/-- Every configuration of a history that obeys `Allowed` satisfies `I`, if the first does. -/
theorem run (h : S.Sound view I G Q Allowed) {s : σ} (hs : I none s)
    {history : List (Action γ ε ρ)} (ho : S.Obeys Allowed ⟨s, none⟩ history) :
    I ((S.run ⟨s, none⟩ history).live.map Prod.fst) (S.run ⟨s, none⟩ history).state :=
  (safe_run h history (safe_start hs) ho).1

/-- The operation a live program issues next satisfies its guard. -/
theorem guard (h : S.Sound view I G Q Allowed) {s : σ} (hs : I none s)
    {history : List (Action γ ε ρ)} (ho : S.Obeys Allowed ⟨s, none⟩ history) {r : ρ} {o : Op}
    {k : Ans o → Program Op Ans α}
    (hl : (S.run ⟨s, none⟩ history).live = some (r, .step o k)) :
    G r (view r (S.run ⟨s, none⟩ history).state) o :=
  ((safe_run h history (safe_start hs) ho).2 r _ hl).1

end Sound

end System

end Lynox
