import Mathlib.Data.List.Basic

/-!
# Computations over a durable state

A `Durable` computation commits states one after the other and returns or throws. A transaction
commits one state or, where it throws, none. A process that dies has committed the first few of the
states and nothing else : `left` is what it leaves.

`Keeps I P x Q` is the triple for it : from a state of `P`, every state that `x` commits satisfies `I`,
so that a death leaves no other, and what it returns satisfies `Q` in the state it returns in. The
rules follow the way a computation is put together.
-/

namespace Lynox

/-- From a state, the states committed in order, and what is returned or thrown. -/
def Durable (ε σ α : Type) : Type := σ → List σ × Except ε α

namespace Durable

variable {ε σ α β : Type}

/-- What is read of the state, or the error of reading it. -/
def reads (f : σ → Except ε α) : Durable ε σ α :=
  fun s => ([], f s)

/-- All of what `f` does to the state, or none of it. -/
def transaction (f : σ → Except ε (α × σ)) : Durable ε σ α :=
  fun s =>
    match f s with
    | .ok (a, s') => ([s'], .ok a)
    | .error e => ([], .error e)

/-- `x`, then `f` of what it returns. -/
def andThen (x : Durable ε σ α) (f : α → Durable ε σ β) : Durable ε σ β :=
  fun s =>
    match x s with
    | (commits, .ok a) =>
      (commits ++ (f a (commits.getLastD s)).1, (f a (commits.getLastD s)).2)
    | (commits, .error e) => (commits, .error e)

instance : Monad (Durable ε σ) where
  pure a := reads fun _ => .ok a
  bind := andThen

/-- The state left by a process that dies after `n` commits. -/
def left (x : Durable ε σ α) (s : σ) (n : Nat) : σ :=
  ((x s).1.take n).getLastD s

/-- From a state of `P`, `I` of every state committed, and `Q` of what is returned. -/
def Keeps (I P : σ → Prop) (x : Durable ε σ α) (Q : α → σ → Prop) : Prop :=
  ∀ s, P s → (∀ t ∈ (x s).1, I t) ∧ ∀ a, (x s).2 = .ok a → Q a ((x s).1.getLastD s)

variable {I P P' : σ → Prop} {Q Q' : α → σ → Prop} {R : β → σ → Prop}

theorem getLastD_append (s : σ) : ∀ xs ys : List σ,
    (xs ++ ys).getLastD s = ys.getLastD (xs.getLastD s)
  | [], ys => rfl
  | x :: xs, ys => by
    rw [List.cons_append, List.getLastD_cons, List.getLastD_cons]
    exact getLastD_append x xs ys

theorem keeps_reads {f : σ → Except ε α} (h : ∀ s a, P s → f s = .ok a → Q a s) :
    Keeps I P (reads f) Q :=
  fun s hs => ⟨fun _ ht => absurd ht List.not_mem_nil, fun a ha => h s a hs ha⟩

theorem keeps_pure {a : α} (h : ∀ s, P s → Q a s) : Keeps I P (pure a : Durable ε σ α) Q := by
  refine keeps_reads fun s b hs hb => ?_
  obtain rfl := Except.ok.inj hb
  exact h s hs

theorem keeps_transaction {f : σ → Except ε (α × σ)}
    (h : ∀ s a s', P s → f s = .ok (a, s') → I s' ∧ Q a s') : Keeps I P (transaction f) Q := by
  intro s hs
  unfold transaction
  rcases hf : f s with e | ⟨a, s'⟩
  · exact ⟨fun _ ht => absurd ht List.not_mem_nil, fun _ ha => nomatch ha⟩
  · obtain ⟨hI, hQ⟩ := h s a s' hs hf
    refine ⟨fun t ht => List.mem_singleton.1 ht ▸ hI, fun b hb => ?_⟩
    obtain rfl := Except.ok.inj hb
    exact hQ

theorem Keeps.bind {x : Durable ε σ α} {f : α → Durable ε σ β} (hx : Keeps I P x Q)
    (hf : ∀ a, Keeps I (Q a) (f a) R) : Keeps I P (x >>= f) R := by
  change Keeps I P (andThen x f) R
  intro s hs
  obtain ⟨hI, hQ⟩ := hx s hs
  unfold andThen
  rcases hxs : x s with ⟨commits, e | a⟩
  · rw [hxs] at hI
    exact ⟨hI, fun _ hb => nomatch hb⟩
  · rw [hxs] at hI hQ
    obtain ⟨hfI, hfR⟩ := hf a _ (hQ a rfl)
    refine ⟨fun t ht => (List.mem_append.1 ht).elim (hI t) (hfI t), fun b hb => ?_⟩
    dsimp only at hb ⊢
    rw [getLastD_append]
    exact hfR b hb

theorem Keeps.mono {x : Durable ε σ α} (hP : ∀ s, P' s → P s) (hQ : ∀ a s, Q a s → Q' a s)
    (hx : Keeps I P x Q) : Keeps I P' x Q' :=
  fun s hs => ⟨(hx s (hP s hs)).1, fun a ha => hQ a _ ((hx s (hP s hs)).2 a ha)⟩

/-- A check, and a transaction that keeps `I` after it. -/
theorem keeps_checked {check : σ → Except ε α} {f : α → σ → Except ε (β × σ)}
    (h : ∀ a s b s', I s → check s = .ok a → f a s = .ok (b, s') → I s') :
    Keeps I I (reads check >>= fun a => transaction (f a)) fun _ => I := by
  refine Keeps.bind (@keeps_reads ε σ α I I (fun a s => I s ∧ check s = .ok a) check
    fun s a hs ha => ⟨hs, ha⟩) fun a => keeps_transaction ?_
  intro s b s' ⟨hs, ha⟩ hb
  exact ⟨h a s b s' hs ha hb, h a s b s' hs ha hb⟩

/-- What a death leaves. -/
theorem Keeps.left {x : Durable ε σ α} (hx : Keeps I P x Q) {s : σ} (hI : I s) (hP : P s) (n : Nat) :
    I (x.left s n) := by
  unfold Durable.left
  rcases List.mem_cons.1 (@List.getLastD_mem_cons _ ((x s).1.take n) s) with h | h
  · rwa [h]
  · exact (hx s hP).1 _ (List.mem_of_mem_take h)

end Durable

end Lynox
