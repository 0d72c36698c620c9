import Mathlib.Data.List.Basic

/-!
# Computations that throw

What is known of a computation in `Except` that did not throw : each of its steps returned
(`ok_of_bind`), a condition that would have thrown was false (`ok_of_throwIf`), and a loop kept what
each of its steps keeps (`foldlM_keeps`).
-/

namespace Lynox.Throws

universe u

variable {ε : Type*} {α β : Type u}

/-- A check that throws where `c` is true. -/
def throwIf (c : Prop) [Decidable c] (e : ε) : Except ε Unit :=
  if c then .error e else .ok ()

theorem ok_of_bind {x : Except ε α} {f : α → Except ε β} {b : β}
    (h : x >>= f = .ok b) : ∃ a, x = .ok a ∧ f a = .ok b := by
  cases x with
  | error e => exact nomatch h
  | ok a => exact ⟨a, rfl, h⟩

/-- An error that neither step throws is not thrown. -/
theorem bind_ne_error {x : Except ε α} {f : α → Except ε β} {e : ε} (hx : x ≠ .error e)
    (hf : ∀ a, f a ≠ .error e) : x >>= f ≠ .error e := by
  cases x with
  | error e' => exact fun h => hx (congrArg Except.error (Except.error.inj h))
  | ok a => exact hf a

theorem ok_of_throwIf {c : Prop} [Decidable c] {e : ε} {a : Unit} (h : throwIf c e = .ok a) : ¬c := by
  unfold throwIf at h
  split at h
  · exact nomatch h
  · assumption

/-- What each step of a loop keeps. -/
theorem foldlM_keeps {α : Type*} {R : β → β → Prop} (hrefl : ∀ b, R b b)
    (htrans : ∀ b c d, R b c → R c d → R b d)
    {f : β → α → Except ε β} (hf : ∀ b a b', f b a = .ok b' → R b b') :
    ∀ {as : List α} {b b' : β}, as.foldlM f b = .ok b' → R b b'
  | [], b, b', h => by
    obtain rfl := Except.ok.inj h
    exact hrefl b
  | a :: as, b, b', h => by
    rw [List.foldlM_cons] at h
    obtain ⟨b'', hb, h⟩ := ok_of_bind h
    exact htrans _ _ _ (hf b a b'' hb) (foldlM_keeps hrefl htrans hf h)

end Lynox.Throws
