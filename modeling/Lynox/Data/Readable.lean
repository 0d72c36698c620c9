import Mathlib.Data.List.Basic

/-!
# Readable codes

A code writes a value as a list. It is readable before the tails in `T` when the list of a value
and a tail in `T`, one after the other, give both back. A code readable before every tail needs
no separator; a code with an optional part at its end is readable only before tails that cannot
be taken for that part.

There are codes of one length (`readable_length`), an optional part behind its name
(`readable_optional`), an optional word (`readable_flag`), a list behind its size
(`readable_framed`) and a word before a mark (`readable_marked`). The values of a list, each in
a readable code, are given back by their lists in a row (`Readable.flatMap`).
-/

namespace Lynox

variable {α β : Type*} {T : List α → Prop} {code : β → List α}

/-- A value's list followed by a tail in `T` gives back the value and the tail. -/
def Readable (T : List α → Prop) (code : β → List α) : Prop :=
  ∀ ⦃b b' : β⦄ ⦃s s' : List α⦄, T s → T s' → code b ++ s = code b' ++ s' → b = b' ∧ s = s'

/-- The codes of the values of a list, with nothing behind them. -/
theorem Readable.flatMap (h : Readable T code) (hnil : T []) (htail : ∀ b s, T (code b ++ s))
    (hcode : ∀ b, code b ≠ []) : Function.Injective fun l : List β => l.flatMap code := by
  have hrest (l : List β) : T (l.flatMap code) := by
    cases l with
    | nil => exact hnil
    | cons b l => exact htail b _
  intro l
  induction l with
  | nil =>
    intro l' hcat
    cases l' with
    | nil => rfl
    | cons b' l' => exact absurd (List.append_eq_nil_iff.mp hcat.symm).1 (hcode b')
  | cons b l ih =>
    intro l' hcat
    cases l' with
    | nil => exact absurd (List.append_eq_nil_iff.mp hcat).1 (hcode b)
    | cons b' l' =>
      obtain ⟨rfl, hrest'⟩ := h (hrest l) (hrest l') hcat
      rw [ih hrest']

/-- A list of one fixed length. -/
theorem readable_length {n : ℕ} (hcode : ∀ b, (code b).length = n) (hinj : Function.Injective code) :
    Readable (fun _ => True) code := by
  intro b b' s s' _ _ hcat
  obtain ⟨hb, hs⟩ := List.append_inj hcat ((hcode b).trans (hcode b').symm)
  exact ⟨hinj hb, hs⟩

/-- A part that is there or not, behind a name that no tail begins with. -/
theorem readable_optional {name : α} {part : β → List α} (h : Readable (fun _ => True) part) :
    Readable (fun s => s.head? ≠ some name) fun o : Option β => o.elim [] fun b => name :: part b := by
  rintro (_ | b) (_ | b') s s' hs hs' hcat
  · exact ⟨rfl, hcat⟩
  · obtain rfl : s = name :: (part b' ++ s') := hcat
    exact absurd rfl hs
  · obtain rfl : name :: (part b ++ s) = s' := hcat
    exact absurd rfl hs'
  · obtain ⟨rfl, rfl⟩ := h trivial trivial (List.cons.inj hcat).2
    exact ⟨rfl, rfl⟩

/-- A word that is there or not, and that no tail begins with. -/
theorem readable_flag {word : α} :
    Readable (fun s => s.head? ≠ some word) fun d : Bool => if d then [word] else [] := by
  rintro (_ | _) (_ | _) s s' hs hs' hcat
  · exact ⟨rfl, hcat⟩
  · obtain rfl : s = word :: s' := hcat
    exact absurd rfl hs
  · obtain rfl : word :: s = s' := hcat
    exact absurd rfl hs'
  · exact ⟨rfl, (List.cons.inj hcat).2⟩

/-- A list behind its size, for a size that adds up and is zero on the empty list alone. -/
theorem readable_framed {label : ℕ → List α} {size : List α → ℕ}
    (h : Readable (fun _ => True) label) (hadd : ∀ l m, size (l ++ m) = size l + size m)
    (hzero : ∀ l, size l = 0 → l = []) :
    Readable (fun _ => True) fun l => label (size l) ++ l := by
  intro l l' s s' _ _ hcat
  simp only [List.append_assoc] at hcat
  obtain ⟨hsize, hrest⟩ := h trivial trivial hcat
  rcases List.append_eq_append_iff.mp hrest with ⟨m, rfl, rfl⟩ | ⟨m, rfl, rfl⟩
  · rw [hadd] at hsize
    obtain rfl := hzero m (by omega)
    simp
  · rw [hadd] at hsize
    obtain rfl := hzero m (by omega)
    simp

/-- A word and a mark that is in no word. -/
theorem readable_marked {mark : α} (hinj : Function.Injective code) (hmark : ∀ b, mark ∉ code b) :
    Readable (fun _ => True) fun b => code b ++ [mark] := by
  intro b b' s s' _ _ hcat
  simp only [List.append_assoc, List.singleton_append] at hcat
  rcases List.append_eq_append_iff.mp hcat with ⟨m, hm, htail⟩ | ⟨m, hm, htail⟩
  · rcases List.cons_eq_append_iff.mp htail with ⟨rfl, hs⟩ | ⟨m', rfl, -⟩
    · exact ⟨hinj (by simpa using hm.symm), (List.cons.inj hs).2.symm⟩
    · exact absurd (hm ▸ by simp) (hmark b')
  · rcases List.cons_eq_append_iff.mp htail with ⟨rfl, hs⟩ | ⟨m', rfl, -⟩
    · exact ⟨hinj (by simpa using hm), (List.cons.inj hs).2⟩
    · exact absurd (hm ▸ by simp) (hmark b)

end Lynox
