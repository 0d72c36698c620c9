import Lynox.Text.Stringify

/-!
# Patterns with assertions

A pattern without groups, read at a place of a text, reaches other places in the order a
backtracking matcher tries them (`Matcher.ends`). `\b`, `^` on every line and a look ahead read
nothing. `Matcher.test` tells whether a pattern matches somewhere.

Letters without regard to case are those of ASCII (`letter`), and `.` stops at the end of a line. What a
repetition of one unit reaches is told by what each unit on the way is (`mem_ends_many`).
-/

namespace Lynox.Text

/-- A pattern. All repetitions are greedy. -/
inductive Matcher
  | unit (p : UInt16 → Bool)
  | seq (a b : Matcher)
  | many (a : Matcher)
  | optional (a : Matcher)
  | boundary
  | lineStart
  | notAhead (a : Matcher)

def isLineTerminator (c : UInt16) : Bool :=
  c = 0x0A || c = 0x0D || c = 0x2028 || c = 0x2029

def isAsciiWordChar (c : UInt16) : Bool :=
  (0x30 ≤ c.toNat && c.toNat ≤ 0x39) || (0x41 ≤ c.toNat && c.toNat ≤ 0x5A) ||
    (0x61 ≤ c.toNat && c.toNat ≤ 0x7A) || c = 0x5F

def lowerAscii (c : UInt16) : UInt16 :=
  if 0x41 ≤ c.toNat ∧ c.toNat ≤ 0x5A then c + 0x20 else c

/-- A word character stands at a place. -/
def wordAt (s : JsString) (i : ℕ) : Bool :=
  s[i]?.any isAsciiWordChar

/-- A word begins or ends at a place. -/
def boundaryAt (s : JsString) : ℕ → Bool
  | 0 => wordAt s 0
  | i + 1 => wordAt s i != wordAt s (i + 1)

/-- A line begins at a place. -/
def lineStartAt (s : JsString) : ℕ → Bool
  | 0 => true
  | i + 1 => s[i]?.any isLineTerminator

/-- Rounds of a repetition, at most `n` of them. -/
def tries (f : ℕ → List ℕ) : ℕ → ℕ → List ℕ
  | 0, i => [i]
  | n + 1, i => ((f i).filter (i < ·)).flatMap (tries f n) ++ [i]

namespace Matcher

/-- What a pattern reaches from a place. -/
def ends (s : JsString) : Matcher → ℕ → List ℕ
  | .unit p, i => if s[i]?.any p then [i + 1] else []
  | .seq a b, i => (a.ends s i).flatMap (b.ends s)
  | .many a, i => tries (a.ends s) (s.length - i) i
  | .optional a, i => a.ends s i ++ [i]
  | .boundary, i => if boundaryAt s i then [i] else []
  | .lineStart, i => if lineStartAt s i then [i] else []
  | .notAhead a, i => if a.ends s i = [] then [i] else []

/-- Whether the pattern matches somewhere. -/
def test (a : Matcher) (s : JsString) : Bool :=
  (List.range (s.length + 1)).any fun i => a.ends s i ≠ []

/-- A letter, in either case. -/
def letter (c : UInt16) : Matcher :=
  .unit fun u => lowerAscii u = c

/-- A unit that is this one. -/
def char (c : UInt16) : Matcher :=
  .unit fun u => u = c

/-- `.`. -/
def dot : Matcher :=
  .unit fun u => !isLineTerminator u

/-- A word of letters. -/
def word : List UInt16 → Matcher → Matcher
  | [], a => a
  | c :: cs, a => .seq (letter c) (word cs a)

section Ends

variable {s : JsString} {i j k n : ℕ} {p : UInt16 → Bool} {a b : Matcher} {c : UInt16} {cs : List UInt16}

theorem mem_ends_unit : j ∈ (unit p).ends s i ↔ j = i + 1 ∧ ∃ u, s[i]? = some u ∧ p u = true := by
  unfold ends
  split
  · next h =>
    rw [Option.any_eq_true] at h
    simp [h]
  · next h =>
    rw [Option.any_eq_true] at h
    exact iff_of_false List.not_mem_nil fun hj => h hj.2

theorem mem_ends_seq : j ∈ (seq a b).ends s i ↔ ∃ k ∈ a.ends s i, j ∈ b.ends s k := by
  rw [ends, List.mem_flatMap]

theorem mem_ends_optional : j ∈ (optional a).ends s i ↔ j ∈ a.ends s i ∨ j = i := by
  rw [ends, List.mem_append, List.mem_singleton]

theorem mem_ends_boundary : j ∈ boundary.ends s i ↔ j = i ∧ boundaryAt s i = true := by
  rw [ends]
  split
  · next h => simp [h]
  · next h => simp [h]

theorem mem_ends_lineStart : j ∈ lineStart.ends s i ↔ j = i ∧ lineStartAt s i = true := by
  rw [ends]
  split
  · next h => simp [h]
  · next h => simp [h]

theorem mem_ends_notAhead : j ∈ (notAhead a).ends s i ↔ j = i ∧ a.ends s i = [] := by
  rw [ends]
  split
  · next h => simp [h]
  · next h => simp [h]

/-- A repetition of one unit, that is what `P` says of its place, reaches every place up to where it
is not. -/
theorem mem_ends_many {P : ℕ → Prop} (hstep : ∀ k j, j ∈ a.ends s k ↔ j = k + 1 ∧ P k)
    (hlt : ∀ k, P k → k < s.length) : j ∈ (many a).ends s i ↔ i ≤ j ∧ ∀ k, i ≤ k → k < j → P k := by
  have htries : ∀ n i, s.length - i ≤ n →
      (j ∈ tries (a.ends s) n i ↔ i ≤ j ∧ ∀ k, i ≤ k → k < j → P k) := by
    intro n
    induction n with
    | zero =>
      intro i hi
      rw [tries, List.mem_singleton]
      refine ⟨fun heq => ⟨heq.ge, fun k hik hkj => by omega⟩, fun ⟨hle, hall⟩ => ?_⟩
      by_contra hne
      have := hlt i (hall i le_rfl (by omega))
      omega
    | succ n ih =>
      intro i hi
      rw [tries, List.mem_append, List.mem_singleton, List.mem_flatMap]
      constructor
      · rintro (⟨k, hk, hj⟩ | rfl)
        · obtain ⟨hk, -⟩ := List.mem_filter.1 hk
          obtain ⟨rfl, hP⟩ := (hstep i k).1 hk
          obtain ⟨hle, hall⟩ := (ih (i + 1) (by omega)).1 hj
          refine ⟨by omega, fun k hik hkj => ?_⟩
          rcases Nat.eq_or_lt_of_le hik with rfl | hlt
          · exact hP
          · exact hall k hlt hkj
        · exact ⟨le_rfl, fun k hik hkj => by omega⟩
      · rintro ⟨hle, hall⟩
        rcases Nat.eq_or_lt_of_le hle with rfl | hlt'
        · exact .inr rfl
        · have hP := hall i le_rfl hlt'
          refine .inl ⟨i + 1, List.mem_filter.2 ⟨(hstep i _).2 ⟨rfl, hP⟩, by simp⟩, ?_⟩
          exact (ih (i + 1) (by omega)).2 ⟨hlt', fun k hik hkj => hall k (by omega) hkj⟩
  exact htries _ _ le_rfl

theorem mem_ends_many_unit :
    j ∈ (many (unit p)).ends s i ↔ i ≤ j ∧ ∀ k, i ≤ k → k < j → ∃ u, s[k]? = some u ∧ p u = true :=
  mem_ends_many (fun _ _ => mem_ends_unit) fun _ ⟨_, hu, _⟩ => (List.getElem?_eq_some_iff.1 hu).1

/-- The letters of a word stand one behind the other. -/
theorem mem_ends_word : j ∈ (word cs a).ends s i ↔
    (∀ k (hk : k < cs.length), ∃ u, s[i + k]? = some u ∧ lowerAscii u = cs[k]) ∧
      j ∈ a.ends s (i + cs.length) := by
  induction cs generalizing i with
  | nil => simp [word]
  | cons c cs ih =>
    rw [word, mem_ends_seq]
    constructor
    · rintro ⟨k, hk, hj⟩
      obtain ⟨rfl, u, hu, hc⟩ := mem_ends_unit.1 hk
      obtain ⟨hall, hend⟩ := ih.1 hj
      refine ⟨fun k hk => ?_, by rwa [List.length_cons, Nat.add_comm cs.length, ← Nat.add_assoc]⟩
      cases k with
      | zero => exact ⟨u, hu, by simpa using hc⟩
      | succ k =>
        obtain ⟨v, hv, hvc⟩ := hall k (by simpa using hk)
        exact ⟨v, by rwa [Nat.add_comm k, ← Nat.add_assoc], hvc⟩
    · rintro ⟨hall, hend⟩
      obtain ⟨u, hu, hc⟩ := hall 0 (by simp)
      refine ⟨i + 1, mem_ends_unit.2 ⟨rfl, u, hu, by simpa using hc⟩, ih.2 ⟨fun k hk => ?_, ?_⟩⟩
      · obtain ⟨v, hv, hvc⟩ := hall (k + 1) (by simpa using hk)
        exact ⟨v, by rwa [Nat.add_assoc, Nat.add_comm 1], hvc⟩
      · rwa [Nat.add_assoc, Nat.add_comm 1, ← List.length_cons]

/-- A pattern matches somewhere where it reaches something from some place. -/
theorem test_eq_true (hlt : ∀ i j, j ∈ a.ends s i → i ≤ s.length) :
    a.test s = true ↔ ∃ i j, j ∈ a.ends s i := by
  rw [test, List.any_eq_true]
  constructor
  · rintro ⟨i, -, hi⟩
    obtain ⟨j, hj⟩ := List.exists_mem_of_ne_nil _ (of_decide_eq_true hi)
    exact ⟨i, j, hj⟩
  · rintro ⟨i, j, hj⟩
    exact ⟨i, List.mem_range.2 (Nat.lt_succ_of_le (hlt i j hj)), decide_eq_true (List.ne_nil_of_mem hj)⟩

end Ends

end Matcher

end Lynox.Text

/-!
## Upper and lower case

The case of an ASCII unit is changed by itself, whatever stands around it. What any other unit
becomes may depend on the text around it; it is left open (`other`), so what is proved here holds for
the case tables of any Unicode version.
-/

namespace Lynox.Text

def upperAscii (c : UInt16) : UInt16 :=
  if 0x61 ≤ c.toNat ∧ c.toNat ≤ 0x7A then c - 0x20 else c

def isAscii (c : UInt16) : Bool :=
  c.toNat < 0x80

section Case

variable (ascii : UInt16 → UInt16) (other : JsString → UInt16 → JsString → JsString)

/-- A text in another case, behind what was read of it before. -/
def changeCase (before : JsString) : JsString → JsString
  | [] => []
  | u :: s => (if isAscii u then [ascii u] else other before u s) ++ changeCase (before ++ [u]) s

/-- The text that `toLowerCase` gives. -/
def lowerCase (s : JsString) : JsString :=
  changeCase lowerAscii other [] s

def upperCase (s : JsString) : JsString :=
  changeCase upperAscii other [] s

variable {ascii other} {s t before : JsString}

theorem changeCase_append : ∀ {s before : JsString}, s.all isAscii →
    changeCase ascii other before (s ++ t) =
      s.map ascii ++ changeCase ascii other (before ++ s) t
  | [], before, _ => by rw [List.append_nil]; rfl
  | u :: s, before, h => by
    rw [List.all_cons, Bool.and_eq_true] at h
    rw [List.cons_append, changeCase, if_pos h.1, changeCase_append h.2, List.append_assoc]
    rfl

theorem lowerCase_ascii (h : s.all isAscii) : lowerCase other s = s.map lowerAscii := by
  have happend : changeCase lowerAscii other [] (s ++ []) =
      s.map lowerAscii ++ changeCase lowerAscii other ([] ++ s) [] := changeCase_append h
  rw [List.append_nil] at happend
  rw [lowerCase, happend]
  exact List.append_nil _

end Case

end Lynox.Text
