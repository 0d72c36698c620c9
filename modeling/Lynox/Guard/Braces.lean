import Lynox.Text.Braces
import Lynox.Text.Find
import Lynox.Text.Matches
import Lynox.Text.Matcher
import Mathlib.Computability.NFA
import Mathlib.Data.Nat.Bitwise

/-!
# Brace expansions that leave the workspace

`braceWordLeavesWorkspace` reads a word once. It carries the positions read so far as a set of bits through
each group : every choice begins with the positions at the opening brace, and the group ends with their union.
-/

namespace Lynox.Guard

open Text

/-- `.lynox/workspace/` -/
def WORKSPACE_IN_LYNOX : JsString :=
  [0x2E, 0x6C, 0x79, 0x6E, 0x6F, 0x78, 0x2F, 0x77, 0x6F, 0x72, 0x6B, 0x73, 0x70, 0x61, 0x63, 0x65, 0x2F]

/-- `/../` -/
def UP_A_DIR : JsString :=
  [0x2F, 0x2E, 0x2E, 0x2F]

/-- `/\.[.{},]/` matches somewhere. -/
def dotsCanMeet : JsString → Bool
  | c :: d :: rest => (c = 0x2E && (d = 0x2E || d = 0x7B || d = 0x7D || d = 0x2C)) || dotsCanMeet
      (d :: rest)
  | _ => false

namespace BraceWord

def before : ℕ :=
  WORKSPACE_IN_LYNOX.length

def done : ℕ :=
  before + UP_A_DIR.length

/-- The positions at an opening brace, and those at the ends of the choices read so far. -/
structure Group where
  start : ℕ
  ends : ℕ

/-- The character a position waits for. -/
def expected (bit : ℕ) : Option UInt16 :=
  if bit < before then WORKSPACE_IN_LYNOX[bit]? else UP_A_DIR[bit - before]?

/-- The positions behind a character. -/
def step (states : ℕ) (c : JsString) : ℕ :=
  let next := ((List.range 32).filter states.testBit).foldl
    (fun next bit => if (expected bit).map (fun u => [u]) = some c then next ||| 1 <<< (bit + 1) else next)
    (1 ||| (states &&& 1 <<< before))
  -- The prefix's own last `/` is also the first of `/../`.
  if !states.testBit before && next.testBit before && UP_A_DIR.take 1 = c then next ||| 1 <<< (before + 1)
  else next

/-- The loop, on the characters of a word. -/
def scan : List Group → ℕ → List JsString → Bool
  | groups, states, [] =>
    if groups = [] then false
    else
      let states := groups.foldl (fun states group => states ||| group.ends) states
      states.testBit done || states.testBit (done - 1)
  | groups, states, c :: rest =>
    if c = [0x7B] then scan (⟨states, 0⟩ :: groups) states rest
    else if c = [0x2C] ∧ groups ≠ [] then
      match groups with
      | [] => false
      | group :: outer => scan (⟨group.start, group.ends ||| states⟩ :: outer) group.start rest
    else if c = [0x7D] ∧ groups ≠ [] then
      match groups with
      | [] => false
      | group :: outer => scan outer (states ||| group.ends) rest
    else if (step states c).testBit done then true
    else scan groups (step states c) rest

/-- The characters of a text, a surrogate pair being one. -/
def characters (text : JsString) : List JsString :=
  (pieces text).map Piece.units

end BraceWord

/-- Whether an expansion of a word leaves the workspace. -/
def braceWordLeavesWorkspace (lower : JsString → JsString) (word : JsString) : Bool :=
  BraceWord.scan [] 1 (BraceWord.characters (lower word))

/-- `replace(/\/+/g, '/')`. -/
def joinSlashes : JsString → JsString
  | [] => []
  | c :: rest => if c = 0x2F ∧ rest.head? = some 0x2F then joinSlashes rest else c :: joinSlashes rest

/-- Whether a word of a command leaves the workspace by a dot-dot that only its braces form. -/
def bracesLeaveWorkspace (lower : JsString → JsString) (segment : JsString) : Bool :=
  (splitWhite segment).any fun word =>
    if 0x7B ∉ word then false
    else
      let path := joinSlashes (lower word)
      match indexOf path WORKSPACE_IN_LYNOX 0 with
      | none => false
      | some i =>
        dotsCanMeet (path.drop (i + WORKSPACE_IN_LYNOX.length)) && braceWordLeavesWorkspace lower path

/-- What is relied on of the lower case of a text : it is mapped between the slashes, and once. -/
structure LowerCase (lower : JsString → JsString) : Prop where
  nil : ∀ a, lower a = [] ↔ a = []
  noSlash : ∀ a, 0x2F ∉ a → 0x2F ∉ lower a
  slash : ∀ a b, lower (a ++ 0x2F :: b) = lower a ++ 0x2F :: lower b
  lower_lower : ∀ a, lower (lower a) = lower a

namespace BraceWord

/-! ## One step -/

section Step

variable {states k : ℕ} {u : UInt16} {c : JsString}

theorem before_eq : before = 17 := rfl

theorem done_eq : done = 21 := rfl

theorem testBit_shift (n k : ℕ) : (1 <<< n).testBit k = decide (n = k) := by
  rw [Nat.one_shiftLeft, Nat.testBit_two_pow]

theorem expected_mem {bit : ℕ} (h : expected bit = some u) : bit < done ∧ u.toNat < 0x80 := by
  have hall : ∀ u ∈ WORKSPACE_IN_LYNOX ++ UP_A_DIR, u.toNat < 0x80 :=
    List.forall_iff_forall_mem.1 (by decide)
  unfold expected at h
  split at h
  · next hlt => exact ⟨Nat.lt_add_right _ hlt, hall u (List.mem_append_left _ (List.mem_of_getElem? h))⟩
  · next hge =>
    have := (List.getElem?_eq_some_iff.1 h).1
    exact ⟨by rw [done]; omega, hall u (List.mem_append_right _ (List.mem_of_getElem? h))⟩

theorem testBit_collect {f : ℕ → Prop} [DecidablePred f] {l : List ℕ} {n : ℕ} :
    (l.foldl (fun next bit => if f bit then next ||| 1 <<< (bit + 1) else next) n).testBit k = true ↔
      n.testBit k = true ∨ ∃ bit ∈ l, f bit ∧ k = bit + 1 := by
  induction l generalizing n with
  | nil => simp
  | cons bit l ih =>
    rw [List.foldl_cons, ih]
    split
    · next h =>
      rw [Nat.testBit_or, testBit_shift, Bool.or_eq_true, decide_eq_true_eq, or_assoc,
        @eq_comm _ (bit + 1) k]
      simp [h]
    · next h => simp [h]

/-- What waited for a character is read behind it, and so is the prefix. -/
theorem testBit_carried : (((List.range 32).filter states.testBit).foldl (fun next bit =>
      if (expected bit).map (fun u => [u]) = some c then next ||| 1 <<< (bit + 1) else next)
        (1 ||| (states &&& 1 <<< before))).testBit k = true ↔
    k = 0 ∨ (k = before ∧ states.testBit before = true) ∨
      ∃ bit, states.testBit bit = true ∧ (expected bit).map (fun u => [u]) = some c ∧ k = bit + 1 := by
  rw [testBit_collect, Nat.testBit_or, Nat.testBit_and, testBit_shift, Bool.or_eq_true, or_assoc,
    Bool.and_eq_true, decide_eq_true_eq, Nat.testBit_one_eq_true_iff_self_eq_zero]
  refine or_congr Iff.rfl (or_congr ?_ ?_)
  · constructor
    · rintro ⟨h, rfl⟩
      exact ⟨rfl, h⟩
    · rintro ⟨rfl, h⟩
      exact ⟨h, rfl⟩
  · refine exists_congr fun bit => ?_
    rw [List.mem_filter, List.mem_range, and_assoc]
    refine ⟨fun h => h.2, fun h => ⟨?_, h⟩⟩
    obtain ⟨u, hu, -⟩ := Option.map_eq_some_iff.1 h.2.1
    have := (expected_mem hu).1
    rw [done_eq] at this
    omega

/-- What is read behind a character : the beginning, the prefix once it is read, what waited for the
character, and the slash the two texts share. -/
theorem testBit_step : (step states c).testBit k = true ↔
    k = 0 ∨ (k = before ∧ states.testBit before = true) ∨
      (∃ bit, states.testBit bit = true ∧ (expected bit).map (fun u => [u]) = some c ∧ k = bit + 1) ∨
        (k = before + 1 ∧ c = [0x2F] ∧ states.testBit (before - 1) = true) := by
  have hlast : expected (before - 1) = some 0x2F := rfl
  have hfirst : expected before = some 0x2F := rfl
  have hslash : UP_A_DIR.take 1 = [0x2F] := rfl
  unfold step
  simp only
  split
  · next h =>
    rw [hslash, Bool.and_eq_true, Bool.and_eq_true, Bool.not_eq_true', decide_eq_true_eq] at h
    obtain ⟨⟨hnot, hread⟩, rfl⟩ := h
    rw [Nat.testBit_or, testBit_shift, Bool.or_eq_true, decide_eq_true_eq, testBit_carried]
    have hbefore : states.testBit (before - 1) = true := by
      obtain h | ⟨-, h⟩ | ⟨bit, h, -, hbit⟩ := testBit_carried.1 hread
      · exact absurd h (by decide)
      · rw [hnot] at h
        exact absurd h (by decide)
      · obtain rfl : bit = before - 1 := by omega
        exact h
    simp only [hbefore, and_true, or_assoc, eq_comm]
  · next h =>
    rw [testBit_carried]
    refine ⟨fun h => ?_, ?_⟩
    · rcases h with h | h | h
      · exact .inl h
      · exact .inr (.inl h)
      · exact .inr (.inr (.inl h))
    · rintro (hk | hk | hk | ⟨rfl, rfl, hk⟩)
      · exact .inl hk
      · exact .inr (.inl hk)
      · exact .inr (.inr hk)
      · by_cases hprefix : states.testBit before = true
        · exact .inr (.inr ⟨before, hprefix, by rw [hfirst]; rfl, rfl⟩)
        · refine absurd ?_ h
          have hread := (@testBit_carried states before [0x2F]).2
            (.inr (.inr ⟨before - 1, hk, by rw [hlast]; rfl, rfl⟩))
          rw [hslash, hread]
          simpa using hprefix

end Step

/-! ## The automaton -/

/-- Where a position goes with a unit. The end is never left. -/
def moves (k : ℕ) (u : UInt16) : Set ℕ :=
  {m | m = 0 ∨ (m = before ∧ k = before) ∨ (expected k = some u ∧ m = k + 1) ∨
    (m = before + 1 ∧ u = 0x2F ∧ k = before - 1) ∨ (m = done ∧ k = done)}

def reader : NFA UInt16 ℕ where
  step := moves
  start := {0}
  accept := {done}

/-- The positions of a bit set. -/
def bits (states : ℕ) : Set ℕ :=
  {k | states.testBit k = true}

/-- Positions the loop goes on with. -/
structure Reading (states : ℕ) : Prop where
  start : states.testBit 0 = true
  notDone : states.testBit done = false

/-- Each unit of a text as a character. -/
def each (text : JsString) : List JsString :=
  text.map fun u => [u]

/-- The positions behind some of the texts. -/
def after (texts : List JsString) (S : Set ℕ) : Set ℕ :=
  {k | ∃ e ∈ texts, k ∈ reader.evalFrom S e}

section Automaton

variable {states k : ℕ} {u v : UInt16} {c text : JsString} {groups : List Group} {rest : List JsString}
  {S : Set ℕ} {es fs : List JsString}

theorem bits_step (h : Reading states) : bits (step states [u]) = reader.stepSet (bits states) u := by
  ext k
  rw [NFA.mem_stepSet]
  refine testBit_step.trans ?_
  constructor
  · rintro (rfl | ⟨rfl, hk⟩ | ⟨bit, hbit, hu, rfl⟩ | ⟨rfl, hu, hk⟩)
    · exact ⟨0, h.start, .inl rfl⟩
    · exact ⟨before, hk, .inr (.inl ⟨rfl, rfl⟩)⟩
    · obtain ⟨u', hu', hc⟩ := Option.map_eq_some_iff.1 hu
      obtain rfl := List.singleton_inj.1 hc
      exact ⟨bit, hbit, .inr (.inr (.inl ⟨hu', rfl⟩))⟩
    · exact ⟨before - 1, hk, .inr (.inr (.inr (.inl ⟨rfl, List.singleton_inj.1 hu, rfl⟩)))⟩
  · rintro ⟨t, ht, rfl | ⟨rfl, rfl⟩ | ⟨hu, rfl⟩ | ⟨rfl, rfl, rfl⟩ | ⟨rfl, rfl⟩⟩
    · exact .inl rfl
    · exact .inr (.inl ⟨rfl, ht⟩)
    · exact .inr (.inr (.inl ⟨t, ht, by rw [hu]; rfl, rfl⟩))
    · exact .inr (.inr (.inr ⟨rfl, rfl, ht⟩))
    · exact absurd (h.notDone.symm.trans ht) (by decide)

theorem reading_step (h : (step states c).testBit done = false) : Reading (step states c) :=
  ⟨testBit_step.2 (.inl rfl), h⟩

/-- A character nothing waits for. -/
theorem testBit_step_other (hc : ∀ bit, (expected bit).map (fun u => [u]) ≠ some c) :
    (step states c).testBit k = true ↔ k = 0 ∨ (k = before ∧ states.testBit before = true) := by
  rw [testBit_step]
  refine ⟨?_, fun h => h.elim .inl fun h => .inr (.inl h)⟩
  rintro (h | h | ⟨bit, -, hbit, -⟩ | ⟨-, rfl, -⟩)
  · exact .inl h
  · exact .inr h
  · exact absurd hbit (hc bit)
  · exact absurd rfl (hc before)

theorem scan_open : scan groups states ([0x7B] :: rest) = scan (⟨states, 0⟩ :: groups) states rest := by
  rw [scan.eq_def]
  exact if_pos rfl

theorem scan_comma {group : Group} : scan (group :: groups) states ([0x2C] :: rest) =
    scan (⟨group.start, group.ends ||| states⟩ :: groups) group.start rest := by
  rw [scan, if_neg (by decide), if_pos ⟨rfl, List.cons_ne_nil _ _⟩]

theorem scan_close {group : Group} : scan (group :: groups) states ([0x7D] :: rest) =
    scan groups (states ||| group.ends) rest := by
  rw [scan, if_neg (by decide), if_neg (by simp), if_pos ⟨rfl, List.cons_ne_nil _ _⟩]

/-- A character that is no part of a group's own text. -/
theorem scan_plain (hopen : c ≠ [0x7B]) (hgroup : groups ≠ [] → c ≠ [0x2C] ∧ c ≠ [0x7D]) :
    scan groups states (c :: rest) =
      if (step states c).testBit done = true then true else scan groups (step states c) rest := by
  rw [scan.eq_def]
  simp only
  rw [if_neg hopen, if_neg fun h => (hgroup h.2).1 h.1, if_neg fun h => (hgroup h.2).2 h.1]

/-- A character nothing waits for is passed. -/
theorem scan_other (hopen : c ≠ [0x7B]) (hgroup : c ≠ [0x2C] ∧ c ≠ [0x7D])
    (hc : ∀ bit, (expected bit).map (fun u => [u]) ≠ some c) :
    scan groups states (c :: rest) = scan groups (step states c) rest := by
  rw [scan_plain hopen fun _ => hgroup, if_neg]
  rw [testBit_step_other hc]
  rintro (h | ⟨h, -⟩)
  · exact absurd h (by decide)
  · exact absurd h (by decide)

theorem not_expected_of_le (hu : 0x80 ≤ u.toNat) (bit : ℕ) :
    (expected bit).map (fun u => [u]) ≠ some [u] := by
  intro h
  obtain ⟨w, hw, heq⟩ := Option.map_eq_some_iff.1 h
  obtain rfl := List.singleton_inj.1 heq
  have := (expected_mem hw).2
  omega

theorem ne_mark_of_le {mark : UInt16} (hmark : mark.toNat < 0x80) (hu : 0x80 ≤ u.toNat) :
    ([u] : JsString) ≠ [mark] := by
  intro h
  obtain rfl := List.singleton_inj.1 h
  omega

theorem scan_other_unit (hu : 0x80 ≤ u.toNat) :
    scan groups states ([u] :: rest) = scan groups (step states [u]) rest :=
  scan_other (ne_mark_of_le (by decide) hu) ⟨ne_mark_of_le (by decide) hu, ne_mark_of_le (by decide) hu⟩
    (not_expected_of_le hu)

/-- The two halves of a pair are passed as the pair is. -/
theorem scan_pair (hu : 0x80 ≤ u.toNat) (hv : 0x80 ≤ v.toNat) :
    scan groups states ([u, v] :: rest) = scan groups states ([u] :: [v] :: rest) := by
  have hpair : ∀ bit, (expected bit).map (fun u => [u]) ≠ some [u, v] := fun bit h => by
    obtain ⟨w, -, hw⟩ := Option.map_eq_some_iff.1 h
    simp at hw
  have hsame : step states [u, v] = step (step states [u]) [v] := by
    refine Nat.eq_of_testBit_eq fun k => Bool.eq_iff_iff.2 ?_
    rw [testBit_step_other hpair, testBit_step_other (not_expected_of_le hv),
      testBit_step_other (not_expected_of_le hu)]
    simp [before_eq]
  rw [scan_other (by simp) ⟨by simp, by simp⟩ hpair, scan_other_unit hu, scan_other_unit hv, hsame]

/-- The loop reads a text unit by unit. -/
theorem scan_characters : scan groups states (characters text) = scan groups states (each text) := by
  unfold characters each
  fun_induction pieces text generalizing groups states with
  | case1 => rfl
  | case2 u => rw [List.map_singleton, List.map_singleton, units_single]
  | case3 u v rest h ih =>
    rw [Bool.and_eq_true] at h
    rw [List.map_cons, List.map_cons, List.map_cons, Piece.units, units_pair h.1 h.2]
    have hu := (high_iff.1 h.1).1
    have hv := (low_iff.1 h.2).1
    rw [scan_pair (by omega) (by omega), scan_other_unit (by omega), scan_other_unit (by omega),
      scan_other_unit (by omega), scan_other_unit (by omega), ih]
  | case4 u v rest h ih =>
    rw [List.map_cons, List.map_cons, units_single]
    unfold scan
    simp only [ih]

/-! ## Positions behind some of the texts -/

theorem after_singleton_nil : after [[]] S = S := by
  ext k
  simp [after]

theorem after_map_cons : after (es.map (u :: ·)) S = after es (reader.stepSet S u) := by
  ext k
  simp [after]

theorem after_append : after (es ++ fs) S = after es S ∪ after fs S := by
  ext k
  simp [after, or_and_right, exists_or]

theorem after_flatMap : after (es.flatMap fun e => fs.map (e ++ ·)) S = after fs (after es S) := by
  ext k
  constructor
  · rintro ⟨x, hx, hk⟩
    obtain ⟨e, he, hx⟩ := List.mem_flatMap.1 hx
    obtain ⟨f, hf, rfl⟩ := List.mem_map.1 hx
    rw [NFA.evalFrom_append, NFA.mem_evalFrom_iff_exists] at hk
    obtain ⟨t, ht, hk⟩ := hk
    exact ⟨f, hf, NFA.mem_evalFrom_iff_exists.2 ⟨t, ⟨e, he, ht⟩, hk⟩⟩
  · rintro ⟨f, hf, hk⟩
    obtain ⟨t, ⟨e, he, ht⟩, hk⟩ := NFA.mem_evalFrom_iff_exists.1 hk
    refine ⟨e ++ f, List.mem_flatMap.2 ⟨e, he, List.mem_map.2 ⟨f, hf, rfl⟩⟩, ?_⟩
    rw [NFA.evalFrom_append]
    exact NFA.mem_evalFrom_iff_exists.2 ⟨t, ht, hk⟩

/-- A position that a unit does not leave is not left by a text. -/
theorem mem_evalFrom_of_stays (hstays : ∀ u, k ∈ moves k u) (hk : k ∈ S) : k ∈ reader.evalFrom S text := by
  induction text generalizing S with
  | nil => exact hk
  | cons u text ih =>
    rw [NFA.evalFrom_cons]
    exact ih (NFA.mem_stepSet.2 ⟨k, hk, hstays u⟩)

theorem done_stays (u : UInt16) : done ∈ moves done u :=
  .inr (.inr (.inr (.inr ⟨rfl, rfl⟩)))

theorem done_mem_after (hne : es ≠ []) (h : done ∈ S) : done ∈ after es S := by
  obtain ⟨e, he⟩ := List.exists_mem_of_ne_nil _ hne
  exact ⟨e, he, mem_evalFrom_of_stays done_stays h⟩

theorem bits_or (m n : ℕ) : bits (m ||| n) = bits m ∪ bits n := by
  ext k
  simp [bits]

theorem bits_zero : bits 0 = ∅ := by
  ext k
  simp [bits]

theorem bits_one : bits 1 = {0} := by
  ext k
  rw [bits, Set.mem_ofPred_eq, Nat.testBit_one_eq_true_iff_self_eq_zero, Set.mem_singleton_iff]

end Automaton

/-! ## The loop reads every expansion -/

/-- The loop reads a part of a word : it finds what it looks for in some expansion of it, or goes on
with the positions behind all of them. -/
def Carries (text : JsString) (es : List JsString) (groups : List Group) : Prop :=
  ∀ states rest, Reading states →
    (done ∈ after es (bits states) ∧ scan groups states (each text ++ rest) = true) ∨
    ∃ states', Reading states' ∧ bits states' = after es (bits states) ∧
      scan groups states (each text ++ rest) = scan groups states' rest

/-- The loop reads the choices of an open group, and leaves the group. -/
def Chooses (text : JsString) (es : List JsString) (outer : List Group) : Prop :=
  ∀ start ends rest, Reading start → ends.testBit done = false →
    (done ∈ after es (bits start) ∧ scan (⟨start, ends⟩ :: outer) start (each text ++ rest) = true) ∨
      ∃ states', Reading states' ∧ bits states' = bits ends ∪ after es (bits start) ∧
        scan (⟨start, ends⟩ :: outer) start (each text ++ rest) = scan outer states' rest

section Carries

variable {inside : Bool} {text text' : JsString} {es fs : List JsString} {groups outer : List Group}
  {u : UInt16}

theorem carries_nil : Carries [] [[]] groups := fun states rest h =>
  .inr ⟨states, h, by rw [after_singleton_nil], rfl⟩

theorem Carries.unit (hu : Literal inside u) (hgroup : groups ≠ [] → inside = true) (hne : es ≠ [])
    (h : Carries text es groups) : Carries (u :: text) (es.map (u :: ·)) groups := by
  intro states rest hr
  have hmark : groups ≠ [] → ([u] : JsString) ≠ [0x2C] ∧ ([u] : JsString) ≠ [0x7D] := fun hg =>
    ⟨fun heq => (hu.2 (hgroup hg)).1 (List.singleton_inj.1 heq),
      fun heq => (hu.2 (hgroup hg)).2 (List.singleton_inj.1 heq)⟩
  have hplain : scan groups states ([u] :: (each text ++ rest)) =
      if (step states [u]).testBit done = true then
      true else scan groups (step states [u]) (each text ++ rest) :=
    scan_plain (fun heq => hu.1 (List.singleton_inj.1 heq)) hmark
  have htext : each (u :: text) ++ rest = [u] :: (each text ++ rest) := rfl
  rw [htext, hplain, after_map_cons, ← bits_step hr]
  split
  · next hdone => exact .inl ⟨done_mem_after hne hdone, rfl⟩
  · next hdone => exact h _ rest (reading_step (by simpa using hdone))

theorem Carries.group (hchoices : Chooses text es groups) (hne : fs ≠ []) (h : Carries text' fs groups) :
    Carries (0x7B :: (text ++ text')) (es.flatMap fun e => fs.map (e ++ ·)) groups := by
  intro states rest hr
  have htext : each (0x7B :: (text ++ text')) ++ rest = [0x7B] :: (each text ++ (each text' ++ rest)) := by
    simp [each]
  rw [htext, scan_open, after_flatMap]
  rcases hchoices states 0 (each text' ++ rest) hr (by decide) with ⟨hdone, hscan⟩ |
    ⟨states', hr', hbits, hscan⟩
  · exact .inl ⟨done_mem_after hne hdone, hscan⟩
  · rw [bits_zero, Set.empty_union] at hbits
    rw [hscan, ← hbits]
    exact h states' rest hr'

theorem Chooses.last (h : ∀ group, Carries text es (group :: outer)) :
    Chooses (text ++ [0x7D]) es outer := by
  intro start ends rest hr hends
  have htext : each (text ++ [0x7D]) ++ rest = each text ++ ([0x7D] :: rest) := by simp [each]
  rw [htext]
  rcases h ⟨start, ends⟩ start ([0x7D] :: rest) hr with hfound | ⟨states', hr', hbits, hscan⟩
  · exact .inl hfound
  · refine .inr ⟨states' ||| ends, ⟨?_, ?_⟩, ?_, by rw [hscan, scan_close]⟩
    · rw [Nat.testBit_or, hr'.start, Bool.true_or]
    · rw [Nat.testBit_or, hr'.notDone, hends, Bool.or_false]
    · rw [bits_or, hbits, Set.union_comm]

theorem Chooses.more (h : ∀ group, Carries text es (group :: outer)) (hmore : Chooses text' fs outer) :
    Chooses (text ++ 0x2C :: text') (es ++ fs) outer := by
  intro start ends rest hr hends
  have htext : each (text ++ 0x2C :: text') ++ rest = each text ++
      ([0x2C] :: (each text' ++ rest)) := by simp [each]
  rw [htext, after_append]
  rcases h ⟨start, ends⟩ start ([0x2C] :: (each text' ++ rest)) hr with ⟨hdone, hscan⟩ |
    ⟨states', hr', hbits, hscan⟩
  · exact .inl ⟨.inl hdone, hscan⟩
  · have hends' : (ends ||| states').testBit done = false := by
      rw [Nat.testBit_or, hr'.notDone, hends, Bool.or_false]
    rw [hscan, scan_comma]
    rcases hmore start _ rest hr hends' with ⟨hdone, hscan⟩ | ⟨states'', hr'', hbits', hscan⟩
    · exact .inl ⟨.inr hdone, hscan⟩
    · exact .inr ⟨states'', hr'', by rw [hbits', bits_or, hbits, Set.union_assoc], hscan⟩

end Carries

mutual

theorem carries_braced {inside : Bool} (groups : List Group) (hgroup : groups ≠ [] → inside = true) :
    (w : Braced inside) → Carries w.text w.expansions groups
  | .nil => carries_nil
  | .unit _ hc rest => (carries_braced groups hgroup rest).unit hc hgroup rest.expansions_ne_nil
  | .group choices rest =>
    Carries.group (chooses_choices groups choices) rest.expansions_ne_nil
      (carries_braced groups hgroup rest)

theorem chooses_choices (outer : List Group) :
    (choices : Choices) → Chooses choices.text choices.expansions outer
  | .last w => Chooses.last fun group => carries_braced (group :: outer) (fun _ => rfl) w
  | .more w rest =>
    Chooses.more (fun group => carries_braced (group :: outer) (fun _ => rfl) w)
      (chooses_choices outer rest)

end

/-- On a word whose groups are closed the loop finds what some expansion holds. -/
theorem scan_braced (w : Braced false) :
    scan [] 1 (each w.text) = true ↔ ∃ e ∈ w.expansions, done ∈ reader.evalFrom {0} e := by
  have hcarries := carries_braced [] (fun h => absurd rfl h) w 1 [] ⟨by decide, by decide⟩
  rw [List.append_nil, bits_one] at hcarries
  rcases hcarries with ⟨hdone, hscan⟩ | ⟨states', hr, hafter, hscan⟩
  · exact iff_of_true hscan hdone
  · refine iff_of_false (by rw [hscan]; simp [scan]) fun hdone => ?_
    have hmem : done ∈ bits states' := by
      rw [hafter]
      exact hdone
    exact absurd (hr.notDone.symm.trans hmem) (by decide)

/-! ## What the automaton reads -/

/-- A text holds `.lynox/workspace/` and later `/../`, whose first slash may be the last of the
prefix. -/
def Leaves (text : JsString) : Prop :=
  ∃ i j, At text WORKSPACE_IN_LYNOX i ∧ At text UP_A_DIR j ∧ i + WORKSPACE_IN_LYNOX.length ≤ j + 1

/-- What a position says about the text in front of it. -/
inductive Seen (text : JsString) : ℕ → Prop
  | part (k : ℕ) (hk : k < before) (h : WORKSPACE_IN_LYNOX.take k <:+ text) : Seen text k
  | behind (i j : ℕ) (hj : j < 4) (hi : At text WORKSPACE_IN_LYNOX i) (hle : i + j + 16 ≤ text.length)
    (h : UP_A_DIR.take j <:+ text) : Seen text (before + j)
  | found (h : Leaves text) : Seen text done

section Reads

variable {text : JsString} {u : UInt16} {i j k : ℕ} {S : Set ℕ}

theorem Leaves.append (h : Leaves text) (t : JsString) : Leaves (text ++ t) := by
  obtain ⟨i, j, hi, hj, hle⟩ := h
  exact ⟨i, j, hi.append_right t, hj.append_right t, hle⟩

theorem take_suffix {w : JsString} (h : w.take k <:+ text) (hk : w[k]? = some u) :
    w.take (k + 1) <:+ text ++ [u] := by
  obtain ⟨front, rfl⟩ := h
  rw [List.take_add_one, hk]
  exact ⟨front, (List.append_assoc _ _ _).symm⟩

/-- The prefix ends with a unit. -/
theorem at_workspace (h : WORKSPACE_IN_LYNOX.take before <:+ text ++ [u]) :
    ∃ i, At (text ++ [u]) WORKSPACE_IN_LYNOX i ∧ i + 16 = text.length := by
  have hwhole : WORKSPACE_IN_LYNOX.take before = WORKSPACE_IN_LYNOX := List.take_length
  rw [hwhole] at h
  have hlen := h.length_le
  have hat := at_of_suffix h
  rw [List.length_append, List.length_singleton] at hlen hat
  refine ⟨_, hat, ?_⟩
  have hseventeen : WORKSPACE_IN_LYNOX.length = 17 := rfl
  omega

/-- A unit that a position waits for. -/
theorem Seen.next (h : Seen text k) (hu : expected k = some u) : Seen (text ++ [u]) (k + 1) := by
  cases h with
  | part k hk h =>
    rw [expected, if_pos hk] at hu
    have hsuffix := take_suffix h hu
    rcases Nat.lt_or_ge (k + 1) before with hlt | hge
    · exact .part _ hlt hsuffix
    · have hlast : k + 1 = before := by omega
      rw [hlast] at hsuffix ⊢
      obtain ⟨i, hi, hlen⟩ := at_workspace hsuffix
      exact .behind i 0 (by decide) hi (by simp; omega) (List.nil_suffix)
  | behind i j hj hi hle h =>
    rw [expected, if_neg (by omega), Nat.add_sub_cancel_left] at hu
    have hsuffix := take_suffix h hu
    rcases Nat.lt_or_ge (j + 1) 4 with hlt | hge
    · exact .behind i (j + 1) hlt (hi.append_right _) (by simp; omega) hsuffix
    · obtain rfl : j = 3 := by omega
      have hat := at_of_suffix hsuffix
      refine .found ⟨i, _, hi.append_right _, hat, ?_⟩
      have hseventeen : WORKSPACE_IN_LYNOX.length = 17 := rfl
      have hfour : (UP_A_DIR.take (3 + 1)).length = 4 := rfl
      rw [hseventeen, hfour, List.length_append, List.length_singleton]
      omega
  | found h => exact absurd (expected_mem hu).1 (lt_irrefl _)

/-- A position is reached behind the text it stands for only. -/
theorem seen_of_mem (h : k ∈ reader.evalFrom {0} text) : Seen text k := by
  induction text using List.reverseRecOn generalizing k with
  | nil =>
    obtain rfl := Set.mem_singleton_iff.1 h
    exact .part 0 (by decide) List.nil_suffix
  | append_singleton text u ih =>
    rw [NFA.evalFrom_append, NFA.evalFrom_singleton, NFA.mem_stepSet] at h
    obtain ⟨t, ht, rfl | ⟨rfl, rfl⟩ | ⟨hu, rfl⟩ | ⟨rfl, rfl, rfl⟩ | ⟨rfl, rfl⟩⟩ := h
    · exact .part 0 (by decide) List.nil_suffix
    · generalize hb : before = b at ht
      cases ih ht with
      | part _ hk h => omega
      | behind i j hj hi hle h =>
        obtain rfl : j = 0 := by omega
        exact .behind i 0 hj (hi.append_right _) (by simp; omega) List.nil_suffix
      | found h => exact absurd hb (by decide)
    · exact (ih ht).next hu
    · generalize hb : before - 1 = b at ht
      cases ih ht with
      | part _ hk h =>
        have hsuffix := take_suffix (u := 0x2F) h (by rw [← hb]; rfl)
        rw [← hb] at hsuffix
        obtain ⟨i, hi, hlen⟩ := at_workspace hsuffix
        exact .behind i 1 (by decide) hi (by simp; omega) (List.suffix_append text [0x2F])
      | behind i j hj hi hle h => rw [before_eq] at hb; omega
      | found h => exact absurd hb (by decide)
    · generalize hb : done = b at ht
      cases ih ht with
      | part k hk h => rw [← hb] at hk; exact absurd hk (by decide)
      | behind i j hj hi hle h => rw [done_eq, before_eq] at hb; omega
      | found h => exact .found (h.append _)

/-- A position goes along a text whose units it waits for. -/
theorem mem_of_expected (hk : k ∈ S) (hall : ∀ n (hn : n < text.length), expected (k + n) = some text[n]) :
    k + text.length ∈ reader.evalFrom S text := by
  induction text generalizing k S with
  | nil => exact hk
  | cons u text ih =>
    rw [NFA.evalFrom_cons, List.length_cons, Nat.add_comm text.length, ← Nat.add_assoc]
    refine ih (NFA.mem_stepSet.2 ⟨k, hk, .inr (.inr (.inl ⟨hall 0 (Nat.succ_pos _), rfl⟩))⟩) fun n hn => ?_
    have hnext := hall (n + 1) (Nat.succ_lt_succ hn)
    rw [show k + (n + 1) = k + 1 + n by omega] at hnext
    exact hnext

/-- The prefix is read, and so is the slash it shares. -/
theorem mem_workspace (h : 0 ∈ S) : before ∈ reader.evalFrom S WORKSPACE_IN_LYNOX ∧
    before + 1 ∈ reader.evalFrom S WORKSPACE_IN_LYNOX := by
  have hlast : before - 1 ∈ reader.evalFrom S (WORKSPACE_IN_LYNOX.take 16) :=
    mem_of_expected h (by decide)
  have hsplit : WORKSPACE_IN_LYNOX = WORKSPACE_IN_LYNOX.take 16 ++ [0x2F] := rfl
  rw [hsplit, NFA.evalFrom_append, NFA.evalFrom_singleton]
  exact ⟨NFA.mem_stepSet.2 ⟨_, hlast, .inr (.inr (.inl ⟨rfl, rfl⟩))⟩,
    NFA.mem_stepSet.2 ⟨_, hlast, .inr (.inr (.inr (.inl ⟨rfl, rfl, rfl⟩)))⟩⟩

theorem zero_mem : 0 ∈ reader.evalFrom {0} text :=
  mem_evalFrom_of_stays (fun _ => .inl rfl) rfl

theorem mem_of_at (h : At text WORKSPACE_IN_LYNOX i) : before ∈ reader.evalFrom {0} text := by
  obtain ⟨rest, hrest⟩ := h
  rw [← List.take_append_drop i text, ← hrest, NFA.evalFrom_append, NFA.evalFrom_append]
  exact mem_evalFrom_of_stays (fun _ => .inr (.inl ⟨rfl, rfl⟩)) (mem_workspace zero_mem).1

/-- The automaton reads the texts that leave the workspace. -/
theorem done_mem_iff : done ∈ reader.evalFrom {0} text ↔ Leaves text := by
  constructor
  · intro h
    generalize hb : done = b at h
    cases seen_of_mem h with
    | part k hk h => rw [← hb] at hk; exact absurd hk (by decide)
    | behind i j hj hi hle h => rw [done_eq, before_eq] at hb; omega
    | found hleaves => exact hleaves
  · rintro ⟨i, j, hi, hj, hle⟩
    have hseventeen : WORKSPACE_IN_LYNOX.length = 17 := rfl
    rcases Nat.lt_or_ge j (i + 17) with hlt | hge
    · obtain rfl : j = i + 16 := by omega
      obtain ⟨rest, hrest⟩ := hi
      obtain ⟨rest', hrest'⟩ := hj
      have hbehind : [0x2E, 0x2E, 0x2F] ++ rest' = rest := by
        rw [← List.drop_drop, ← hrest] at hrest'
        exact List.cons_inj_right 0x2F |>.1 hrest'
      rw [← List.take_append_drop i text, ← hrest, ← hbehind, NFA.evalFrom_append, NFA.evalFrom_append,
        NFA.evalFrom_append]
      exact mem_evalFrom_of_stays done_stays
        (mem_of_expected (mem_workspace zero_mem).2 (by decide) : before + 1 + 3 ∈ _)
    · obtain ⟨rest, hrest⟩ := hj
      have hread := mem_of_at (hi.take (j := j) (by rw [hseventeen]; exact hge))
      rw [← List.take_append_drop j text, ← hrest, NFA.evalFrom_append, NFA.evalFrom_append]
      exact mem_evalFrom_of_stays done_stays (mem_of_expected hread (by decide) : before + 4 ∈ _)

end Reads

/-! ## Dots that can meet -/

section Dots

variable {text seen rest : JsString} {u : UInt16} {k states : ℕ} {groups : List Group}

/-- What behind a dot lets two dots meet. -/
def Meets (u : UInt16) : Prop :=
  u = 0x2E ∨ u = 0x7B ∨ u = 0x7D ∨ u = 0x2C

theorem dotsCanMeet_cons_cons {c d : UInt16} : dotsCanMeet (c :: d :: rest) = true ↔
    (c = 0x2E ∧ Meets d) ∨ dotsCanMeet (d :: rest) = true := by
  rw [dotsCanMeet, Meets]
  simp only [Bool.or_eq_true, Bool.and_eq_true, decide_eq_true_eq, or_assoc]

theorem dotsCanMeet_append_cons : dotsCanMeet (seen ++ u :: rest) = true ↔
    dotsCanMeet (seen ++ [u]) = true ∨ dotsCanMeet (u :: rest) = true := by
  induction seen with
  | nil => simp [dotsCanMeet]
  | cons c seen ih =>
    cases seen with
    | nil =>
      rw [List.cons_append, List.cons_append, List.nil_append, List.nil_append, dotsCanMeet_cons_cons,
        dotsCanMeet_cons_cons]
      simp [dotsCanMeet]
    | cons d seen =>
      rw [List.cons_append, List.cons_append, List.cons_append, List.cons_append, dotsCanMeet_cons_cons,
        dotsCanMeet_cons_cons, or_assoc, ← List.cons_append, ih]
      rfl

theorem dotsCanMeet_append (h : dotsCanMeet seen = true) : dotsCanMeet (seen ++ rest) = true := by
  induction seen with
  | nil => exact absurd h (by decide)
  | cons c seen ih =>
    cases seen with
    | nil => exact absurd h (by simp [dotsCanMeet])
    | cons d seen => exact dotsCanMeet_cons_cons.2 ((dotsCanMeet_cons_cons.1 h).imp_right ih)

theorem dotsCanMeet_of_last (h : seen.getLast? = some 0x2E) (hu : Meets u) :
    dotsCanMeet (seen ++ [u]) = true := by
  obtain ⟨front, rfl⟩ := List.getLast?_eq_some_iff.1 h
  rw [List.append_assoc]
  exact dotsCanMeet_append_cons.2 (.inr (dotsCanMeet_cons_cons.2 (.inl ⟨rfl, hu⟩)))

/-- What the positions say about the dots of the text in front of them. -/
structure Dotted (seen : JsString) (groups : List Group) (states : ℕ) : Prop where
  dot : states.testBit (before + 2) = true → seen.getLast? = some 0x2E ∨ dotsCanMeet seen = true
  dots : ∀ k, before + 2 < k → states.testBit k = true → dotsCanMeet seen = true
  groups : ∀ group ∈ groups, ∀ k, before + 2 ≤ k →
    group.start.testBit k = true ∨ group.ends.testBit k = true → dotsCanMeet seen = true

/-- Brace syntax behind the text. -/
theorem Dotted.mark (h : Dotted seen groups states) (hu : Meets u) (hk : before + 2 ≤ k)
    (hbit : states.testBit k = true) : dotsCanMeet (seen ++ [u]) = true := by
  rcases Nat.eq_or_lt_of_le hk with rfl | hlt
  · rcases h.dot hbit with hlast | hmeet
    · exact dotsCanMeet_of_last hlast hu
    · exact dotsCanMeet_append hmeet
  · exact dotsCanMeet_append (h.dots k hlt hbit)

theorem Dotted.open (h : Dotted seen groups states) :
    Dotted (seen ++ [0x7B]) (⟨states, 0⟩ :: groups) states where
  dot hbit := .inr (h.mark (.inr (.inl rfl)) le_rfl hbit)
  dots k hk hbit := h.mark (.inr (.inl rfl)) hk.le hbit
  groups group hgroup k hk hbit := by
    rcases List.mem_cons.1 hgroup with rfl | hgroup
    · rcases hbit with hbit | hbit
      · exact h.mark (.inr (.inl rfl)) hk hbit
      · exact absurd hbit (by simp)
    · exact dotsCanMeet_append (h.groups group hgroup k hk hbit)

theorem Dotted.comma {group : Group} (h : Dotted seen (group :: groups) states) :
    Dotted (seen ++ [0x2C]) (⟨group.start, group.ends ||| states⟩ :: groups) group.start := by
  have hstart : ∀ k, before + 2 ≤ k → group.start.testBit k = true → dotsCanMeet (seen ++ [0x2C]) = true :=
    fun k hk hbit => dotsCanMeet_append (h.groups group List.mem_cons_self k hk (.inl hbit))
  refine ⟨fun hbit => .inr (hstart _ le_rfl hbit), fun k hk => hstart k hk.le, fun g hg k hk hbit => ?_⟩
  rcases List.mem_cons.1 hg with rfl | hg
  · rw [Nat.testBit_or, Bool.or_eq_true] at hbit
    rcases hbit with hbit | hbit | hbit
    · exact hstart k hk hbit
    · exact dotsCanMeet_append (h.groups group List.mem_cons_self k hk (.inr hbit))
    · exact h.mark (.inr (.inr (.inr rfl))) hk hbit
  · exact dotsCanMeet_append (h.groups g (List.mem_cons_of_mem _ hg) k hk hbit)

theorem Dotted.close {group : Group} (h : Dotted seen (group :: groups) states) :
    Dotted (seen ++ [0x7D]) groups (states ||| group.ends) := by
  have hall : ∀ k, before + 2 ≤ k → (states ||| group.ends).testBit k = true →
      dotsCanMeet (seen ++ [0x7D]) = true := by
    intro k hk hbit
    rw [Nat.testBit_or, Bool.or_eq_true] at hbit
    rcases hbit with hbit | hbit
    · exact h.mark (.inr (.inr (.inl rfl))) hk hbit
    · exact dotsCanMeet_append (h.groups group List.mem_cons_self k hk (.inr hbit))
  exact ⟨fun hbit => .inr (hall _ le_rfl hbit), fun k hk => hall k hk.le,
    fun g hg k hk hbit => dotsCanMeet_append (h.groups g (List.mem_cons_of_mem _ hg) k hk hbit)⟩

theorem Dotted.plain (h : Dotted seen groups states) : Dotted (seen ++ [u]) groups (step states [u]) := by
  have hdot : ∀ {bit}, (expected bit).map (fun u => [u]) = some [u] → expected bit = some u :=
    fun hmap => by
    obtain ⟨w, hw, heq⟩ := Option.map_eq_some_iff.1 hmap
    rwa [List.singleton_inj.1 heq] at hw
  refine ⟨fun hbit => ?_, fun k hk hbit => ?_, fun g hg k hk hbit =>
    dotsCanMeet_append (h.groups g hg k hk hbit)⟩
  · obtain hk | ⟨hk, -⟩ | ⟨bit, -, hu, hk⟩ | ⟨hk, -⟩ := testBit_step.1 hbit
    · exact absurd hk (by decide)
    · exact absurd hk (by decide)
    · obtain rfl : before + 1 = bit := by omega
      rw [← Option.some.inj (hdot hu), List.getLast?_concat]
      exact .inl rfl
    · exact absurd hk (by decide)
  · obtain rfl | ⟨rfl, -⟩ | ⟨bit, hread, hu, rfl⟩ | ⟨rfl, -⟩ := testBit_step.1 hbit
    · exact absurd hk (by decide)
    · exact absurd hk (by omega)
    · rcases Nat.eq_or_lt_of_le (Nat.le_of_lt_succ hk) with heq | hlt
      · rw [← heq] at hread hu
        exact h.mark (.inl (Option.some.inj (hdot hu)).symm) le_rfl hread
      · exact dotsCanMeet_append (h.dots bit hlt hread)
    · exact absurd hk (by omega)

theorem testBit_collected : (groups.foldl
    (fun states group => states ||| group.ends) states).testBit k = true ↔
    states.testBit k = true ∨ ∃ group ∈ groups, group.ends.testBit k = true := by
  induction groups generalizing states with
  | nil => simp
  | cons group groups ih =>
    rw [List.foldl_cons, ih, Nat.testBit_or, Bool.or_eq_true, or_assoc]
    simp

/-- Where the loop finds what it looks for, two dots can meet behind where it began. -/
theorem Dotted.scan (h : Dotted seen groups states) (hscan : scan groups states (each text) = true) :
    dotsCanMeet (seen ++ text) = true := by
  induction text generalizing seen groups states with
  | nil =>
    rw [List.append_nil]
    have hlate : ∀ k, before + 2 < k →
        (groups.foldl (fun states group => states ||| group.ends) states).testBit k
        = true → dotsCanMeet seen = true := by
      intro k hk hbit
      rcases testBit_collected.1 hbit with hbit | ⟨group, hgroup, hbit⟩
      · exact h.dots k hk hbit
      · exact h.groups group hgroup k hk.le (.inr hbit)
    rw [each, List.map_nil, BraceWord.scan] at hscan
    split at hscan
    · exact absurd hscan (by decide)
    · rcases Bool.or_eq_true_iff.1 hscan with hbit | hbit
      · exact hlate _ (by decide) hbit
      · exact hlate _ (by decide) hbit
  | cons u text ih =>
    rw [← List.singleton_append, ← List.append_assoc]
    rw [each, List.map_cons, ← each] at hscan
    by_cases hopen : u = 0x7B
    · rw [hopen, scan_open] at hscan
      rw [hopen]
      exact ih h.open hscan
    · by_cases hmark : groups ≠ [] ∧ (u = 0x2C ∨ u = 0x7D)
      · obtain ⟨hne, hmark⟩ := hmark
        obtain ⟨group, outer, rfl⟩ := List.exists_cons_of_ne_nil hne
        rcases hmark with rfl | rfl
        · rw [scan_comma] at hscan
          exact ih h.comma hscan
        · rw [scan_close] at hscan
          exact ih h.close hscan
      · have hgroup : groups ≠ [] → ([u] : JsString) ≠ [0x2C] ∧ ([u] : JsString) ≠ [0x7D] := fun hne =>
          ⟨fun heq => hmark ⟨hne, .inl (List.singleton_inj.1 heq)⟩,
            fun heq => hmark ⟨hne, .inr (List.singleton_inj.1 heq)⟩⟩
        rw [scan_plain (fun heq => hopen (List.singleton_inj.1 heq)) hgroup] at hscan
        split at hscan
        · next hdone => exact dotsCanMeet_append (h.plain.dots done (by decide) hdone)
        · exact ih h.plain hscan

end Dots

/-! ## Words that spell the workspace -/

section Spelled

variable {word path front rest : JsString} {c : UInt16} {i k : ℕ} {lower : JsString → JsString}

theorem joinSlashes_of_not_mem (h : 0x2F ∉ front) :
    joinSlashes (front ++ rest) = front ++ joinSlashes rest := by
  induction front with
  | nil => rfl
  | cons c front ih =>
    obtain ⟨hc, hfront⟩ := not_or.1 (mt List.mem_cons.2 h)
    rw [List.cons_append, joinSlashes, if_neg fun hno => hc hno.1.symm, ih hfront, List.cons_append]

theorem joinSlashes_self (h : 0x2F ∉ word) : joinSlashes word = word := by
  have hword : joinSlashes (word ++ []) = word ++ [] := joinSlashes_of_not_mem h
  rwa [List.append_nil] at hword

theorem head?_append_of_not_mem (hne : front ≠ []) (h : 0x2F ∉ front) :
    (front ++ rest).head? ≠ some 0x2F := by
  obtain ⟨c, front, rfl⟩ := List.exists_cons_of_ne_nil hne
  rintro heq
  obtain rfl := Option.some.inj heq
  exact h List.mem_cons_self

theorem lower_slash (h : LowerCase lower) : lower (0x2F :: rest) = 0x2F :: lower rest := by
  have hslash := h.slash [] rest
  rwa [(h.nil []).2 rfl] at hslash

theorem head?_lower (h : LowerCase lower) (word : JsString) :
    (lower word).head? = some 0x2F ↔ word.head? = some 0x2F := by
  match word with
  | [] => rw [(h.nil []).2 rfl]
  | c :: rest =>
    by_cases hc : c = 0x2F
    · rw [hc, lower_slash h]
      rfl
    · refine iff_of_false ?_ fun heq => hc (Option.some.inj heq)
      by_cases hmem : 0x2F ∈ c :: rest
      · obtain ⟨front, back, heq, hfront⟩ := List.eq_append_cons_of_mem hmem
        have hne : front ≠ [] := by
          rintro rfl
          exact hc (List.cons.inj heq).1
        rw [heq, h.slash]
        exact head?_append_of_not_mem (mt (h.nil front).1 hne) (h.noSlash front hfront)
      · exact fun heq => h.noSlash _ hmem (List.mem_of_mem_head? heq)

/-- Runs of slashes are joined before the case is mapped or behind. -/
theorem joinSlashes_lower (h : LowerCase lower) (word : JsString) :
    joinSlashes (lower word) = lower (joinSlashes word) := by
  suffices hall : ∀ n, ∀ word : JsString, word.length ≤ n → joinSlashes (lower word) =
      lower (joinSlashes word) from
    hall _ word le_rfl
  intro n
  induction n with
  | zero =>
    intro word hlen
    obtain rfl := List.eq_nil_of_length_eq_zero (Nat.le_zero.1 hlen)
    rw [joinSlashes, (h.nil []).2 rfl, joinSlashes]
  | succ n ih =>
    intro word hlen
    by_cases hmem : 0x2F ∈ word
    · obtain ⟨front, back, rfl, hfront⟩ := List.eq_append_cons_of_mem hmem
      rw [List.length_append, List.length_cons] at hlen
      have hlower := h.noSlash front hfront
      rw [h.slash, joinSlashes_of_not_mem hlower, joinSlashes_of_not_mem hfront, joinSlashes, joinSlashes]
      by_cases hhead : back.head? = some 0x2F
      · have hshort := ih (front ++ back) (by rw [List.length_append]; omega)
        obtain ⟨back', rfl⟩ := List.head?_eq_some_iff.1 hhead
        rw [if_pos ⟨rfl, (head?_lower h _).2 hhead⟩, if_pos ⟨rfl, hhead⟩, lower_slash h]
        rwa [h.slash, joinSlashes_of_not_mem hlower, joinSlashes_of_not_mem hfront] at hshort
      · rw [if_neg fun hno => hhead ((head?_lower h _).1 hno.2), if_neg fun hno => hhead hno.2, h.slash,
          ih back (by omega)]
    · rw [joinSlashes_self hmem, joinSlashes_self (h.noSlash word hmem)]

/-- The positions behind the first prefix that is spelled without a brace in front of it. -/
theorem scan_front (hbrace : 0x7B ∉ front)
    (hfirst : ∀ i < front.length, ¬ At (front ++ WORKSPACE_IN_LYNOX) WORKSPACE_IN_LYNOX i)
    (rest : JsString) : ∃ states, Dotted [] [] states ∧
      scan [] 1 (each (front ++ WORKSPACE_IN_LYNOX ++ rest)) = scan [] states (each rest) := by
  have hseventeen : WORKSPACE_IN_LYNOX.length = 17 := rfl
  have hleaves : ¬ Leaves (front ++ WORKSPACE_IN_LYNOX) := by
    rintro ⟨i, j, hi, hj, hle⟩
    have hlen := hj.le (hj.lt (List.cons_ne_nil _ _)).le
    have hfour : UP_A_DIR.length = 4 := rfl
    rw [List.length_append] at hlen
    exact hfirst i (by omega) hi
  have hword : 0x7B ∉ front ++ WORKSPACE_IN_LYNOX := fun hmem =>
    (List.mem_append.1 hmem).elim hbrace (by decide)
  obtain ⟨w, hw, hexp⟩ := exists_literal hword
  have hcarries := carries_braced [] (fun h => absurd rfl h) w 1 (each rest) ⟨by decide, by decide⟩
  rw [hw, hexp, bits_one] at hcarries
  have heach : each (front ++ WORKSPACE_IN_LYNOX ++ rest) = each (front ++ WORKSPACE_IN_LYNOX) ++
      each rest :=
    List.map_append
  rcases hcarries with ⟨⟨e, he, hdone⟩, -⟩ | ⟨states, -, hafter, hscan⟩
  · obtain rfl := List.mem_singleton.1 he
    exact absurd (done_mem_iff.1 hdone) hleaves
  · have hlate : ∀ k, before + 2 ≤ k → states.testBit k = true → False := by
      intro k hk hbit
      have hmem : k ∈ after [front ++ WORKSPACE_IN_LYNOX] {0} := by
        rw [← hafter]
        exact hbit
      obtain ⟨e, he, hmem⟩ := hmem
      obtain rfl := List.mem_singleton.1 he
      cases seen_of_mem hmem with
      | part _ hlt _ => omega
      | behind i j hj hi hle _ =>
        rw [List.length_append] at hle
        exact hfirst i (by omega) hi
      | found h => exact hleaves h
    refine ⟨states, ⟨fun hbit => (hlate _ le_rfl hbit).elim, fun k hk hbit => (hlate k hk.le hbit).elim,
      fun group hgroup => absurd hgroup List.not_mem_nil⟩, ?_⟩
    rw [heach, hscan]

theorem dotted_start : Dotted [] [] 1 where
  dot hbit := absurd hbit (by decide)
  dots k hk hbit := by
    rw [Nat.testBit_one_eq_true_iff_self_eq_zero] at hbit
    omega
  groups group hgroup := absurd hgroup List.not_mem_nil

theorem dotsCanMeet_workspace : dotsCanMeet (WORKSPACE_IN_LYNOX ++ rest) = dotsCanMeet rest := by
  cases rest with
  | nil => rfl
  | cons c rest => simp [WORKSPACE_IN_LYNOX, dotsCanMeet]

/-- Behind the first prefix that is spelled two dots can meet, where the loop finds what it looks for. -/
theorem dotsCanMeet_of_scan (hindex : indexOf path WORKSPACE_IN_LYNOX 0 = some i)
    (hfront : 0x7B ∉ path.take i ∨ dotsCanMeet (path.take i ++ [0x2E]) = false)
    (hscan : scan [] 1 (each path) = true) :
    dotsCanMeet (path.drop (i + WORKSPACE_IN_LYNOX.length)) = true := by
  have hne : WORKSPACE_IN_LYNOX ≠ [] := List.cons_ne_nil _ _
  obtain ⟨-, hat, hfirst⟩ := (indexOf_eq_some_iff hne).1 hindex
  have hlen : (path.take i).length = i := by
    rw [List.length_take]
    exact Nat.min_eq_left (hat.lt hne).le
  obtain ⟨rest, hrest⟩ := hat
  have hpath : path = path.take i ++ WORKSPACE_IN_LYNOX ++ rest := by
    rw [List.append_assoc, hrest, List.take_append_drop]
  have hdrop : path.drop (i + WORKSPACE_IN_LYNOX.length) = rest := by
    rw [← List.drop_drop, ← hrest, List.drop_left]
  rw [hdrop]
  rcases hfront with hbrace | hdots
  · rw [hpath] at hscan
    obtain ⟨states, hdotted, heq⟩ := scan_front hbrace (fun k hk hat => by
      rw [hlen] at hk
      refine hfirst k (Nat.zero_le k) hk ?_
      rw [hpath]
      exact hat.append_right rest) rest
    rw [heq] at hscan
    exact hdotted.scan hscan
  · have hmeet := dotted_start.scan hscan
    rw [List.nil_append, hpath, List.append_assoc] at hmeet
    have hsplit : WORKSPACE_IN_LYNOX ++ rest = 0x2E :: (WORKSPACE_IN_LYNOX.tail ++ rest) := rfl
    rw [hsplit, dotsCanMeet_append_cons, hdots, ← hsplit, dotsCanMeet_workspace] at hmeet
    simpa using hmeet

end Spelled

end BraceWord

open BraceWord

theorem bracesLeaveWorkspace_word {lower : JsString → JsString} {word : JsString}
    (hword : ∀ c ∈ word, isWhite c = false) : bracesLeaveWorkspace lower word = true ↔
      0x7B ∈ word ∧ ∃ i, indexOf (joinSlashes (lower word)) WORKSPACE_IN_LYNOX 0 = some i ∧
        dotsCanMeet ((joinSlashes (lower word)).drop (i + WORKSPACE_IN_LYNOX.length)) = true ∧
          braceWordLeavesWorkspace lower (joinSlashes (lower word)) = true := by
  rw [bracesLeaveWorkspace, splitWhite_word hword, List.any_cons, List.any_nil, Bool.or_false]
  split
  · next h => exact iff_of_false (by decide) fun hmem => h hmem.1
  · next h =>
    simp only
    split
    · next hnone => simp [hnone]
    · next i hi => simp [hi, not_not.1 h]

/-- On a word whose groups are closed, lower-cased, the loop finds what some expansion holds. Of a
word without white space, it finds what the guard in front of it finds on the word with its runs of
slashes joined, and the other way round where the word opens a group and spells the prefix, either
with no group opened in front of it or with no dot there that a dot or brace syntax follows. -/
theorem braceWordLeavesWorkspace_iff (lower : JsString → JsString) (word : JsString) :
    ((closes 0 (lower word) = true → ∃ w : Braced false, w.text = lower word) ∧
      ∀ w : Braced false, w.text = lower word →
        (braceWordLeavesWorkspace lower word = true ↔ ∃ e ∈ w.expansions, Leaves e)) ∧
    (LowerCase lower → (∀ c ∈ word, isWhite c = false) →
      (bracesLeaveWorkspace lower word = true → braceWordLeavesWorkspace lower (joinSlashes word) = true) ∧
      ∀ i, 0x7B ∈ word → indexOf (joinSlashes (lower word)) WORKSPACE_IN_LYNOX 0 = some i →
        (0x7B ∉ (joinSlashes (lower word)).take i ∨
          dotsCanMeet ((joinSlashes (lower word)).take i ++ [0x2E]) = false) →
        bracesLeaveWorkspace lower word = braceWordLeavesWorkspace lower (joinSlashes word)) := by
  refine ⟨⟨exists_braced, fun w hw => ?_⟩, fun hlower hwhite => ?_⟩
  · rw [braceWordLeavesWorkspace, scan_characters, ← hw, scan_braced]
    simp only [done_mem_iff]
  · have hpath : braceWordLeavesWorkspace lower (joinSlashes (lower word)) =
        braceWordLeavesWorkspace lower (joinSlashes word) := by
      rw [braceWordLeavesWorkspace, braceWordLeavesWorkspace, joinSlashes_lower hlower, hlower.lower_lower]
    refine ⟨fun h => ?_, fun i hopen hindex hfront => Bool.eq_iff_iff.2 ⟨fun h => ?_, fun h => ?_⟩⟩
    · obtain ⟨-, i, -, -, hleaves⟩ := (bracesLeaveWorkspace_word hwhite).1 h
      rwa [hpath] at hleaves
    · obtain ⟨-, i, -, -, hleaves⟩ := (bracesLeaveWorkspace_word hwhite).1 h
      rwa [hpath] at hleaves
    · rw [← hpath] at h
      refine (bracesLeaveWorkspace_word hwhite).2
        ⟨hopen, i, hindex, dotsCanMeet_of_scan hindex hfront ?_, h⟩
      rwa [braceWordLeavesWorkspace, scan_characters, joinSlashes_lower hlower, hlower.lower_lower,
        ← joinSlashes_lower hlower] at h

/-! ## Words with letters of ASCII -/

/-- The lower case of letters of ASCII. -/
def lowerLetters (s : JsString) : JsString :=
  s.map lowerAscii

theorem lowerAscii_eq_slash {c : UInt16} : lowerAscii c = 0x2F ↔ c = 0x2F := by
  unfold lowerAscii
  split
  · next h =>
    rw [← UInt16.toNat_inj, ← UInt16.toNat_inj, UInt16.toNat_add]
    simp only [UInt16.toNat_ofNat]
    omega
  · exact Iff.rfl

theorem lowerAscii_lowerAscii (c : UInt16) : lowerAscii (lowerAscii c) = lowerAscii c := by
  by_cases h : 0x41 ≤ c.toNat ∧ c.toNat ≤ 0x5A
  · have hlower : lowerAscii c = c + 0x20 := if_pos h
    rw [hlower]
    refine if_neg ?_
    rw [UInt16.toNat_add]
    simp only [UInt16.toNat_ofNat]
    omega
  · have hlower : lowerAscii c = c := if_neg h
    rw [hlower, hlower]

theorem lowerCase_lowerLetters : LowerCase lowerLetters where
  nil a := List.map_eq_nil_iff
  noSlash a h hmem := by
    obtain ⟨c, hc, heq⟩ := List.mem_map.1 hmem
    rw [lowerAscii_eq_slash.1 heq] at hc
    exact h hc
  slash a b := by
    rw [lowerLetters, List.map_append, List.map_cons, lowerAscii_eq_slash.2 rfl]
    rfl
  lower_lower a := by
    rw [lowerLetters, lowerLetters, List.map_map]
    exact List.map_congr_left fun c _ => lowerAscii_lowerAscii c

/-- `.lynox/workspace/{..,x}/` -/
def dotsWord : JsString :=
  [0x2E, 0x6C, 0x79, 0x6E, 0x6F, 0x78, 0x2F, 0x77, 0x6F, 0x72, 0x6B, 0x73, 0x70, 0x61, 0x63, 0x65, 0x2F,
    0x7B, 0x2E, 0x2E, 0x2C, 0x78, 0x7D, 0x2F]

theorem braceWordLeavesWorkspace_dotsWord :
    (∃ w : Braced false, w.text = lowerLetters dotsWord ∧ ∃ e ∈ w.expansions, Leaves e) ∧
      bracesLeaveWorkspace lowerLetters dotsWord =
        braceWordLeavesWorkspace lowerLetters (joinSlashes dotsWord) := by
  obtain ⟨⟨hexists, hiff⟩, hagree⟩ := braceWordLeavesWorkspace_iff lowerLetters dotsWord
  obtain ⟨w, hw⟩ := hexists (by decide +kernel)
  refine ⟨⟨w, hw, (hiff w hw).1 (by decide +kernel)⟩, ?_⟩
  have hwhite : ∀ c ∈ dotsWord, isWhite c = false := List.forall_iff_forall_mem.1 (by decide +kernel)
  exact (hagree lowerCase_lowerLetters hwhite).2 0 (by decide +kernel) (by decide +kernel)
    (.inl (by decide +kernel))

/-- `.lynox/workspace/../x` opens no group. -/
def plainWord : JsString :=
  [0x2E, 0x6C, 0x79, 0x6E, 0x6F, 0x78, 0x2F, 0x77, 0x6F, 0x72, 0x6B, 0x73, 0x70, 0x61, 0x63, 0x65, 0x2F,
    0x2E, 0x2E, 0x2F, 0x78]

/-- `{.lynox/workspace,x}/../.lynox/workspace/` leaves the workspace before it spells it. -/
def earlyWord : JsString :=
  [0x7B, 0x2E, 0x6C, 0x79, 0x6E, 0x6F, 0x78, 0x2F, 0x77, 0x6F, 0x72, 0x6B, 0x73, 0x70, 0x61, 0x63, 0x65,
    0x2C, 0x78, 0x7D, 0x2F, 0x2E, 0x2E, 0x2F, 0x2E, 0x6C, 0x79, 0x6E, 0x6F, 0x78, 0x2F, 0x77, 0x6F, 0x72,
    0x6B, 0x73, 0x70, 0x61, 0x63, 0x65, 0x2F]

/-- `.LYNOX/workspace/{..,x}/` -/
def upperWord : JsString :=
  [0x2E, 0x4C, 0x59, 0x4E, 0x4F, 0x58, 0x2F, 0x77, 0x6F, 0x72, 0x6B, 0x73, 0x70, 0x61, 0x63, 0x65, 0x2F,
    0x7B, 0x2E, 0x2E, 0x2C, 0x78, 0x7D, 0x2F]

/-- A word spells the prefix where no group is opened, or behind braces that left the workspace :
the guard in front of the loop does not read it. And the loop reads letters in either case. -/
theorem not_bracesLeaveWorkspace_agrees :
    (At plainWord WORKSPACE_IN_LYNOX 0 ∧ closes 0 plainWord = true ∧
      bracesLeaveWorkspace lowerLetters plainWord = false ∧
        braceWordLeavesWorkspace lowerLetters (joinSlashes plainWord) = true) ∧
    (At earlyWord WORKSPACE_IN_LYNOX 24 ∧ closes 0 earlyWord = true ∧
      bracesLeaveWorkspace lowerLetters earlyWord = false ∧
        braceWordLeavesWorkspace lowerLetters (joinSlashes earlyWord) = true) ∧
    (closes 0 upperWord = true ∧ braceWordLeavesWorkspace lowerLetters upperWord = true ∧
      ∀ w : Braced false, w.text = upperWord → ∀ e ∈ w.expansions, ¬ Leaves e) := by
  refine ⟨by decide +kernel, by decide +kernel, by decide +kernel, by decide +kernel,
    fun w hw e he hleaves => ?_⟩
  have hscan : scan [] 1 (each upperWord) = true := by
    rw [← hw]
    exact (scan_braced w).2 ⟨e, he, done_mem_iff.2 hleaves⟩
  exact absurd hscan (by decide +kernel)

end Lynox.Guard
