import Lynox.Text.JsonTree

/-!
# Keys that repeat

`jsonRepeatsAKey` looks for an object that names one key twice without parsing the text : it keeps a frame
for each array and object it is in, and reads a string as a key where the frame on top expects one. On a text
that parses the scan ends, and finds exactly the objects of the tree with two members of one name
(`jsonRepeatsAKey_iff`).
-/

namespace Lynox.Outbound

open Text

/-- An array or an object the scan is in. The keys are those of an object. -/
structure Frame where
  keys : Option (List JsString)
  expectKey : Bool

/-- The units of a string up to its closing quote, from behind its opening one. The loop goes on for good
where there is none. -/
def stringEnd : JsString → Option (JsString × JsString)
  | [] => none
  | u :: rest =>
    if u = 0x22 then some ([], rest)
    else if u = 0x5C then
      match rest with
      | [] => none
      | v :: rest => (stringEnd rest).map (prepend [u, v])
    else (stringEnd rest).map (prepend [u])

theorem stringEnd_quote {rest : JsString} : stringEnd (0x22 :: rest) = some ([], rest) := by
  rw [stringEnd.eq_def]
  rfl

theorem stringEnd_escape {v : UInt16} {rest : JsString} :
    stringEnd (0x5C :: v :: rest) = (stringEnd rest).map (prepend [0x5C, v]) := by
  rw [stringEnd.eq_def]
  rfl

theorem stringEnd_plain {u : UInt16} {rest : JsString} (hquote : u ≠ 0x22) (hback : u ≠ 0x5C) :
    stringEnd (u :: rest) = (stringEnd rest).map (prepend [u]) := by
  rw [stringEnd.eq_def]
  simp only [hquote, hback, if_false]

theorem eq_of_stringEnd {s raw after : JsString} (h : stringEnd s = some (raw, after)) :
    s = raw ++ 0x22 :: after := by
  induction s using stringEnd.induct generalizing raw with
  | case1 => exact absurd h (by simp [stringEnd])
  | case2 rest =>
    rw [stringEnd_quote, Option.some.injEq, Prod.mk.injEq] at h
    rw [← h.1, ← h.2, List.nil_append]
  | case3 => exact absurd h (by simp [stringEnd])
  | case4 _ v rest ih =>
    rw [stringEnd_escape] at h
    obtain ⟨raw', hout, rfl⟩ := map_read_eq_some.1 h
    rw [ih hout]
    rfl
  | case5 u rest hquote hback ih =>
    rw [stringEnd_plain hquote hback] at h
    obtain ⟨raw', hout, rfl⟩ := map_read_eq_some.1 h
    rw [ih hout]
    rfl

theorem length_stringEnd {s raw after : JsString} (h : stringEnd s = some (raw, after)) :
    after.length < s.length := by
  rw [eq_of_stringEnd h, List.length_append, List.length_cons]
  omega

/-- The frames behind a unit that is no quote. -/
def framesBehind (c : UInt16) (frames : List Frame) : List Frame :=
  if c = 0x7B then ⟨some [], true⟩ :: frames
  else if c = 0x5B then ⟨none, false⟩ :: frames
  else if c = 0x7D ∨ c = 0x5D then frames.tail
  else if c = 0x2C then
    match frames with
    | top :: below => (if top.keys.isSome then { top with expectKey := true } else top) :: below
    | [] => []
  else frames

/-- The scan, `none` where it throws or never ends. -/
def scanKeys (frames : List Frame) (text : JsString) : Option Bool :=
  match text with
  | [] => some false
  | c :: rest =>
    if c = 0x22 then
      match h : stringEnd rest with
      | none => none
      | some (raw, after) =>
        have := length_stringEnd h
        match frames with
        | ⟨some keys, true⟩ :: below =>
          match parse (0x22 :: raw ++ [0x22]) with
          | some (.string key) =>
            if key ∈ keys then some true else scanKeys (⟨some (keys ++ [key]), false⟩ :: below) after
          | _ => none
        | frames => scanKeys frames after
    else scanKeys (framesBehind c frames) rest
termination_by text.length
decreasing_by all_goals (simp_wf; try omega)

/-- Whether any object of a JSON text names one key twice. -/
def jsonRepeatsAKey (text : JsString) : Option Bool :=
  scanKeys [] text

/-! ## The units the scan passes -/

/-- The frame on top expects no key. -/
def Quiet (frames : List Frame) : Prop :=
  ∀ f ∈ frames.head?, f.keys = none ∨ f.expectKey = false

/-- A unit that opens and closes nothing. -/
def Idle (u : UInt16) : Prop :=
  u ≠ 0x22 ∧ u ≠ 0x7B ∧ u ≠ 0x5B ∧ u ≠ 0x7D ∧ u ≠ 0x5D ∧ u ≠ 0x2C

instance (u : UInt16) : Decidable (Idle u) :=
  inferInstanceAs (Decidable (_ ∧ _))

section Units

variable {frames : List Frame} {s raw after rest text : JsString} {u : UInt16} {key : JsString}

theorem scanKeys_unit (h : u ≠ 0x22) :
    scanKeys frames (u :: rest) = scanKeys (framesBehind u frames) rest := by
  rw [scanKeys.eq_def]
  simp only [h, if_false]

theorem scanKeys_idle (h : ∀ u ∈ text, Idle u) : scanKeys frames (text ++ rest) = scanKeys frames rest := by
  induction text with
  | nil => rfl
  | cons u text ih =>
    obtain ⟨hquote, hbrace, hbracket, hbrace', hbracket', hcomma⟩ := h u List.mem_cons_self
    have hsame : framesBehind u frames = frames := by
      simp only [framesBehind, hbrace, hbracket, hbrace', hbracket', hcomma, or_self, if_false]
    rw [List.cons_append, scanKeys_unit hquote, hsame, ih fun v hv => h v (List.mem_cons_of_mem u hv)]

theorem idle_of_isSpace (h : isSpace u = true) : Idle u := by
  simp only [isSpace, Bool.or_eq_true, decide_eq_true_eq] at h
  rcases h with ((rfl | rfl) | rfl) | rfl <;> decide

theorem idle_of_isNumeric (h : isNumeric u = true) : Idle u := by
  have hne : ∀ v : UInt16, isNumeric v = false → u ≠ v := by
    rintro v hv rfl
    simp [hv] at h
  exact ⟨hne _ rfl, hne _ rfl, hne _ rfl, hne _ rfl, hne _ rfl, hne _ rfl⟩

/-- White space is passed. -/
theorem scanKeys_skip : scanKeys frames (skip s) = scanKeys frames s := by
  conv_rhs => rw [← List.takeWhile_append_dropWhile (p := isSpace) (l := s)]
  exact (scanKeys_idle fun u hu => idle_of_isSpace (List.mem_takeWhile_imp hu)).symm

/-! ## A string -/

theorem plain_of_hexVal {n : Nat} (h : hexVal u = some n) : u ≠ 0x22 ∧ u ≠ 0x5C := by
  have hquote : hexVal 0x22 = none := rfl
  have hback : hexVal 0x5C = none := rfl
  constructor
  · rintro rfl
    exact absurd (hquote.symm.trans h) (by simp)
  · rintro rfl
    exact absurd (hback.symm.trans h) (by simp)

theorem parseString_hex (a b c d : UInt16) (t : JsString) :
    parseString (0x5C :: 0x75 :: a :: b :: c :: d :: t) =
      (hexUnit a b c d).bind fun x => (parseString t).map fun out => (x :: out.1, out.2) := by
  rw [parseString.eq_def]
  rfl

theorem parseString_named {e : UInt16} (he : e ≠ 0x75) (t : JsString) :
    parseString (0x5C :: e :: t) =
      (namedEscape e).bind fun x => (parseString t).map fun out => (x :: out.1, out.2) := by
  rw [parseString.eq_def]
  simp only [show (0x5C : UInt16) ≠ 0x22 by decide, he, if_false, if_true]

/-- The loop passes the four digits of an escape unit by unit. -/
theorem stringEnd_hex {a b c d x : UInt16} (h : hexUnit a b c d = some x) (t : JsString) :
    stringEnd (0x5C :: 0x75 :: a :: b :: c :: d :: t) =
      (stringEnd t).map fun out => (0x5C :: 0x75 :: a :: b :: c :: d :: out.1, out.2) := by
  obtain ⟨na, ha, h⟩ := Option.bind_eq_some_iff.1 h
  obtain ⟨nb, hb, h⟩ := Option.bind_eq_some_iff.1 h
  obtain ⟨nc, hc, h⟩ := Option.bind_eq_some_iff.1 h
  obtain ⟨nd, hd, -⟩ := Option.bind_eq_some_iff.1 h
  rw [stringEnd_escape, stringEnd_plain (plain_of_hexVal ha).1 (plain_of_hexVal ha).2,
    stringEnd_plain (plain_of_hexVal hb).1 (plain_of_hexVal hb).2,
    stringEnd_plain (plain_of_hexVal hc).1 (plain_of_hexVal hc).2,
    stringEnd_plain (plain_of_hexVal hd).1 (plain_of_hexVal hd).2]
  simp only [Option.map_map]
  rfl

/-- A string that is read ends where the loop finds its closing quote, and is read again up to there. -/
theorem stringEnd_of_parseString (h : parseString s = some (key, after)) :
    ∃ raw, stringEnd s = some (raw, after) ∧ parseString (raw ++ [0x22]) = some (key, []) := by
  induction s using parseString.induct generalizing key with
  | case1 => exact absurd h (by simp [parseString])
  | case2 rest =>
    rw [parseString.eq_def] at h
    simp only [if_true, Option.some.injEq, Prod.mk.injEq] at h
    obtain ⟨rfl, rfl⟩ := h
    exact ⟨[], stringEnd_quote, rfl⟩
  | case3 => exact absurd h (by simp [parseString])
  | case4 a b c d rest _ ih =>
    rw [parseString_hex] at h
    obtain ⟨x, hx, h⟩ := Option.bind_eq_some_iff.1 h
    obtain ⟨key', hout, rfl⟩ := map_read_eq_some.1 h
    obtain ⟨raw, hend, hagain⟩ := ih hout
    refine ⟨0x5C :: 0x75 :: a :: b :: c :: d :: raw, by rw [stringEnd_hex hx, hend]; rfl, ?_⟩
    simp only [List.cons_append, parseString_hex, hx, Option.bind_some, hagain, Option.map_some]
  | case5 rest hshort hne =>
    have hnone : parseString (0x5C :: 0x75 :: rest) = none := by
      rw [parseString.eq_def]
      simp only [hne, if_false, if_true]
    exact absurd (hnone.symm.trans h) (by simp)
  | case6 e rest he hne ih =>
    rw [parseString_named he] at h
    obtain ⟨x, hx, h⟩ := Option.bind_eq_some_iff.1 h
    obtain ⟨key', hout, rfl⟩ := map_read_eq_some.1 h
    obtain ⟨raw, hend, hagain⟩ := ih hout
    refine ⟨0x5C :: e :: raw, by rw [stringEnd_escape, hend]; rfl, ?_⟩
    simp only [List.cons_append, parseString_named he, hx, Option.bind_some, hagain, Option.map_some]
  | case7 u rest hquote hback hcontrol =>
    rw [parseString.eq_def] at h
    simp only [hquote, hback, hcontrol, if_false, if_true, reduceCtorEq] at h
  | case8 u rest hquote hback hcontrol ih =>
    have hverbatim : Verbatim u := ⟨not_lt.1 hcontrol, hquote, hback⟩
    rw [parseString_cons hverbatim] at h
    obtain ⟨key', hout, rfl⟩ := map_read_eq_some.1 h
    obtain ⟨raw, hend, hagain⟩ := ih hout
    refine ⟨u :: raw, by rw [stringEnd_plain hquote hback, hend]; rfl, ?_⟩
    rw [List.cons_append, parseString_cons hverbatim, hagain]
    rfl

theorem parse_string (h : parseString s = some (key, [])) : parse (0x22 :: s) = some (.string key) := by
  rw [parse, show 2 * (0x22 :: s).length + 2 = 2 * (0x22 :: s).length + 1 + 1 from rfl, parseValue,
    skip_of_not_space rfl]
  simp only [if_true, h, Option.map_some, Option.bind_some]
  rfl

/-- A string where no key is expected is passed. -/
theorem scanKeys_string (hq : Quiet frames) (h : parseString s = some (key, after)) :
    scanKeys frames (0x22 :: s) = scanKeys frames after := by
  obtain ⟨raw, hend, -⟩ := stringEnd_of_parseString h
  rw [scanKeys.eq_def]
  simp only [if_true]
  split
  · next hnone => rw [hend] at hnone; exact absurd hnone (by simp)
  · next raw' after' hsome =>
    rw [hend, Option.some.injEq, Prod.mk.injEq] at hsome
    obtain ⟨rfl, rfl⟩ := hsome
    split
    · exact absurd (hq _ rfl) (by simp)
    · rfl

/-- A key is looked up among those of its object. -/
theorem scanKeys_key {keys : List JsString} (h : parseString s = some (key, after)) :
    scanKeys (⟨some keys, true⟩ :: frames) (0x22 :: s) =
      if key ∈ keys then some true else scanKeys (⟨some (keys ++ [key]), false⟩ :: frames) after := by
  obtain ⟨raw, hend, hagain⟩ := stringEnd_of_parseString h
  rw [scanKeys.eq_def]
  simp only [if_true]
  split
  · next hnone => rw [hend] at hnone; exact absurd hnone (by simp)
  · next raw' after' hsome =>
    rw [hend, Option.some.injEq, Prod.mk.injEq] at hsome
    obtain ⟨rfl, rfl⟩ := hsome
    rw [List.cons_append, parse_string hagain]

end Units

/-! ## A tree -/

/-- The scan finds what it looks for, or goes on. -/
def Finds (p : Prop) (scan next : Option Bool) : Prop :=
  (p → scan = some true) ∧ (¬ p → scan = next)

section Tree

variable {p q : Prop} {a b c : Option Bool} {n : ℕ} {s rest : JsString} {frames : List Frame} {tree : JTree}
  {items : List JTree} {members : List (JsString × JTree)} {keys : List JsString} {key : JsString}

theorem Finds.trans (hab : Finds p a b) (hbc : Finds q b c) : Finds (p ∨ q) a c := by
  constructor
  · intro h
    by_cases hp : p
    · exact hab.1 hp
    · exact (hab.2 hp).trans (hbc.1 (h.resolve_left hp))
  · intro h
    exact (hab.2 fun hp => h (.inl hp)).trans (hbc.2 fun hq => h (.inr hq))

theorem Finds.congr (h : Finds p a b) (hpq : p ↔ q) : Finds q a b :=
  ⟨fun hq => h.1 (hpq.2 hq), fun hq => h.2 fun hp => hq (hpq.1 hp)⟩

/-- Nothing is found in what is passed. -/
theorem finds_of_eq (hp : ¬ p) (h : a = b) : Finds p a b :=
  ⟨fun h' => absurd h' hp, fun _ => h⟩

theorem repeats_array : (JTree.array items).RepeatsAKey ↔ ∃ tree ∈ items, tree.RepeatsAKey := by
  constructor
  · rintro (_ | ⟨hmem, h⟩)
    exact ⟨_, hmem, h⟩
  · rintro ⟨tree, hmem, h⟩
    exact .item hmem h

theorem repeats_object : (JTree.object members).RepeatsAKey ↔
    ¬ (members.map Prod.fst).Nodup ∨ ∃ m ∈ members, m.2.RepeatsAKey := by
  constructor
  · intro h
    cases h with
    | here h => exact .inl h
    | member hmem h => exact .inr ⟨_, hmem, h⟩
  · rintro (h | ⟨m, hmem, h⟩)
    · exact .here h
    · exact .member hmem h

theorem finds_word {word : JsString} {leaf : JTree} (hword : ∀ u ∈ word, Idle u)
    (hleaf : ¬ leaf.RepeatsAKey)
    (h : treeWord word leaf s = some (tree, rest)) :
    Finds tree.RepeatsAKey (scanKeys frames s) (scanKeys frames rest) := by
  unfold treeWord at h
  split at h
  · next hpre =>
    obtain ⟨t, rfl⟩ := List.isPrefixOf_iff_prefix.1 hpre
    simp only [List.drop_left, Option.some.injEq, Prod.mk.injEq] at h
    obtain ⟨rfl, rfl⟩ := h
    exact finds_of_eq hleaf (scanKeys_idle hword)
  · exact absurd h (by simp)

/-- What is parsed as a value is scanned. -/
def ScansValue (n : ℕ) : Prop :=
  ∀ {s tree rest frames}, treeValue n s = some (tree, rest) → Quiet frames →
    Finds tree.RepeatsAKey (scanKeys frames s) (scanKeys frames rest)

/-- What is parsed as the items of an array is scanned, in its frame. -/
def ScansItems (n : ℕ) : Prop :=
  ∀ {s items rest frames}, treeItems n s = some (items, rest) →
    Finds (∃ tree ∈ items, tree.RepeatsAKey) (scanKeys (⟨none, false⟩ :: frames) s) (scanKeys frames rest)

/-- What is parsed as the members of an object is scanned, in its frame behind the keys it has. -/
def ScansMembers (n : ℕ) : Prop :=
  ∀ {s members rest frames keys}, treeMembers n s = some (members, rest) → keys.Nodup →
    Finds (¬ (keys ++ members.map Prod.fst).Nodup ∨ ∃ m ∈ members, m.2.RepeatsAKey)
      (scanKeys (⟨some keys, true⟩ :: frames) s) (scanKeys frames rest)

theorem scansValue_succ (hitems : ScansItems n) (hmembers : ScansMembers n) : ScansValue (n + 1) := by
  intro s tree rest frames h hq
  rw [treeValue] at h
  rw [← scanKeys_skip (s := s)]
  cases hs : skip s with
  | nil => rw [hs] at h; exact absurd h (by simp)
  | cons u r =>
    rw [hs] at h
    simp only at h
    split at h
    · next hu =>
      obtain ⟨key, hkey, rfl⟩ := map_read_eq_some.1 h
      exact finds_of_eq (fun h => by cases h) (hu ▸ scanKeys_string hq hkey)
    split at h
    · next hu =>
      rw [hu, scanKeys_unit (by decide), ← scanKeys_skip (s := r)]
      split at h
      · next r' heq =>
        simp only [Option.some.injEq, Prod.mk.injEq] at h
        obtain ⟨rfl, rfl⟩ := h
        rw [heq, scanKeys_unit (by decide)]
        exact finds_of_eq (fun h => by simp [repeats_array] at h) rfl
      · obtain ⟨items, hout, rfl⟩ := map_read_eq_some.1 h
        exact (hitems hout).congr repeats_array.symm
    split at h
    · next hu =>
      rw [hu, scanKeys_unit (by decide), ← scanKeys_skip (s := r)]
      split at h
      · next r' heq =>
        simp only [Option.some.injEq, Prod.mk.injEq] at h
        obtain ⟨rfl, rfl⟩ := h
        rw [heq, scanKeys_unit (by decide)]
        exact finds_of_eq (fun h => by simp [repeats_object] at h) rfl
      · obtain ⟨members, hout, rfl⟩ := map_read_eq_some.1 h
        exact (hmembers hout List.nodup_nil).congr repeats_object.symm
    split at h
    · exact finds_word (List.forall_iff_forall_mem.1 (by decide)) (fun hleaf => by cases hleaf) h
    split at h
    · exact finds_word (List.forall_iff_forall_mem.1 (by decide)) (fun hleaf => by cases hleaf) h
    split at h
    · exact finds_word (List.forall_iff_forall_mem.1 (by decide)) (fun hleaf => by cases hleaf) h
    · obtain ⟨m, rfl, hsplit⟩ := treeNumber_eq_some h
      rw [hsplit]
      exact finds_of_eq (fun h => by cases h) (scanKeys_idle fun v hv => idle_of_isNumeric (m.spec.1 v hv))

theorem scansItems_succ (hvalue : ScansValue n) (hitems : ScansItems n) : ScansItems (n + 1) := by
  intro s items rest frames h
  rw [treeItems] at h
  obtain ⟨⟨tree, after⟩, hout, h⟩ := Option.bind_eq_some_iff.1 h
  have hfirst : Finds tree.RepeatsAKey (scanKeys (⟨none, false⟩ :: frames) s)
      (scanKeys (⟨none, false⟩ :: frames) after) := hvalue hout fun f hf => by
    obtain rfl := Option.some.inj hf
    exact .inl rfl
  rw [← scanKeys_skip (s := after)] at hfirst
  simp only at h
  split at h
  · next r heq =>
    obtain ⟨items', hrest, rfl⟩ := map_read_eq_some.1 h
    rw [heq, scanKeys_unit (by decide)] at hfirst
    exact (hfirst.trans (hitems hrest)).congr (by simp)
  · next r heq =>
    simp only [Option.some.injEq, Prod.mk.injEq] at h
    obtain ⟨rfl, rfl⟩ := h
    rw [heq, scanKeys_unit (by decide)] at hfirst
    exact hfirst.congr (by simp)
  · exact absurd h (by simp)

theorem scansMembers_succ (hvalue : ScansValue n) (hmembers : ScansMembers n) : ScansMembers (n + 1) := by
  intro s members rest frames keys h hkeys
  rw [treeMembers] at h
  rw [← scanKeys_skip (s := s)]
  split at h
  · next r hs =>
    obtain ⟨⟨key, after⟩, hkey, h⟩ := Option.bind_eq_some_iff.1 h
    simp only at h
    rw [hs, scanKeys_key hkey]
    split at h
    · next r' hcolon =>
      obtain ⟨⟨tree, after'⟩, hout, h⟩ := Option.bind_eq_some_iff.1 h
      by_cases hmem : key ∈ keys
      · rw [if_pos hmem]
        refine ⟨fun _ => rfl, fun hnot => absurd (.inl fun hnodup => ?_) hnot⟩
        have hin : key ∈ members.map Prod.fst := by
          simp only at h
          split at h
          · obtain ⟨members', -, heq⟩ := Option.map_eq_some_iff.1 h
            rw [← (Prod.mk.inj heq).1]
            exact List.mem_cons_self
          · rw [← (Prod.mk.inj (Option.some.inj h)).1]
            exact List.mem_cons_self
          · exact absurd h (by simp)
        exact (List.nodup_append.1 hnodup).2.2 key hmem key hin rfl
      · have hkeys' : (keys ++ [key]).Nodup := by
          rw [← List.concat_eq_append]
          exact List.Nodup.concat hmem hkeys
        have hfirst : Finds tree.RepeatsAKey (scanKeys (⟨some (keys ++ [key]), false⟩ :: frames) r')
            (scanKeys (⟨some (keys ++ [key]), false⟩ :: frames) after') := hvalue hout fun f hf => by
          obtain rfl := Option.some.inj hf
          exact .inr rfl
        have hbehind : scanKeys (⟨some (keys ++ [key]), false⟩ :: frames) after =
            scanKeys (⟨some (keys ++ [key]), false⟩ :: frames) r' := by
          rw [← scanKeys_skip, hcolon, scanKeys_unit (by decide)]
          rfl
        rw [← scanKeys_skip (s := after')] at hfirst
        rw [if_neg hmem, hbehind]
        simp only at h
        split at h
        · next r'' heq =>
          obtain ⟨members', hrest, rfl⟩ := map_read_eq_some.1 h
          rw [heq, scanKeys_unit (by decide)] at hfirst
          exact (hfirst.trans (hmembers hrest hkeys')).congr (by simp [or_left_comm])
        · next r'' heq =>
          simp only [Option.some.injEq, Prod.mk.injEq] at h
          obtain ⟨rfl, rfl⟩ := h
          rw [heq, scanKeys_unit (by decide)] at hfirst
          exact hfirst.congr (by simp [hkeys'])
        · exact absurd h (by simp)
    · exact absurd h (by simp)
  · exact absurd h (by simp)

theorem scans_tree (n : ℕ) : ScansValue n ∧ ScansItems n ∧ ScansMembers n := by
  induction n with
  | zero =>
    exact ⟨fun h => absurd h (by simp [treeValue]), fun h => absurd h (by simp [treeItems]),
      fun h => absurd h (by simp [treeMembers])⟩
  | succ n ih =>
    obtain ⟨hvalue, hitems, hmembers⟩ := ih
    exact ⟨scansValue_succ hitems hmembers, scansItems_succ hvalue hitems,
      scansMembers_succ hvalue hmembers⟩

end Tree

/-- On a text that parses the scan ends, with true exactly where an object repeats a key. -/
theorem jsonRepeatsAKey_iff {text : JsString} (h : (parse text).isSome) : ∃ tree repeats,
    parseTree text = some tree ∧ jsonRepeatsAKey text = some repeats ∧
      (repeats = true ↔ tree.RepeatsAKey) := by
  rw [parse_eq, Option.isSome_map] at h
  obtain ⟨tree, htree⟩ := Option.isSome_iff_exists.1 h
  obtain ⟨⟨tree', rest⟩, hvalue, hend⟩ := Option.bind_eq_some_iff.1 htree
  have hfinds : Finds tree'.RepeatsAKey (scanKeys [] text) (scanKeys [] rest) :=
    (scans_tree _).1 hvalue fun f hf => absurd hf (by simp)
  split at hend
  · next hskip =>
    obtain rfl := Option.some.inj hend
    simp only at hskip
    have hnil : scanKeys [] [] = some false := by rw [scanKeys.eq_def]
    rw [← scanKeys_skip (s := rest), hskip, hnil] at hfinds
    by_cases hr : tree'.RepeatsAKey
    · exact ⟨tree', true, htree, hfinds.1 hr, by simp [hr]⟩
    · exact ⟨tree', false, htree, hfinds.2 hr, by simp [hr]⟩
  · exact absurd hend (by simp)

/-- An object that names `a` twice, once as an escape. -/
theorem jsonRepeatsAKey_escaped :
    (parse [0x7B, 0x22, 0x61, 0x22, 0x3A, 0x31, 0x2C, 0x22, 0x5C, 0x75, 0x30, 0x30, 0x36, 0x31,
      0x22, 0x3A, 0x32,
      0x7D]).isSome ∧ ∃ tree repeats,
      parseTree [0x7B, 0x22, 0x61, 0x22, 0x3A, 0x31, 0x2C, 0x22, 0x5C, 0x75, 0x30, 0x30, 0x36, 0x31,
        0x22, 0x3A,
        0x32, 0x7D] = some tree ∧
      jsonRepeatsAKey [0x7B, 0x22, 0x61, 0x22, 0x3A, 0x31, 0x2C, 0x22, 0x5C, 0x75, 0x30, 0x30, 0x36,
        0x31, 0x22, 0x3A,
        0x32, 0x7D] = some repeats ∧ (repeats = true ↔ tree.RepeatsAKey) :=
  ⟨by decide +kernel, jsonRepeatsAKey_iff (by decide +kernel)⟩

end Lynox.Outbound
