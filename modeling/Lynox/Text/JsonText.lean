import Lynox.Text.JsonTree
import Lynox.Text.OwnNames
import Lynox.Text.Stringify

/-!
# A tree as JSON text

`JTree.write` writes a tree in a layout : compact, or indented by two blanks. `minifyJson` takes the
white space between the tokens of a text away.

The compact text of a tree is read back as the tree (`parseTree_compact`), so it is the text of one
tree (`compact_injective`). The indented one is the compact one with white space between its tokens
(`minifies_write`), so it is the text of one tree as well (`indented_injective`).
-/

namespace Lynox.Text

/-- How a text is laid out : what stands before an item or member at a depth, and behind a name. -/
structure Layout where
  line : ℕ → JsString
  colon : JsString

/-- `JSON.stringify(value)`. -/
def compact : Layout where
  line _ := []
  colon := [0x3A]

/-- `JSON.stringify(value, null, 2)`. -/
def indented : Layout where
  line depth := 0x0A :: List.replicate (2 * depth) 0x20
  colon := [0x3A, 0x20]

/-- The parts of an array or an object, each in its line. -/
def Layout.join (l : Layout) (depth : ℕ) : List JsString → JsString
  | [] => []
  | [part] => l.line depth ++ part
  | part :: parts => l.line depth ++ part ++ 0x2C :: l.join depth parts

/-- The parts between the brackets at a depth. -/
def Layout.enclose (l : Layout) (depth : ℕ) (first last : UInt16) : List JsString → JsString
  | [] => [first, last]
  | parts => first :: l.join (depth + 1) parts ++ l.line depth ++ [last]

mutual

def JTree.write (l : Layout) (depth : ℕ) : JTree → JsString
  | .null => [0x6E, 0x75, 0x6C, 0x6C]
  | .bool true => [0x74, 0x72, 0x75, 0x65]
  | .bool false => [0x66, 0x61, 0x6C, 0x73, 0x65]
  | .number n => n.text
  | .string s => quote s
  | .array items => l.enclose depth 0x5B 0x5D (JTree.writeItems l (depth + 1) items)
  | .object members => l.enclose depth 0x7B 0x7D (JTree.writeMembers l (depth + 1) members)

def JTree.writeItems (l : Layout) (depth : ℕ) : List JTree → List JsString
  | [] => []
  | tree :: items => tree.write l depth :: JTree.writeItems l depth items

def JTree.writeMembers (l : Layout) (depth : ℕ) : List (JsString × JTree) → List JsString
  | [] => []
  | (name, tree) :: members =>
    (quote name ++ l.colon ++ tree.write l depth) :: JTree.writeMembers l depth members

end

/-- A JSON text with the white space between tokens removed. -/
def minifyJson (inString : Bool) : JsString → JsString
  | [] => []
  | c :: rest =>
    if inString then
      if c = 0x5C then
        match rest with
        | [] => [c]
        | d :: rest => c :: d :: minifyJson true rest
      else c :: minifyJson (c ≠ 0x22) rest
    else if c = 0x22 then c :: minifyJson true rest
    else if isWhite c then minifyJson false rest
    else c :: minifyJson false rest

/-! ## White space taken away -/

section Minify

variable {s rest text part : JsString} {parts parts' : List JsString} {depth depth' : ℕ}
  {first last u : UInt16}

theorem minifyJson_plain (h : ∀ u ∈ text, u ≠ 0x22 ∧ isWhite u = false) :
    minifyJson false (text ++ rest) = text ++ minifyJson false rest := by
  induction text with
  | nil => rfl
  | cons u text ih =>
    obtain ⟨hquote, hwhite⟩ := h u List.mem_cons_self
    rw [List.cons_append, List.cons_append, ← ih fun v hv => h v (List.mem_cons_of_mem u hv),
      minifyJson.eq_def]
    simp only [Bool.false_eq_true, if_false, hquote, hwhite]

theorem minifyJson_white (h : ∀ u ∈ text, u ≠ 0x22 ∧ isWhite u = true) :
    minifyJson false (text ++ rest) = minifyJson false rest := by
  induction text with
  | nil => rfl
  | cons u text ih =>
    obtain ⟨hquote, hwhite⟩ := h u List.mem_cons_self
    rw [List.cons_append, ← ih fun v hv => h v (List.mem_cons_of_mem u hv), minifyJson.eq_def]
    simp only [Bool.false_eq_true, if_false, hquote, hwhite, if_true]

/-- In a string every unit stays, up to the quote that ends it. -/
theorem minifyJson_verbatim (rest : JsString) (h : ∀ u ∈ text, Verbatim u) :
    minifyJson true (text ++ rest) = text ++ minifyJson true rest := by
  induction text with
  | nil => rfl
  | cons u text ih =>
    obtain ⟨-, hquote, hback⟩ := h u List.mem_cons_self
    rw [List.cons_append, List.cons_append, ← ih fun v hv => h v (List.mem_cons_of_mem u hv),
      minifyJson.eq_def]
    simp [hquote, hback]

theorem minifyJson_escaped {d : UInt16} :
    minifyJson true (0x5C :: d :: rest) = 0x5C :: d :: minifyJson true rest := by
  rw [minifyJson.eq_def]
  simp

theorem verbatim_hexDigit {n : ℕ} (h : n < 16) : Verbatim (hexDigit n) := by
  have hval := toNat_hexDigit h
  refine ⟨by rw [hval]; split <;> omega, fun heq => ?_, fun heq => ?_⟩
  · rw [heq] at hval
    simp only [show (0x22 : UInt16).toNat = 0x22 from rfl] at hval
    split at hval <;> omega
  · rw [heq] at hval
    simp only [show (0x5C : UInt16).toNat = 0x5C from rfl] at hval
    split at hval <;> omega

theorem minifyJson_hexEscape (n : ℕ) : minifyJson true (hexEscape n ++ rest) = hexEscape n ++
    minifyJson true rest := by
  have hdigits : ∀ u ∈ [hexDigit (n / 0x1000 % 16), hexDigit (n / 0x100 % 16), hexDigit (n / 0x10 % 16),
      hexDigit (n % 16)], Verbatim u := by
    intro u hu
    simp only [List.mem_cons, List.not_mem_nil, or_false] at hu
    rcases hu with rfl | rfl | rfl | rfl <;> exact verbatim_hexDigit (by omega)
  have h := minifyJson_verbatim rest hdigits
  simp only [List.cons_append, List.nil_append] at h
  rw [hexEscape, List.cons_append, List.cons_append, minifyJson_escaped]
  simp only [List.cons_append, List.nil_append, h]

theorem minifyJson_escape {p : Piece} (hp : p.Valid) :
    minifyJson true (escape p ++ rest) = escape p ++ minifyJson true rest := by
  cases p with
  | lone u => exact minifyJson_hexEscape _
  | scalar n =>
    simp only [escape]
    iterate 7
      split
      · exact minifyJson_escaped
    split
    · exact minifyJson_hexEscape n
    · exact minifyJson_verbatim rest (verbatim_units hp (by omega) (by omega) (by omega))

theorem minifyJson_quote : minifyJson false (quote s ++ rest) = quote s ++ minifyJson false rest := by
  have hbody : ∀ {ps : List Piece}, (∀ p ∈ ps, p.Valid) → ∀ t : JsString,
      minifyJson true (ps.flatMap escape ++ t) = ps.flatMap escape ++ minifyJson true t := by
    intro ps
    induction ps with
    | nil => exact fun _ _ => rfl
    | cons p ps ih =>
      intro h t
      rw [List.flatMap_cons, List.append_assoc, minifyJson_escape (h p List.mem_cons_self),
        ih fun q hq => h q (List.mem_cons_of_mem p hq), List.append_assoc]
  have hopen : ∀ t, minifyJson false (0x22 :: t) = 0x22 :: minifyJson true t := fun t => by
    rw [minifyJson.eq_def]
    simp
  have hclose : ∀ t, minifyJson true (0x22 :: t) = 0x22 :: minifyJson false t := fun t => by
    rw [minifyJson.eq_def]
    simp
  have hquote : ∀ t, quote s ++ t = 0x22 :: ((pieces s).flatMap escape ++ 0x22 :: t) := fun t => by
    simp [quote, quoteBody]
  rw [hquote, hquote, hopen, hbody fun p => valid_of_mem_pieces, hclose]

/-- A part of a text that is another part without its white space. -/
def Minifies (part part' : JsString) : Prop :=
  ∀ rest, minifyJson false (part ++ rest) = part' ++ minifyJson false rest

theorem minifies_line : Minifies (indented.line depth) [] := by
  refine fun rest => minifyJson_white fun u hu => ?_
  rcases List.mem_cons.1 hu with rfl | hu
  · decide
  · rw [(List.mem_replicate.1 hu).2]
    decide

theorem Minifies.append (h : Minifies part text) (h' : Minifies s rest) :
    Minifies (part ++ s) (text ++ rest) := fun t => by
  rw [List.append_assoc, h, h', List.append_assoc]

theorem minifies_plain (text : JsString) (h : ∀ u ∈ text, u ≠ 0x22 ∧ isWhite u = false) :
    Minifies text text :=
  fun _ => minifyJson_plain h

theorem minifies_join (h : List.Forall₂ Minifies parts parts') :
    Minifies (indented.join depth parts) (compact.join depth' parts') := by
  induction h with
  | nil => exact fun _ => rfl
  | @cons part part' parts parts' hpart hparts ih =>
    cases hparts with
    | nil => exact minifies_line.append hpart
    | cons _ _ =>
      have hcomma := (minifies_plain [0x2C] (List.forall_iff_forall_mem.1 (by decide))).append ih
      exact (minifies_line.append hpart).append hcomma

theorem minifies_enclose (hfirst : first ≠ 0x22 ∧ isWhite first = false)
    (hlast : last ≠ 0x22 ∧ isWhite last = false) (h : List.Forall₂ Minifies parts parts') :
    Minifies (indented.enclose depth first last parts) (compact.enclose depth' first last parts') := by
  have hopen := minifies_plain [first] (by simpa using hfirst)
  have hclose := minifies_plain [last] (by simpa using hlast)
  cases h with
  | nil => exact hopen.append hclose
  | cons hpart hparts =>
    exact ((hopen.append (minifies_join (.cons hpart hparts))).append minifies_line).append hclose

theorem plain_of_isNumeric (h : isNumeric u = true) : u ≠ 0x22 ∧ isWhite u = false := by
  simp only [isNumeric, isDigit, Bool.or_eq_true, Bool.and_eq_true, decide_eq_true_eq] at h
  rcases h with ((((⟨hlow, hhigh⟩ | rfl) | rfl) | rfl) | rfl) | rfl
  · have hne : ∀ v : UInt16, (v.toNat < 0x30 ∨ 0x3A ≤ v.toNat) → u ≠ v := by
      rintro v hv rfl
      omega
    refine ⟨hne _ (by decide), ?_⟩
    simp only [isWhite, Bool.or_eq_false_iff, Bool.and_eq_false_iff, decide_eq_false_iff_not]
    have := hne 0x20 (by decide)
    have := hne 0xA0 (by decide)
    have := hne 0x1680 (by decide)
    have := hne 0x2028 (by decide)
    have := hne 0x2029 (by decide)
    have := hne 0x202F (by decide)
    have := hne 0x205F (by decide)
    have := hne 0x3000 (by decide)
    have := hne 0xFEFF (by decide)
    refine ⟨⟨⟨⟨⟨⟨⟨⟨⟨⟨.inr (by omega), by assumption⟩, by assumption⟩, by assumption⟩,
      .inl (by omega)⟩, by assumption⟩,
      by assumption⟩, by assumption⟩, by assumption⟩, by assumption⟩, by assumption⟩
  all_goals decide

end Minify

mutual

/-- The indented text of a tree is its compact text, but for white space. -/
theorem minifies_write : ∀ (tree : JTree) (depth depth' : ℕ),
    Minifies (tree.write indented depth) (tree.write compact depth')
  | .null, _, _ => minifies_plain [0x6E, 0x75, 0x6C, 0x6C] (List.forall_iff_forall_mem.1 (by decide))
  | .bool true, _, _ => minifies_plain [0x74, 0x72, 0x75, 0x65] (List.forall_iff_forall_mem.1 (by decide))
  | .bool false, _, _ =>
    minifies_plain [0x66, 0x61, 0x6C, 0x73, 0x65] (List.forall_iff_forall_mem.1 (by decide))
  | .number n, _, _ => minifies_plain n.text fun u hu => plain_of_isNumeric (n.spec.1 u hu)
  | .string _, _, _ => fun _ => minifyJson_quote
  | .array items, depth, depth' =>
    minifies_enclose (by decide) (by decide) (minifies_writeItems items (depth + 1) (depth' + 1))
  | .object members, depth, depth' =>
    minifies_enclose (by decide) (by decide) (minifies_writeMembers members (depth + 1) (depth' + 1))

theorem minifies_writeItems : ∀ (items : List JTree) (depth depth' : ℕ),
    List.Forall₂ Minifies (JTree.writeItems indented depth items) (JTree.writeItems compact depth' items)
  | [], _, _ => .nil
  | tree :: items, depth, depth' =>
    .cons (minifies_write tree depth depth') (minifies_writeItems items depth depth')

theorem minifies_writeMembers : ∀ (members : List (JsString × JTree)) (depth depth' : ℕ),
    List.Forall₂ Minifies (JTree.writeMembers indented depth members)
      (JTree.writeMembers compact depth' members)
  | [], _, _ => .nil
  | (name, tree) :: members, depth, depth' =>
    .cons (((show Minifies (quote name) (quote name) from fun _ => minifyJson_quote).append fun rest => by
        rw [show indented.colon = [0x3A] ++ [0x20] from rfl, List.append_assoc,
          minifyJson_plain (List.forall_iff_forall_mem.1 (by decide)),
          minifyJson_white (List.forall_iff_forall_mem.1 (by decide))]
        rfl).append (minifies_write tree depth depth'))
      (minifies_writeMembers members depth depth')

end

/-! ## The compact text is read back -/

section Read

variable {n : ℕ} {s rest text part : JsString} {parts : List JsString} {depth : ℕ} {u first last : UInt16}
  {tree : JTree}

/-- What a value begins with : no white space and no bracket that ends. -/
def Begins (text : JsString) : Prop :=
  ∃ u s, text = u :: s ∧ isSpace u = false ∧ u ≠ 0x5D ∧ u ≠ 0x7D

theorem Begins.skip (h : Begins text) : skip (text ++ rest) = text ++ rest := by
  obtain ⟨u, s, rfl, hspace, -⟩ := h
  exact skip_of_not_space hspace

theorem begins_number (m : JsonNumber) : Begins m.text := by
  obtain ⟨-, ⟨u, hu, hdigit⟩, -⟩ := m.spec
  cases h : m.text with
  | nil => rw [h] at hu; exact absurd hu (by simp)
  | cons v s =>
    rw [h] at hu
    obtain rfl := Option.some.inj hu
    have hne : ∀ w : UInt16, isDigit w = false → w ≠ 0x2D → v ≠ w := by
      rintro w hw hw' rfl
      rcases hdigit with hdigit | rfl
      · simp [hw] at hdigit
      · exact hw' rfl
    refine ⟨v, s, rfl, ?_, hne _ rfl (by decide), hne _ rfl (by decide)⟩
    simp only [isSpace, Bool.or_eq_false_iff, decide_eq_false_iff_not]
    exact ⟨⟨⟨hne _ rfl (by decide), hne _ rfl (by decide)⟩, hne _ rfl (by decide)⟩, hne _ rfl (by decide)⟩

theorem begins_enclose (h : isSpace first = false ∧ first ≠ 0x5D ∧ first ≠ 0x7D) :
    Begins (compact.enclose depth first last parts) := by
  cases parts with
  | nil => exact ⟨first, [last], rfl, h⟩
  | cons part parts => exact ⟨first, _, rfl, h⟩

theorem begins_write (tree : JTree) : Begins (tree.write compact depth) := by
  cases tree with
  | null => exact ⟨_, _, rfl, by decide⟩
  | bool b => cases b <;> exact ⟨_, _, rfl, by decide⟩
  | number m => exact begins_number m
  | string s => exact ⟨0x22, _, rfl, by decide⟩
  | array items => exact begins_enclose (by decide)
  | object members => exact begins_enclose (by decide)

theorem treeValue_number (m : JsonNumber) (hrest : Stops rest) :
    treeValue (n + 1) (m.text ++ rest) = some (.number m, rest) := by
  have hread := m.read hrest
  obtain ⟨-, ⟨u, hu, hdigit⟩, -⟩ := m.spec
  rw [treeValue, (begins_number m).skip]
  cases h : m.text with
  | nil => rw [h] at hu; exact absurd hu (by simp)
  | cons v s =>
    rw [h] at hu hread
    obtain rfl := Option.some.inj hu
    have hne : ∀ w : UInt16, isDigit w = false → w ≠ 0x2D → v ≠ w := by
      rintro w hw hw' rfl
      rcases hdigit with hdigit | rfl
      · simp [hw] at hdigit
      · exact hw' rfl
    simp only [List.cons_append] at hread ⊢
    rw [if_neg (hne _ rfl (by decide)), if_neg (hne _ rfl (by decide)), if_neg (hne _ rfl (by decide)),
      if_neg (hne _ rfl (by decide)), if_neg (hne _ rfl (by decide)), if_neg (hne _ rfl (by decide)), hread]

theorem treeValue_string : treeValue (n + 1) (quote s ++ rest) = some (.string s, rest) := by
  have hquote : quote s ++ rest = 0x22 :: (quoteBody s ++ 0x22 :: rest) := by
    simp [quote]
  rw [hquote, treeValue, skip_of_not_space rfl]
  simp only [if_true, parseString_quoteBody, Option.map_some]

/-- The parts of an array or object that begin. -/
theorem begins_join (hparts : parts ≠ []) (h : ∀ part ∈ parts, Begins part) :
    Begins (compact.join depth parts) := by
  match parts with
  | [] => exact absurd rfl hparts
  | [part] => exact h part List.mem_cons_self
  | part :: next :: parts =>
    obtain ⟨u, s, rfl, hu⟩ := h part List.mem_cons_self
    exact ⟨u, _, rfl, hu⟩

theorem treeValue_array (h : Begins text) : treeValue (n + 1) (0x5B :: (text ++ rest)) =
    (treeItems n (text ++ rest)).map fun out => (.array out.1, out.2) := by
  rw [treeValue, skip_of_not_space rfl]
  simp only [h.skip]
  obtain ⟨u, s, rfl, -, hu, -⟩ := h
  rw [if_neg (by decide), if_pos trivial]
  split
  · next heq => exact absurd (List.cons.inj heq).1 hu
  · rfl

theorem treeValue_object (h : Begins text) : treeValue (n + 1) (0x7B :: (text ++ rest)) =
    (treeMembers n (text ++ rest)).map fun out => (.object out.1, out.2) := by
  rw [treeValue, skip_of_not_space rfl]
  simp only [h.skip]
  obtain ⟨u, s, rfl, -, -, hu⟩ := h
  rw [if_neg (by decide), if_neg (by decide), if_pos trivial]
  split
  · next heq => exact absurd (List.cons.inj heq).1 hu
  · rfl

theorem join_cons (hparts : parts ≠ []) :
    compact.join depth (part :: parts) = part ++ 0x2C :: compact.join depth parts := by
  cases parts with
  | nil => exact absurd rfl hparts
  | cons next parts => rfl

theorem stops_bracket (s : JsString) : Stops (0x5D :: s) := by
  rintro u ⟨⟩
  decide

theorem begins_writeItems (items : List JTree) : ∀ part ∈ JTree.writeItems compact depth items,
    Begins part := by
  induction items with
  | nil => simp [JTree.writeItems]
  | cons tree items ih =>
    rw [JTree.writeItems]
    exact List.forall_mem_cons.2 ⟨begins_write tree, ih⟩

theorem begins_writeMembers (members : List (JsString × JTree)) :
    ∀ part ∈ JTree.writeMembers compact depth members, Begins part := by
  induction members with
  | nil => simp [JTree.writeMembers]
  | cons m members ih =>
    rw [JTree.writeMembers]
    exact List.forall_mem_cons.2 ⟨⟨0x22, _, rfl, by decide⟩, ih⟩

/-- The name of a member, and its colon. -/
theorem treeMembers_member {name : JsString} : treeMembers (n + 1) (quote name ++ 0x3A :: rest) =
    (treeValue n rest).bind fun out =>
      match skip out.2 with
      | 0x2C :: rest => (treeMembers n rest).map fun members => ((name, out.1) :: members.1, members.2)
      | 0x7D :: rest => some ([(name, out.1)], rest)
      | _ => none := by
  have hquote : quote name ++ 0x3A :: rest = 0x22 :: (quoteBody name ++ 0x22 :: 0x3A :: rest) := by
    simp [quote]
  rw [hquote, treeMembers, skip_of_not_space rfl]
  simp only [parseString_quoteBody, Option.bind_some]
  rw [skip_of_not_space rfl]
  rfl

end Read

mutual

/-- A tree is read back from its compact text. -/
theorem treeValue_write : ∀ (tree : JTree) {n depth : ℕ} {rest : JsString},
    2 * (tree.write compact depth).length ≤ n → Stops rest →
    treeValue n (tree.write compact depth ++ rest) = some (tree, rest)
  | .null, n + 1, _, _, _, _ => by rw [JTree.write, treeValue]; rfl
  | .bool true, n + 1, _, _, _, _ => by rw [JTree.write, treeValue]; rfl
  | .bool false, n + 1, _, _, _, _ => by rw [JTree.write, treeValue]; rfl
  | .number m, n + 1, _, _, _, hrest => treeValue_number m hrest
  | .string s, n + 1, _, _, _, _ => treeValue_string
  | .array [], n + 1, _, _, _, _ => by
    rw [JTree.write, treeValue]
    rfl
  | .array (tree :: items), n + 1, depth, rest, hn, _ => by
    have hwrite : (JTree.array (tree :: items)).write compact depth =
        0x5B :: (compact.join (depth + 1) (JTree.writeItems compact (depth + 1) (tree :: items)) ++
          [0x5D]) := by
      rw [JTree.write, JTree.writeItems]
      simp [Layout.enclose, compact]
    rw [hwrite] at hn ⊢
    simp only [List.length_cons, List.length_append, List.length_nil] at hn
    have hitems : treeItems n (compact.join (depth + 1)
        (JTree.writeItems compact (depth + 1) (tree :: items)) ++
        0x5D :: rest) = some (tree :: items, rest) := treeItems_write tree items (by omega)
    rw [List.cons_append, List.append_assoc, List.singleton_append,
      treeValue_array (begins_join (by simp [JTree.writeItems]) (begins_writeItems _)), hitems]
    rfl
  | .object [], n + 1, _, _, _, _ => by
    rw [JTree.write, treeValue]
    rfl
  | .object ((name, tree) :: members), n + 1, depth, rest, hn, _ => by
    have hwrite : (JTree.object ((name, tree) :: members)).write compact depth =
        0x7B :: (compact.join (depth + 1)
          (JTree.writeMembers compact (depth + 1) ((name, tree) :: members)) ++
          [0x7D]) := by
      rw [JTree.write, JTree.writeMembers]
      simp [Layout.enclose, compact]
    rw [hwrite] at hn ⊢
    simp only [List.length_cons, List.length_append, List.length_nil] at hn
    have hmembers : treeMembers n (compact.join (depth + 1)
        (JTree.writeMembers compact (depth + 1) ((name, tree) :: members)) ++ 0x7D :: rest) =
          some ((name, tree) :: members, rest) := treeMembers_write name tree members (by omega)
    rw [List.cons_append, List.append_assoc, List.singleton_append,
      treeValue_object (begins_join (by simp [JTree.writeMembers]) (begins_writeMembers _)), hmembers]
    rfl
  | tree, 0, depth, _, hn, _ => by
    obtain ⟨u, s, heq, -⟩ : Begins (tree.write compact depth) := begins_write tree
    rw [heq] at hn
    exact absurd hn (by simp)

theorem treeItems_write : ∀ (tree : JTree) (items : List JTree) {n depth : ℕ} {rest : JsString},
    2 * (compact.join depth (JTree.writeItems compact depth (tree :: items))).length + 1 ≤ n →
    treeItems n (compact.join depth (JTree.writeItems compact depth (tree :: items)) ++ 0x5D :: rest) =
      some (tree :: items, rest)
  | _, _, 0, _, _, hn => absurd hn (by simp)
  | tree, [], n + 1, depth, rest, hn => by
    have hjoin : compact.join depth (JTree.writeItems compact depth [tree]) = tree.write compact depth := by
      simp [JTree.writeItems, Layout.join, compact]
    rw [hjoin] at hn ⊢
    rw [treeItems, treeValue_write tree (by omega) (stops_bracket rest), Option.bind_some,
      skip_of_not_space rfl]
    rfl
  | tree, next :: items, n + 1, depth, rest, hn => by
    have hjoin : compact.join depth (JTree.writeItems compact depth (tree :: next :: items)) =
        tree.write compact depth ++ 0x2C :: compact.join depth
          (JTree.writeItems compact depth (next :: items)) := by
      rw [JTree.writeItems, join_cons (by simp [JTree.writeItems])]
    rw [hjoin] at hn ⊢
    simp only [List.length_cons, List.length_append] at hn
    rw [treeItems, List.append_assoc, List.cons_append, treeValue_write tree (by omega) (stops_comma _),
      Option.bind_some, skip_of_not_space rfl]
    simp only
    rw [treeItems_write next items (by omega)]
    rfl

theorem treeMembers_write : ∀ (name : JsString) (tree : JTree) (members : List (JsString × JTree))
    {n depth : ℕ}
      {rest : JsString},
    2 * (compact.join depth (JTree.writeMembers compact depth ((name, tree) :: members))).length + 1 ≤ n →
    treeMembers n (compact.join depth
      (JTree.writeMembers compact depth ((name, tree) :: members)) ++ 0x7D :: rest) =
      some ((name, tree) :: members, rest)
  | _, _, _, 0, _, _, hn => absurd hn (by simp)
  | name, tree, [], n + 1, depth, rest, hn => by
    have hjoin : compact.join depth (JTree.writeMembers compact depth [(name, tree)]) =
        quote name ++ 0x3A :: tree.write compact depth := by
      simp [JTree.writeMembers, Layout.join, compact]
    rw [hjoin] at hn ⊢
    simp only [List.length_cons, List.length_append] at hn
    rw [List.append_assoc, List.cons_append, treeMembers_member,
      treeValue_write tree (by omega) (stops_brace rest),
      Option.bind_some, skip_of_not_space rfl]
    rfl
  | name, tree, (name', next) :: members, n + 1, depth, rest, hn => by
    have hjoin : compact.join depth
        (JTree.writeMembers compact depth ((name, tree) :: (name', next) :: members)) =
        quote name ++ 0x3A :: (tree.write compact depth ++
          0x2C :: compact.join depth (JTree.writeMembers compact depth ((name', next) :: members))) := by
      rw [JTree.writeMembers, join_cons (by simp [JTree.writeMembers])]
      simp [compact]
    rw [hjoin] at hn ⊢
    simp only [List.length_cons, List.length_append] at hn
    rw [List.append_assoc, List.cons_append, List.append_assoc, List.cons_append, treeMembers_member,
      treeValue_write tree (by omega) (stops_comma _), Option.bind_some, skip_of_not_space rfl]
    simp only
    rw [treeMembers_write name' next members (by omega)]
    rfl

end

/-- The compact text of a tree parses as the tree. -/
theorem parseTree_compact (tree : JTree) : parseTree (tree.write compact 0) = some tree := by
  have h : treeValue (2 * (tree.write compact 0).length + 2) (tree.write compact 0 ++ []) =
      some (tree, []) :=
    treeValue_write tree (by omega) (by simp [Stops])
  rw [List.append_nil] at h
  rw [parseTree, h]
  rfl

/-- Two trees with one compact text are one. -/
theorem compact_injective {tree tree' : JTree} (h : tree.write compact 0 = tree'.write compact 0) :
    tree = tree' := by
  rw [← Option.some_inj, ← parseTree_compact, ← parseTree_compact, h]

/-- Two trees with one indented text are one. -/
theorem indented_injective {tree tree' : JTree} (h : tree.write indented 0 = tree'.write indented 0) :
    tree = tree' := by
  have hmin : ∀ t : JTree, minifyJson false (t.write indented 0) = t.write compact 0 := fun t => by
    have ht := minifies_write t 0 0 []
    rw [List.append_nil] at ht
    rw [ht, minifyJson, List.append_nil]
  exact compact_injective (by rw [← hmin, ← hmin, h])

end Lynox.Text
