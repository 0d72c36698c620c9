import Lynox.Text.JsonText
import Lynox.Text.Matches
import Mathlib.Data.List.Sort

/-!
# Comparing the values of a bulk run

`canonicalJson` writes a value with the keys of its objects sorted, so that values which are equal up to
the order of keys have one text (`canonicalJson_eq_iff`). `sameValue` compares by that text, but the HTML
fields of two objects by `htmlEqual` where both sides are markup whose tree shows all of it. It is an
equivalence if `htmlEqual` is (`sameValue_equivalence`).

`diffTarget` tells of two texts the lines between what they have in common at both ends
(`diffTarget_faithful`).
-/

namespace Lynox.Bulk.Values

open Text

/-! ## Canonical JSON -/

/-- The texts with commas between them. -/
def commaJoin (texts : List JsString) : JsString :=
  joinAt 0x2C texts

mutual

/-- JSON with the keys of every object sorted. -/
def canonicalJson : JTree → JsString
  | .array items => 0x5B :: commaJoin (canonicalItems items) ++ [0x5D]
  | .object members =>
    let entries := (canonicalMembers members).insertionSort fun a b => a.1 ≤ b.1
    0x7B :: commaJoin (entries.map fun e => quote e.1 ++ 0x3A :: e.2) ++ [0x7D]
  | .null => JTree.null.write compact 0
  | .bool b => (JTree.bool b).write compact 0
  | .number n => (JTree.number n).write compact 0
  | .string s => (JTree.string s).write compact 0

def canonicalItems : List JTree → List JsString
  | [] => []
  | item :: items => canonicalJson item :: canonicalItems items

def canonicalMembers : List (JsString × JTree) → List (JsString × JsString)
  | [] => []
  | (name, value) :: members => (name, canonicalJson value) :: canonicalMembers members

end

/-- A value : no object of it has two members of one name. -/
structure JsonValue where
  tree : JTree
  distinct : ¬ tree.RepeatsAKey

mutual

/-- Equal up to the order of keys. -/
def SameUpToOrder : JTree → JTree → Prop
  | .null, .null => True
  | .bool a, .bool b => a = b
  | .number m, .number n => m = n
  | .string s, .string t => s = t
  | .array xs, .array ys => SameItems xs ys
  | .object ms, .object ns => ms.length = ns.length ∧ MembersIn ms ns
  | _, _ => False

def SameItems : List JTree → List JTree → Prop
  | [], [] => True
  | x :: xs, y :: ys => SameUpToOrder x y ∧ SameItems xs ys
  | _, _ => False

/-- Every member is among the others, with a value that is the same. -/
def MembersIn : List (JsString × JTree) → List (JsString × JTree) → Prop
  | [], _ => True
  | (name, value) :: ms, ns =>
    (∃ other, (name, other) ∈ ns ∧ SameUpToOrder value other) ∧ MembersIn ms ns

end

mutual

/-- The value with the keys of every object sorted. -/
def sorted : JTree → JTree
  | .array items => .array (sortedItems items)
  | .object members => .object ((sortedMembers members).insertionSort fun a b => a.1 ≤ b.1)
  | .null => .null
  | .bool b => .bool b
  | .number n => .number n
  | .string s => .string s

def sortedItems : List JTree → List JTree
  | [] => []
  | item :: items => sorted item :: sortedItems items

def sortedMembers : List (JsString × JTree) → List (JsString × JTree)
  | [] => []
  | (name, value) :: members => (name, sorted value) :: sortedMembers members

end

section Canonical

variable {x y : JTree} {xs ys : List JTree} {ms ns : List (JsString × JTree)}

theorem enclose_compact (depth : ℕ) (first last : UInt16) (parts : List JsString) :
    compact.enclose depth first last parts = first :: commaJoin parts ++ [last] := by
  have hjoin : ∀ parts : List JsString, compact.join (depth + 1) parts = commaJoin parts := by
    intro parts
    induction parts with
    | nil => rfl
    | cons part parts ih =>
      cases parts with
      | nil => exact (joinAt_singleton 0x2C part).symm
      | cons next parts =>
        rw [commaJoin, joinAt_cons (List.cons_ne_nil next parts), ← commaJoin, ← ih]
        rfl
  cases parts with
  | nil => rfl
  | cons part parts =>
    show first :: compact.join (depth + 1) (part :: parts) ++ [] ++ [last] = _
    rw [hjoin, List.append_nil]

theorem sortedMembers_eq : ∀ members : List (JsString × JTree),
    sortedMembers members = members.map fun m => (m.1, sorted m.2)
  | [] => rfl
  | m :: members => by rw [sortedMembers, sortedMembers_eq members, List.map_cons]

theorem writeMembers_eq (depth : ℕ) : ∀ members : List (JsString × JTree),
    JTree.writeMembers compact depth members =
      members.map fun m => quote m.1 ++ 0x3A :: m.2.write compact depth
  | [] => rfl
  | m :: members => by
    rw [JTree.writeMembers, writeMembers_eq depth members, List.map_cons]
    simp [compact]

mutual

/-- The canonical text is the text of the sorted value. -/
theorem write_sorted : ∀ (x : JTree) (depth : ℕ), (sorted x).write compact depth = canonicalJson x
  | .null, _ => rfl
  | .bool true, _ => rfl
  | .bool false, _ => rfl
  | .number _, _ => rfl
  | .string _, _ => rfl
  | .array items, depth => by
    rw [sorted, JTree.write, enclose_compact, write_sortedItems items (depth + 1), canonicalJson]
  | .object members, depth => by
    rw [sorted, JTree.write, enclose_compact, writeMembers_eq, canonicalJson]
    have hsort : ((sortedMembers members).insertionSort fun a b => a.1 ≤ b.1).map
        (fun m => (m.1, m.2.write compact (depth + 1))) =
        (canonicalMembers members).insertionSort fun a b => a.1 ≤ b.1 := by
      rw [← write_sortedMembers members (depth + 1)]
      exact List.map_insertionSort (fun a b : JsString × JTree => a.1 ≤ b.1)
        (fun a b : JsString × JsString => a.1 ≤ b.1) _ _ fun _ _ _ _ => Iff.rfl
    rw [← hsort, List.map_map]
    rfl

theorem write_sortedItems : ∀ (items : List JTree) (depth : ℕ),
    JTree.writeItems compact depth (sortedItems items) = canonicalItems items
  | [], _ => rfl
  | item :: items, depth => by
    rw [sortedItems, JTree.writeItems, write_sorted item depth, write_sortedItems items depth,
      canonicalItems]

theorem write_sortedMembers : ∀ (members : List (JsString × JTree)) (depth : ℕ),
    (sortedMembers members).map (fun m => (m.1, m.2.write compact depth)) = canonicalMembers members
  | [], _ => rfl
  | (name, value) :: members, depth => by
    rw [sortedMembers, List.map_cons, write_sorted value depth, write_sortedMembers members depth,
      canonicalMembers]

end

/-- Values of one canonical text are one when sorted. -/
theorem canonicalJson_eq_iff_sorted : canonicalJson x = canonicalJson y ↔ sorted x = sorted y := by
  rw [← write_sorted x 0, ← write_sorted y 0]
  exact ⟨compact_injective, fun h => h ▸ rfl⟩

/-- Members of distinct names are sorted in one way. -/
theorem sort_eq_iff (hms : (ms.map Prod.fst).Nodup) :
    (ms.insertionSort fun a b => a.1 ≤ b.1) = (ns.insertionSort fun a b => a.1 ≤ b.1) ↔
      ms.length = ns.length ∧ ms ⊆ ns := by
  constructor
  · intro h
    have hperm : ms.Perm ns :=
      (List.perm_insertionSort _ ms).symm.trans (h ▸ List.perm_insertionSort _ ns)
    exact ⟨hperm.length_eq, hperm.subset⟩
  · rintro ⟨hlen, hsub⟩
    have hperm : ms.Perm ns :=
      (List.subperm_of_subset hms.of_map hsub).perm_of_length_le hlen.ge
    have : Std.Total fun a b : JsString × JTree => a.1 ≤ b.1 := ⟨fun a b => List.le_total a.1 b.1⟩
    have : IsTrans (JsString × JTree) fun a b => a.1 ≤ b.1 := ⟨fun _ _ _ hab hbc => List.le_trans hab hbc⟩
    refine List.Perm.eq_of_pairwise (fun a b ha hb hab hba => ?_)
      (List.pairwise_insertionSort (fun a b : JsString × JTree => a.1 ≤ b.1) ms)
      (List.pairwise_insertionSort (fun a b : JsString × JTree => a.1 ≤ b.1) ns)
      ((List.perm_insertionSort _ ms).trans (hperm.trans (List.perm_insertionSort _ ns).symm))
    -- Two members of one name are one.
    have ha' := (List.perm_insertionSort _ ms).mem_iff.1 ha
    have hb' := hperm.mem_iff.2 ((List.perm_insertionSort _ ns).mem_iff.1 hb)
    exact List.inj_on_of_nodup_map hms ha' hb' (List.le_antisymm hab hba)

mutual

theorem sameUpToOrder_iff : ∀ {x y : JTree}, ¬ x.RepeatsAKey → ¬ y.RepeatsAKey →
    (SameUpToOrder x y ↔ sorted x = sorted y)
  | .array xs, .array ys, hx, hy => by
    rw [SameUpToOrder, sorted, sorted, JTree.array.injEq]
    exact sameItems_iff (fun x hmem hrep => hx (.item hmem hrep)) fun y hmem hrep => hy (.item hmem hrep)
  | .object ms, .object ns, hx, hy => by
    have hms : (ms.map Prod.fst).Nodup := not_not.1 fun h => hx (.here h)
    have hkeys : ∀ l : List (JsString × JTree), (sortedMembers l).map Prod.fst = l.map Prod.fst := by
      intro l
      rw [sortedMembers_eq, List.map_map]
      rfl
    rw [SameUpToOrder, sorted, sorted, JTree.object.injEq,
      sort_eq_iff (hkeys ms ▸ hms),
      membersIn_iff (fun m hmem hrep => hx (.member hmem hrep)) fun m hmem hrep => hy (.member hmem hrep),
      sortedMembers_eq, sortedMembers_eq, List.length_map, List.length_map]
  | .null, y, _, _ => by cases y <;> simp [SameUpToOrder, sorted]
  | .bool _, y, _, _ => by cases y <;> simp [SameUpToOrder, sorted]
  | .number _, y, _, _ => by cases y <;> simp [SameUpToOrder, sorted]
  | .string _, y, _, _ => by cases y <;> simp [SameUpToOrder, sorted]
  | .array _, .null, _, _ | .array _, .bool _, _, _ | .array _, .number _, _, _
  | .array _, .string _, _, _ | .array _, .object _, _, _ => by simp [SameUpToOrder, sorted]
  | .object _, .null, _, _ | .object _, .bool _, _, _ | .object _, .number _, _, _
  | .object _, .string _, _, _ | .object _, .array _, _, _ => by simp [SameUpToOrder, sorted]

theorem sameItems_iff : ∀ {xs ys : List JTree}, (∀ x ∈ xs, ¬ x.RepeatsAKey) →
    (∀ y ∈ ys, ¬ y.RepeatsAKey) → (SameItems xs ys ↔ sortedItems xs = sortedItems ys)
  | [], [], _, _ => by simp [SameItems]
  | [], _ :: _, _, _ => by simp [SameItems, sortedItems]
  | _ :: _, [], _, _ => by simp [SameItems, sortedItems]
  | x :: xs, y :: ys, hx, hy => by
    rw [SameItems, sortedItems, sortedItems, List.cons.injEq,
      sameUpToOrder_iff (hx x List.mem_cons_self) (hy y List.mem_cons_self),
      sameItems_iff (fun x h => hx x (List.mem_cons_of_mem _ h)) fun y h => hy y (List.mem_cons_of_mem _ h)]

theorem membersIn_iff : ∀ {ms ns : List (JsString × JTree)}, (∀ m ∈ ms, ¬ m.2.RepeatsAKey) →
    (∀ n ∈ ns, ¬ n.2.RepeatsAKey) → (MembersIn ms ns ↔ sortedMembers ms ⊆ sortedMembers ns)
  | [], _, _, _ => by simp [MembersIn, sortedMembers]
  | (name, value) :: ms, ns, hms, hns => by
    rw [MembersIn, sortedMembers, List.cons_subset,
      membersIn_iff (fun m h => hms m (List.mem_cons_of_mem _ h)) hns, sortedMembers_eq ns, List.mem_map]
    refine and_congr_left fun _ => ⟨?_, ?_⟩
    · rintro ⟨other, hmem, hsame⟩
      have := (sameUpToOrder_iff (hms _ List.mem_cons_self) (hns _ hmem)).1 hsame
      exact ⟨_, hmem, by rw [this]⟩
    · rintro ⟨⟨other, tree⟩, hmem, heq⟩
      obtain ⟨rfl, hsame⟩ := Prod.mk.inj heq
      exact ⟨tree, hmem, (sameUpToOrder_iff (hms _ List.mem_cons_self) (hns _ hmem)).2 hsame.symm⟩

end

/-- Values have one canonical text if they are equal up to the order of keys. -/
theorem canonicalJson_eq_iff (a b : JsonValue) :
    canonicalJson a.tree = canonicalJson b.tree ↔ SameUpToOrder a.tree b.tree :=
  canonicalJson_eq_iff_sorted.trans (sameUpToOrder_iff a.distinct b.distinct).symm

end Canonical

/-! ## HTML fields -/

/-- How markup is read : whether two are equal as trees, whether one ends closed, and the tags of it that
a parser drops. -/
structure Html where
  htmlEqual : JsString → JsString → Bool
  endsClosed : JsString → Bool
  droppedTagsOf : JsString → List JsString

/-- The tree of the markup shows all of it. -/
def Html.shows (R : Html) (s : JsString) : Bool :=
  R.endsClosed s && (R.droppedTagsOf s).isEmpty

/-- One field of two objects, which may be an HTML field. -/
def sameField (R : Html) (html : Bool) (x y : JTree) : Bool :=
  match x, y with
  | .string s, .string t =>
    if html && R.shows s && R.shows t then R.htmlEqual s t
    else canonicalJson (.string s) = canonicalJson (.string t)
  | x, y => canonicalJson x = canonicalJson y

/-- What two objects hold under one key. -/
def sameOwn (R : Html) (html : Bool) (x y : Option JTree) : Bool :=
  match x, y with
  | some x, some y => sameField R html x y
  | none, none => true
  | _, _ => false

/-- Whether two values are the same. A field that one of two objects holds and the other does not differs. -/
def sameValue (R : Html) (a b : JTree) (htmlFields : List JsString) : Bool :=
  match a, b with
  | .object xs, .object ys =>
    if htmlFields.isEmpty then canonicalJson a = canonicalJson b
    else
      (xs.map Prod.fst ++ ys.map Prod.fst).all fun k =>
        sameOwn R (htmlFields.contains k) (xs.lookup k) (ys.lookup k)
  | a, b => canonicalJson a = canonicalJson b

section Same

variable {R : Html} {html : Bool} {x y : JTree} {a b : JTree} {htmlFields : List JsString}

/-- An equivalence of its own on a part of which another equivalence does not lead. -/
theorem equivalence_split {α : Type*} {P : α → Prop} {r e : α → α → Prop} (he : Equivalence e)
    (hP : ∀ {x y}, e x y → P x → P y) (hrefl : ∀ {x}, P x → r x x) (hsymm : ∀ {x y}, r x y → r y x)
    (htrans : ∀ {x y z}, r x y → r y z → r x z) :
    Equivalence fun x y => P x ∧ P y ∧ r x y ∨ ¬ P x ∧ e x y where
  refl x := by
    by_cases hx : P x
    · exact .inl ⟨hx, hx, hrefl hx⟩
    · exact .inr ⟨hx, he.refl x⟩
  symm := by
    rintro x y (⟨hx, hy, h⟩ | ⟨hx, h⟩)
    · exact .inl ⟨hy, hx, hsymm h⟩
    · exact .inr ⟨fun hy => hx (hP (he.symm h) hy), he.symm h⟩
  trans := by
    rintro x y z (⟨hx, hy, h⟩ | ⟨hx, h⟩) (⟨hy', hz, h'⟩ | ⟨hy', h'⟩)
    · exact .inl ⟨hx, hz, htrans h h'⟩
    · exact absurd hy hy'
    · exact absurd (hP (he.symm h) hy') hx
    · exact .inr ⟨hx, he.trans h h'⟩

theorem eq_string_of_canonical {t : JsString} (h : canonicalJson x = canonicalJson (.string t)) :
    x = .string t := by
  have := canonicalJson_eq_iff_sorted.1 h
  cases x <;> simp_all [sorted]

theorem eq_object_of_canonical {ys : List (JsString × JTree)}
    (h : canonicalJson x = canonicalJson (.object ys)) : ∃ xs, x = .object xs := by
  have := canonicalJson_eq_iff_sorted.1 h
  cases x with
  | object xs => exact ⟨xs, rfl⟩
  | _ => simp [sorted] at this

/-- Markup whose tree shows all of it. -/
def Html.ShownText (R : Html) (x : JTree) : Prop :=
  ∃ s, x = .string s ∧ R.shows s = true

theorem sameField_iff : sameField R html x y = true ↔
    (html = true ∧ R.ShownText x) ∧ (html = true ∧ R.ShownText y) ∧
      (∃ s t, x = .string s ∧ y = .string t ∧ R.htmlEqual s t = true) ∨
    ¬ (html = true ∧ R.ShownText x) ∧ canonicalJson x = canonicalJson y := by
  have hother : canonicalJson x = canonicalJson y →
      ((html = true ∧ R.ShownText x) ↔ (html = true ∧ R.ShownText y)) := by
    intro h
    refine and_congr_right fun _ => ⟨?_, ?_⟩
    · rintro ⟨s, rfl, hs⟩
      exact ⟨s, eq_string_of_canonical h.symm, hs⟩
    · rintro ⟨s, rfl, hs⟩
      exact ⟨s, eq_string_of_canonical h, hs⟩
  unfold sameField
  split
  · next s t =>
    have hshown : ∀ u : JsString, R.ShownText (.string u) ↔ R.shows u = true := fun u =>
      ⟨fun ⟨_, heq, h⟩ => JTree.string.inj heq ▸ h, fun h => ⟨u, rfl, h⟩⟩
    simp only [hshown] at hother ⊢
    split_ifs with h
    · simp only [Bool.and_eq_true] at h
      simp [h]
    · rw [decide_eq_true_eq]
      simp only [Bool.and_eq_true] at h
      constructor
      · intro heq
        exact .inr ⟨fun hs => h ⟨hs, ((hother heq).1 hs).2⟩, heq⟩
      · rintro (⟨hs, ht, -⟩ | ⟨-, heq⟩)
        · exact absurd ⟨hs, ht.2⟩ h
        · exact heq
  · next hnot =>
    rw [decide_eq_true_eq]
    constructor
    · intro heq
      refine .inr ⟨?_, heq⟩
      rintro ⟨-, s, rfl, -⟩
      exact hnot s s rfl (eq_string_of_canonical heq.symm)
    · rintro (⟨-, -, s, t, rfl, rfl, -⟩ | ⟨-, heq⟩)
      · exact absurd rfl (hnot s t rfl)
      · exact heq

theorem sameField_equivalence (hhtml : Equivalence fun s t => R.htmlEqual s t = true) (html : Bool) :
    Equivalence fun x y => sameField R html x y = true := by
  simp only [sameField_iff]
  refine equivalence_split ⟨fun _ => rfl, Eq.symm, Eq.trans⟩ ?_ ?_ ?_ ?_
  · rintro x y h ⟨hh, s, rfl, hs⟩
    exact ⟨hh, s, eq_string_of_canonical h.symm, hs⟩
  · rintro x ⟨-, s, rfl, -⟩
    exact ⟨s, s, rfl, rfl, hhtml.refl s⟩
  · rintro x y ⟨s, t, rfl, rfl, h⟩
    exact ⟨t, s, rfl, rfl, hhtml.symm h⟩
  · rintro x y z ⟨s, t, rfl, rfl, h⟩ ⟨t', u, heq, rfl, h'⟩
    obtain rfl := JTree.string.inj heq
    exact ⟨s, u, rfl, rfl, hhtml.trans h h'⟩

theorem sameOwn_equivalence (hhtml : Equivalence fun s t => R.htmlEqual s t = true) (html : Bool) :
    Equivalence fun x y => sameOwn R html x y = true where
  refl x := by
    cases x with
    | none => rfl
    | some x => exact (sameField_equivalence hhtml html).refl x
  symm {x y} h := by
    cases x <;> cases y
    · rfl
    · exact nomatch h
    · exact nomatch h
    · exact (sameField_equivalence hhtml html).symm h
  trans {x y z} h h' := by
    cases x <;> cases y <;> cases z
    · rfl
    · exact nomatch h'
    · exact nomatch h
    · exact nomatch h
    · exact nomatch h
    · exact nomatch h
    · exact nomatch h'
    · exact (sameField_equivalence hhtml html).trans h h'

/-- Objects are compared field by field if there are HTML fields. -/
theorem sameValue_iff : sameValue R a b htmlFields = true ↔
    (htmlFields ≠ [] ∧ ∃ xs, a = .object xs) ∧ (htmlFields ≠ [] ∧ ∃ ys, b = .object ys) ∧
      (∃ xs ys, a = .object xs ∧ b = .object ys ∧
        ∀ k, sameOwn R (htmlFields.contains k) (xs.lookup k) (ys.lookup k) = true) ∨
    ¬ (htmlFields ≠ [] ∧ ∃ xs, a = .object xs) ∧ canonicalJson a = canonicalJson b := by
  unfold sameValue
  split
  · next xs ys =>
    split_ifs with hnone
    · simp [List.isEmpty_iff.1 hnone]
    · have hne : htmlFields ≠ [] := fun h => hnone (List.isEmpty_iff.2 h)
      simp only [hne, ne_eq, not_false_eq_true, JTree.object.injEq, true_and, exists_eq', not_true,
        false_and, or_false, List.all_eq_true]
      constructor
      · intro h
        refine ⟨xs, ys, rfl, rfl, fun k => ?_⟩
        by_cases hk : k ∈ xs.map Prod.fst ++ ys.map Prod.fst
        · exact h k hk
        · -- Neither object holds the key.
          rw [List.mem_append, not_or] at hk
          have hnot : ∀ l : List (JsString × JTree), k ∉ l.map Prod.fst → l.lookup k = none := by
            intro l hl
            rw [List.lookup_eq_none_iff]
            intro m hm
            simpa using fun heq : k = m.1 => hl (heq ▸ List.mem_map_of_mem hm)
          rw [hnot xs hk.1, hnot ys hk.2]
          rfl
      · rintro ⟨xs', ys', rfl, rfl, h⟩ k -
        exact h k
  · next hnot =>
    rw [decide_eq_true_eq]
    constructor
    · intro heq
      refine .inr ⟨?_, heq⟩
      rintro ⟨-, xs, rfl⟩
      obtain ⟨ys, rfl⟩ := eq_object_of_canonical heq.symm
      exact hnot xs ys rfl rfl
    · rintro (⟨-, -, xs, ys, rfl, rfl, -⟩ | ⟨-, heq⟩)
      · exact absurd rfl (hnot xs ys rfl)
      · exact heq

/-- Comparing values is an equivalence, and without HTML fields it is equality up to the order of keys. -/
theorem sameValue_equivalence (R : Html) (hhtml : Equivalence fun s t => R.htmlEqual s t = true) :
    (∀ htmlFields, Equivalence fun a b : JsonValue => sameValue R a.tree b.tree htmlFields = true) ∧
      ∀ a b : JsonValue, sameValue R a.tree b.tree [] = true ↔ SameUpToOrder a.tree b.tree := by
  refine ⟨fun htmlFields => ?_, fun a b => ?_⟩
  · have htrees : Equivalence fun a b : JTree => sameValue R a b htmlFields = true := by
      simp only [sameValue_iff]
      refine equivalence_split ⟨fun _ => rfl, Eq.symm, Eq.trans⟩ ?_ ?_ ?_ ?_
      · rintro a b h ⟨hne, xs, rfl⟩
        exact ⟨hne, eq_object_of_canonical h.symm⟩
      · rintro a ⟨-, xs, rfl⟩
        exact ⟨xs, xs, rfl, rfl, fun k => (sameOwn_equivalence hhtml _).refl _⟩
      · rintro a b ⟨xs, ys, rfl, rfl, h⟩
        exact ⟨ys, xs, rfl, rfl, fun k => (sameOwn_equivalence hhtml _).symm (h k)⟩
      · rintro a b c ⟨xs, ys, rfl, rfl, h⟩ ⟨ys', zs, heq, rfl, h'⟩
        obtain rfl := JTree.object.inj heq
        exact ⟨xs, zs, rfl, rfl, fun k => (sameOwn_equivalence hhtml _).trans (h k) (h' k)⟩
    exact ⟨fun a => htrees.refl a.tree, htrees.symm, htrees.trans⟩
  · rw [sameValue_iff, ← canonicalJson_eq_iff]
    simp

/-- Markup that is compared as it is written. -/
theorem sameValue_equivalence_of_eq :
    (∀ htmlFields, Equivalence fun a b : JsonValue =>
      sameValue ⟨fun s t => s = t, fun _ => true, fun _ => []⟩ a.tree b.tree htmlFields = true) ∧
    ∀ a b : JsonValue,
      sameValue ⟨fun s t => s = t, fun _ => true, fun _ => []⟩ a.tree b.tree [] = true ↔
        SameUpToOrder a.tree b.tree :=
  sameValue_equivalence ⟨fun s t => s = t, fun _ => true, fun _ => []⟩
    (by simpa using eq_equivalence)

end Same

/-! ## Diffs -/

inductive BeforeImage
  | absent
  | value (v : JTree)

def BeforeImage.prior : BeforeImage → Option JTree
  | .absent => none
  | .value v => some v

inductive BulkChange
  | create | update | unchanged
  deriving DecidableEq

def classifyChange (R : Html) (before : BeforeImage) (after : JTree) (htmlFields : List JsString) :
    BulkChange :=
  match before with
  | .absent => .create
  | .value v => if sameValue R v after htmlFields then .unchanged else .update

inductive TargetDiff
  | none
  | text (start : ℕ) (removed added : List JsString)
  | fields (fields : List (JsString × Option JTree × Option JTree))

/-- How many lines two texts have in common at their start. -/
def commonStart : List JsString → List JsString → ℕ
  | x :: a, y :: b => if x = y then commonStart a b + 1 else 0
  | _, _ => 0

/-- Where the lines begin that two texts have in common at their end, none before `start`. -/
def commonEnd (a b : List JsString) (start : ℕ) : ℕ → ℕ → ℕ × ℕ
  | endA + 1, endB + 1 =>
    if start < endA + 1 ∧ start < endB + 1 ∧ a[endA]? = b[endB]? then commonEnd a b start endA endB
    else (endA + 1, endB + 1)
  | endA, endB => (endA, endB)

def diffText (prior : Option JsString) (after : JsString) : TargetDiff :=
  let a := prior.elim [] (split 0x0A)
  let b := split 0x0A after
  if prior = some after then .none
  else
    let start := commonStart a b
    let ends := commonEnd a b start a.length b.length
    .text start ((a.take ends.1).drop start) ((b.take ends.2).drop start)

/-- What is not there is written as null. -/
def canonicalOf (v : Option JTree) : JsString :=
  v.elim (canonicalJson .null) canonicalJson

def diffTarget (before : BeforeImage) (after : JTree) : TargetDiff :=
  match before.prior, after with
  | none, .string after => diffText none after
  | some (.string prior), .string after => diffText (some prior) after
  | prior, .object members =>
    let priorObj := match prior with
      | some (.object priorMembers) => priorMembers
      | _ => []
    let fields := ((members.map Prod.fst).insertionSort (· ≤ ·)).filter fun f =>
      canonicalOf (priorObj.lookup f) ≠ canonicalOf (members.lookup f)
    if fields.isEmpty then .none
    else .fields (fields.map fun f => (f, priorObj.lookup f, members.lookup f))
  | prior, after =>
    if canonicalOf prior = canonicalJson after then .none else .fields [([], prior, some after)]

section Diff

variable {a b : List JsString} {start : ℕ}

theorem commonStart_spec : ∀ a b : List JsString, commonStart a b ≤ a.length ∧
    commonStart a b ≤ b.length ∧ a.take (commonStart a b) = b.take (commonStart a b)
  | [], _ => by simp [commonStart]
  | _ :: _, [] => by simp [commonStart]
  | x :: a, y :: b => by
    rw [commonStart]
    split_ifs with hxy
    · obtain ⟨ha, hb, htake⟩ := commonStart_spec a b
      rw [List.take_succ_cons, List.take_succ_cons, hxy, htake]
      exact ⟨Nat.succ_le_succ ha, Nat.succ_le_succ hb, rfl⟩
    · exact ⟨Nat.zero_le _, Nat.zero_le _, rfl⟩

/-- The cursors stay behind the start, and what is behind them is the same. -/
theorem commonEnd_spec : ∀ {endA endB : ℕ}, start ≤ endA → start ≤ endB → endA ≤ a.length →
    endB ≤ b.length → a.drop endA = b.drop endB →
    start ≤ (commonEnd a b start endA endB).1 ∧ start ≤ (commonEnd a b start endA endB).2 ∧
      (commonEnd a b start endA endB).1 ≤ a.length ∧ (commonEnd a b start endA endB).2 ≤ b.length ∧
      a.drop (commonEnd a b start endA endB).1 = b.drop (commonEnd a b start endA endB).2
  | 0, _, hA, hB, hlenA, hlenB, hdrop => by
    unfold commonEnd
    exact ⟨hA, hB, hlenA, hlenB, hdrop⟩
  | endA + 1, 0, hA, hB, hlenA, hlenB, hdrop => ⟨hA, hB, hlenA, hlenB, hdrop⟩
  | endA + 1, endB + 1, hA, hB, hlenA, hlenB, hdrop => by
    rw [commonEnd]
    split_ifs with h
    · obtain ⟨hA', hB', hline⟩ := h
      have hltA : endA < a.length := hlenA
      have hltB : endB < b.length := hlenB
      refine commonEnd_spec (by omega) (by omega) hltA.le hltB.le ?_
      rw [List.getElem?_eq_getElem hltA, List.getElem?_eq_getElem hltB, Option.some_inj] at hline
      rw [List.drop_eq_getElem_cons hltA, List.drop_eq_getElem_cons hltB, hline, hdrop]
    · exact ⟨hA, hB, hlenA, hlenB, hdrop⟩

/-- A hunk put in the place of the lines it takes out. -/
def applyHunk (lines : List JsString) (start : ℕ) (removed added : List JsString) : JsString :=
  joinAt 0x0A (lines.take start ++ added ++ lines.drop (start + removed.length))

/-- A hunk takes out lines that are there and makes the other text, and only equal texts have none. -/
theorem diffTarget_faithful (before : Option JsString) (after : JsString) :
    match diffTarget (before.elim .absent fun text => .value (.string text)) (.string after) with
    | .none => before = some after
    | .text start removed added =>
      ((before.elim [] (split 0x0A)).drop start).take removed.length = removed ∧
        applyHunk (before.elim [] (split 0x0A)) start removed added = after
    | .fields _ => False := by
  have htarget : diffTarget (before.elim .absent fun text => .value (.string text)) (.string after) =
      diffText before after := by
    cases before <;> rfl
  rw [htarget, diffText]
  split_ifs with heq
  · exact heq
  obtain ⟨a, ha⟩ : ∃ a, a = before.elim [] (split 0x0A) := ⟨_, rfl⟩
  obtain ⟨b, hb⟩ : ∃ b, b = split 0x0A after := ⟨_, rfl⟩
  rw [← ha, ← hb]
  dsimp only
  obtain ⟨hstartA, hstartB, htake⟩ := commonStart_spec a b
  obtain ⟨hA, hB, hlenA, hlenB, hdrop⟩ := commonEnd_spec hstartA hstartB le_rfl le_rfl
    (by rw [List.drop_length, List.drop_length])
  obtain ⟨ends, hends⟩ : ∃ ends, ends = commonEnd a b (commonStart a b) a.length b.length := ⟨_, rfl⟩
  rw [← hends] at hA hB hlenA hlenB hdrop ⊢
  have hremoved : ((a.take ends.1).drop (commonStart a b)).length = ends.1 - commonStart a b := by
    rw [List.length_drop, List.length_take, Nat.min_eq_left hlenA]
  refine ⟨?_, ?_⟩
  · rw [hremoved, List.drop_take]
  · have hlines : a.take (commonStart a b) ++ (b.take ends.2).drop (commonStart a b) ++
        a.drop (commonStart a b + ((a.take ends.1).drop (commonStart a b)).length) = b := by
      rw [hremoved, Nat.add_sub_cancel' hA, hdrop, htake]
      nth_rewrite 1 [← Nat.min_eq_left hB]
      rw [← List.take_take, List.take_append_drop, List.take_append_drop]
    rw [applyHunk, hlines]
    exact joinAt_split hb.symm

end Diff

end Lynox.Bulk.Values
