import Lynox.Outbound.RepeatedKeys
import Lynox.Text.JsonText

/-!
# The body an approval question shows

`bodyForQuestion` shows a JSON body that is its own serialisation, but for white space, as an
indented one with every name and string masked. It rebuilds the value as objects, so names that mask
alike become one member.

What it indents is the whole body with its names and strings masked if and only if, in every object, the masked
names are different and stand in the order of an object (`displays_iff`).
-/

namespace Lynox.Outbound

open Text

/-- What the display needs of the language, and of the rest of the file. -/
structure Display where
  /-- How a number is written once it is parsed. One out of range is `null`. -/
  number : JsonNumber → Option JsonNumber
  /-- The format characters of Unicode. -/
  isFormat : ℕ → Bool
  /-- Whether the percent-decoded form of a text holds a secret. -/
  hidesEncodedSecret : JsString → (JsString → JsString) → Bool

/-- What the question shows of a body. -/
inductive BodyShowing
  | shown (text : JsString) (escapedSecret : Bool)
  | unshowable
  deriving DecidableEq

/-! ## Values -/

mutual

/-- `JSON.parse` : the value of a tree. -/
def parsed (D : Display) : JTree → JTree
  | .number n => (D.number n).elim .null .number
  | .array items => .array (parsedItems D items)
  | .object members => .object (fromEntries (parsedMembers D members))
  | tree => tree

def parsedItems (D : Display) : List JTree → List JTree
  | [] => []
  | tree :: items => parsed D tree :: parsedItems D items

def parsedMembers (D : Display) : List (JsString × JTree) → List (JsString × JTree)
  | [] => []
  | (name, tree) :: members => (name, parsed D tree) :: parsedMembers D members

end

mutual

/-- A value with its names and strings masked, its objects made anew by `object`. -/
def masked (object : List (JsString × JTree) → List (JsString × JTree)) (mask : JsString → JsString) :
    JTree → JTree
  | .string s => .string (mask s)
  | .array items => .array (maskedItems object mask items)
  | .object members => .object (object (maskedMembers object mask members))
  | tree => tree

def maskedItems (object : List (JsString × JTree) → List (JsString × JTree)) (mask : JsString → JsString) :
    List JTree → List JTree
  | [] => []
  | tree :: items => masked object mask tree :: maskedItems object mask items

def maskedMembers (object : List (JsString × JTree) → List (JsString × JTree))
    (mask : JsString → JsString) :
    List (JsString × JTree) → List (JsString × JTree)
  | [] => []
  | (name, tree) :: members => (mask name, masked object mask tree) :: maskedMembers object mask members

end

mutual

/-- The names and strings of a value. -/
def texts : JTree → List JsString
  | .string s => [s]
  | .array items => textsOfItems items
  | .object members => textsOfMembers members
  | _ => []

def textsOfItems : List JTree → List JsString
  | [] => []
  | tree :: items => texts tree ++ textsOfItems items

def textsOfMembers : List (JsString × JTree) → List JsString
  | [] => []
  | (name, tree) :: members => name :: texts tree ++ textsOfMembers members

end

/-! ## The question -/

def upperHexDigit (n : ℕ) : UInt16 :=
  if n < 10 then .ofNat (0x30 + n) else .ofNat (0x41 + (n - 10))

/-- `⟨U+XXXX⟩`, with at least four digits. -/
def spelledOut (n : ℕ) : JsString :=
  let hex := (Nat.digits 16 n).reverse.map upperHexDigit
  [0x27E8, 0x55, 0x2B] ++ List.replicate (4 - hex.length) 0x30 ++ hex ++ [0x27E9]

/-- A character a reader cannot see, or that breaks a line where the display shows none. -/
def invisible (D : Display) (n : ℕ) : Bool :=
  D.isFormat n || n ≤ 0x08 || (0x0B ≤ n && n ≤ 0x1F) || (0x7F ≤ n && n ≤ 0x9F) || n = 0x2028 || n = 0x2029

/-- The text with its invisible characters spelled out. -/
def visible (D : Display) (text : JsString) : JsString :=
  (pieces text).flatMap fun
    | .scalar n => if invisible D n then spelledOut n else units n
    | .lone u => [u]

/-- `walk` : the value rebuilt with every name and string masked. -/
def walk (mask : JsString → JsString) (value : JTree) : JTree :=
  masked fromEntries mask value

/-- `JSON.stringify(walk(parsed), null, 2)`. -/
def questionJson (mask : JsString → JsString) (value : JTree) : JsString :=
  (walk mask value).write indented 0

/-- The string literals of a text, with their quotes. -/
def stringLiterals (text : JsString) : List JsString :=
  match text with
  | [] => []
  | u :: rest =>
    if u = 0x22 then
      match h : stringEnd rest with
      | none => stringLiterals rest
      | some (raw, after) =>
        have := length_stringEnd h
        (0x22 :: raw ++ [0x22]) :: stringLiterals after
    else stringLiterals rest
termination_by text.length
decreasing_by all_goals (simp_wf; try omega)

/-- Whether a literal of a masked text still holds a secret once it is decoded. -/
def holdsSecret (D : Display) (mask : JsString → JsString) (literal : JsString) : Bool :=
  match parse literal with
  | some (.string decoded) => mask decoded != decoded || D.hidesEncodedSecret decoded mask
  | _ => false

/-- How the question shows a body. One that is no JSON is left to `other`. -/
def bodyForQuestion (D : Display) (other : JsString → BodyShowing) (body : JsString)
    (mask : JsString → JsString) : BodyShowing :=
  match parseTree body with
  | none => other body
  | some tree =>
    let value := parsed D tree
    if value.write compact 0 = minifyJson false body then
      if (texts value).any fun s => D.hidesEncodedSecret (mask s) mask then .unshowable
      else .shown (visible D (mask (questionJson mask value))) false
    else
      let shownRaw := mask body
      if (parse shownRaw).isNone then .unshowable
      else if (stringLiterals shownRaw).any (holdsSecret D mask) then .unshowable
      else .shown (visible D shownRaw) false

/-! ## What is shown -/

mutual

/-- In every object the masked names are different, in the order of an object. -/
def NamesApart (mask : JsString → JsString) : JTree → Prop
  | .array items => ItemsApart mask items
  | .object members => OwnOrder (members.map fun m => mask m.1) ∧ MembersApart mask members
  | _ => True

def ItemsApart (mask : JsString → JsString) : List JTree → Prop
  | [] => True
  | tree :: items => NamesApart mask tree ∧ ItemsApart mask items

def MembersApart (mask : JsString → JsString) : List (JsString × JTree) → Prop
  | [] => True
  | (_, tree) :: members => NamesApart mask tree ∧ MembersApart mask members

end

/-- The text is what the second mask and the spelling out of invisible characters leave of the indented
serialisation of the whole value, each name and string masked in its place. -/
def Displays (D : Display) (mask : JsString → JsString) (value : JTree) (text : JsString) : Prop :=
  text = visible D (mask (questionJson mask value)) ∧
    questionJson mask value = (masked id mask value).write indented 0

section Shown

variable {mask : JsString → JsString} {members : List (JsString × JTree)}
  {object : List (JsString × JTree) → List (JsString × JTree)}

theorem names_maskedMembers : (maskedMembers object mask members).map Prod.fst =
    members.map fun m => mask m.1 := by
  induction members with
  | nil => rfl
  | cons m members ih => rw [maskedMembers, List.map_cons, List.map_cons, ih]

mutual

/-- Masked names that are apart lose no member. -/
theorem walk_eq : ∀ value : JTree, NamesApart mask value → masked fromEntries mask value =
    masked id mask value
  | .null, _ => rfl
  | .bool _, _ => rfl
  | .number _, _ => rfl
  | .string _, _ => rfl
  | .array items, h => congrArg JTree.array (walkItems_eq items h)
  | .object members, h => by
    have hself : fromEntries (maskedMembers fromEntries mask members) =
        maskedMembers fromEntries mask members :=
      fromEntries_eq_self_iff.2 (names_maskedMembers ▸ h.1)
    rw [masked, masked, hself, walkMembers_eq members h.2, id]

theorem walkItems_eq : ∀ items : List JTree, ItemsApart mask items →
    maskedItems fromEntries mask items = maskedItems id mask items
  | [], _ => rfl
  | tree :: items, h => by rw [maskedItems, maskedItems, walk_eq tree h.1, walkItems_eq items h.2]

theorem walkMembers_eq : ∀ members : List (JsString × JTree), MembersApart mask members →
    maskedMembers fromEntries mask members = maskedMembers id mask members
  | [], _ => rfl
  | (_, tree) :: members, h => by
    rw [maskedMembers, maskedMembers, walk_eq tree h.1, walkMembers_eq members h.2]

end

mutual

/-- Where no member is lost, the masked names are apart. -/
theorem namesApart_of_walk : ∀ value : JTree, masked fromEntries mask value = masked id mask value →
    NamesApart mask value
  | .null, _ => trivial
  | .bool _, _ => trivial
  | .number _, _ => trivial
  | .string _, _ => trivial
  | .array items, h => itemsApart_of_walk items (JTree.array.inj h)
  | .object members, h => by
    rw [masked, masked, id, JTree.object.injEq] at h
    have horder : OwnOrder (members.map fun m => mask m.1) := by
      have hnames : (maskedMembers id mask members).map Prod.fst = members.map fun m => mask m.1 :=
        names_maskedMembers
      rw [← hnames, ← h]
      exact ownOrder_fromEntries
    rw [fromEntries_eq_self_iff.2 (names_maskedMembers ▸ horder)] at h
    exact ⟨horder, membersApart_of_walk members h⟩

theorem itemsApart_of_walk : ∀ items : List JTree,
    maskedItems fromEntries mask items = maskedItems id mask items → ItemsApart mask items
  | [], _ => trivial
  | tree :: items, h => by
    rw [maskedItems, maskedItems, List.cons.injEq] at h
    exact ⟨namesApart_of_walk tree h.1, itemsApart_of_walk items h.2⟩

theorem membersApart_of_walk : ∀ members : List (JsString × JTree),
    maskedMembers fromEntries mask members = maskedMembers id mask members → MembersApart mask members
  | [], _ => trivial
  | (_, tree) :: members, h => by
    rw [maskedMembers, maskedMembers, List.cons.injEq, Prod.mk.injEq] at h
    exact ⟨namesApart_of_walk tree h.1.2, membersApart_of_walk members h.2⟩

end

end Shown

/-- A body that is shown is shown whole exactly where the masked names of each object are apart. -/
theorem displays_iff {D : Display} (other : JsString → BodyShowing) {mask : JsString → JsString}
    {body text : JsString} {escapedSecret : Bool} {tree : JTree} (htree : parseTree body = some tree)
    (hcanonical : (parsed D tree).write compact 0 = minifyJson false body)
    (hshown : bodyForQuestion D other body mask = .shown text escapedSecret) :
    Displays D mask (parsed D tree) text ↔ NamesApart mask (parsed D tree) := by
  have htext : text = visible D (mask (questionJson mask (parsed D tree))) := by
    simp only [bodyForQuestion, htree, hcanonical, if_true] at hshown
    split at hshown
    · exact absurd hshown (by simp)
    · exact (BodyShowing.shown.inj hshown).1.symm
  constructor
  · rintro ⟨-, hjson⟩
    exact namesApart_of_walk _ (indented_injective hjson)
  · exact fun h => ⟨htext, congrArg (JTree.write indented 0) (walk_eq _ h)⟩

/-- A display without format characters and encoded secrets. -/
def plainDisplay : Display where
  number := some
  isFormat _ := false
  hidesEncodedSecret _ _ := false

/-- The member `a` is 1, the member `b` is 2. -/
def twoMembers : JTree :=
  .object [([0x61], .number ⟨[0x31], rfl⟩), ([0x62], .number ⟨[0x32], rfl⟩)]

/-- A mask for the secrets `a` and `b`. -/
def starred (s : JsString) : JsString :=
  if s = [0x61] ∨ s = [0x62] then [0x2A] else s

theorem displays_iff_two_members :
    bodyForQuestion plainDisplay (fun _ => .unshowable) (twoMembers.write compact 0) id =
        .shown (twoMembers.write indented 0) false ∧
      (Displays plainDisplay id (parsed plainDisplay twoMembers) (twoMembers.write indented 0) ↔
        NamesApart id (parsed plainDisplay twoMembers)) :=
  have hshown : bodyForQuestion plainDisplay (fun _ => .unshowable) (twoMembers.write compact 0) id =
      .shown (twoMembers.write indented 0) false := by
    decide +kernel
  ⟨hshown, displays_iff (fun _ => .unshowable) (parseTree_compact twoMembers) (by decide +kernel) hshown⟩

/-- Two names with one mark are shown as one member. -/
theorem bodyForQuestion_merges : parseTree (twoMembers.write compact 0) = some twoMembers ∧
    (parsed plainDisplay twoMembers).write compact 0 = minifyJson false (twoMembers.write compact 0) ∧
    bodyForQuestion plainDisplay (fun _ => .unshowable) (twoMembers.write compact 0) starred =
      .shown ((JTree.object [([0x2A], .number ⟨[0x32], rfl⟩)]).write indented 0) false ∧
    (JTree.object [([0x2A], .number ⟨[0x32], rfl⟩)]).write indented 0 ≠
      (masked id starred twoMembers).write indented 0 :=
  ⟨parseTree_compact twoMembers, by decide +kernel, by decide +kernel, by decide +kernel⟩

end Lynox.Outbound
