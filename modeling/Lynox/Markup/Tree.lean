import Lynox.Text.Utf16
import Mathlib.Data.List.Sort
import Mathlib.Data.List.Lex

/-!
# The nodes of an HTML tree, and the markup read off them

A fragment is the list of its child nodes, as a parser makes it : texts, comments and elements, an
HTML `template` with its content apart from its child nodes. The walks over it are loops with a stack
(`walk`), and they visit the nodes in document order (`walk_eq`) : `descendants` with whether a node
sits inside a `template`'s content, `layoutBelow` with its depth.

`markupOf` lists every element and comment of a fragment (`Occurrence`), with the text and the layout
below the elements whose content is code or text, and every element and attribute (`Triple`).
-/

namespace Lynox.Markup

open Text

/-- The namespaces of the parser. -/
inductive NS
  | HTML | MATHML | SVG | XLINK | XML | XMLNS
  deriving DecidableEq

/-- An attribute as the parser holds it, its prefix empty where it has none. -/
structure Attr where
  scope : JsString
  name : JsString
  value : JsString

/-- What an element is without the nodes below it. -/
structure Tag where
  namespaceURI : NS
  tagName : JsString
  attrs : List Attr

inductive Node
  | text (value : JsString)
  | comment (data : JsString)
  | element (tag : Tag) (childNodes content : List Node)

/-- The child nodes of a fragment. -/
abbrev Fragment := List Node

/-- An HTML `template` : its nodes are in its content. -/
def Tag.isTemplate (tag : Tag) : Bool :=
  tag.tagName = utf16 "template" && tag.namespaceURI = .HTML

def Node.isTemplate : Node → Bool
  | .element tag _ _ => tag.isTemplate
  | _ => false

def childrenOf : Node → List Node
  | .element tag childNodes content => if tag.isTemplate then content else childNodes
  | _ => []

/-! ## The walk over a tree -/

mutual

/-- How many nodes there are in a node. -/
def Node.size : Node → ℕ
  | .text _ => 1
  | .comment _ => 1
  | .element _ childNodes content => 1 + sizes childNodes + sizes content

def sizes : List Node → ℕ
  | [] => 0
  | c :: cs => c.size + sizes cs

end

section Walk

variable {σ : Type*} (inner : Node → σ → σ)

/-- The loop of a walk : the node on top of the stack is visited, and its children are pushed with
what they inherit. -/
def walk : ℕ → List (Node × σ) → List (Node × σ)
  | 0, _ => []
  | _ + 1, [] => []
  | n + 1, (c, t) :: stack => (c, t) :: walk n ((childrenOf c).map (fun k => (k, inner c t)) ++ stack)

/-- The walk over the nodes below a node or a fragment. -/
def walkBelow (kids : List Node) (t : σ) : List (Node × σ) :=
  walk inner (sizes kids) (kids.map fun k => (k, t))

mutual

/-- A node and the nodes below it in document order, each with what it inherits. -/
def inOrder : Node → σ → List (Node × σ)
  | .text value, t => [(.text value, t)]
  | .comment data, t => [(.comment data, t)]
  | .element tag childNodes content, t =>
    let t' := inner (.element tag childNodes content) t
    (.element tag childNodes content, t) ::
      if tag.isTemplate then allInOrder content t' else allInOrder childNodes t'

def allInOrder : List Node → σ → List (Node × σ)
  | [], _ => []
  | c :: cs, t => inOrder c t ++ allInOrder cs t

end

variable {inner}

theorem inOrder_eq (c : Node) (t : σ) :
    inOrder inner c t = (c, t) :: allInOrder inner (childrenOf c) (inner c t) := by
  cases c with
  | text value => simp [inOrder, childrenOf, allInOrder]
  | comment data => simp [inOrder, childrenOf, allInOrder]
  | element tag childNodes content =>
    rw [inOrder, childrenOf]
    by_cases h : tag.isTemplate = true
    · simp [h]
    · simp [h]

theorem allInOrder_eq : ∀ (cs : List Node) (t : σ),
    allInOrder inner cs t = (cs.map fun c => (c, t)).flatMap fun p => inOrder inner p.1 p.2
  | [], t => by simp [allInOrder]
  | c :: cs, t => by rw [allInOrder, allInOrder_eq cs t, List.map_cons, List.flatMap_cons]

theorem sizes_append : ∀ cs ds : List Node, sizes (cs ++ ds) = sizes cs + sizes ds
  | [], ds => by simp [sizes]
  | c :: cs, ds => by rw [List.cons_append, sizes, sizes, sizes_append cs ds, Nat.add_assoc]

theorem sizes_childrenOf_lt (c : Node) : sizes (childrenOf c) < c.size := by
  cases c with
  | text value => simp [childrenOf, sizes, Node.size]
  | comment data => simp [childrenOf, sizes, Node.size]
  | element tag childNodes content =>
    rw [childrenOf, Node.size]
    split <;> omega

/-- The loop visits the nodes in document order. -/
theorem walk_eq : ∀ {n : ℕ} {stack : List (Node × σ)}, sizes (stack.map Prod.fst) ≤ n →
    walk inner n stack = stack.flatMap fun p => inOrder inner p.1 p.2
  | 0, [], _ => rfl
  | _ + 1, [], _ => rfl
  | 0, (c, t) :: stack, h => by
    have := sizes_childrenOf_lt c
    simp only [List.map_cons, sizes] at h
    omega
  | n + 1, (c, t) :: stack, h => by
    have hlt := sizes_childrenOf_lt c
    simp only [List.map_cons, sizes] at h
    have hmap : ((childrenOf c).map fun k => (k, inner c t)).map Prod.fst = childrenOf c := by
      rw [List.map_map]
      exact List.map_id _
    rw [walk, walk_eq (by rw [List.map_append, hmap, sizes_append]; omega), List.flatMap_append,
      List.flatMap_cons, inOrder_eq, allInOrder_eq, List.cons_append]

theorem walkBelow_eq (kids : List Node) (t : σ) : walkBelow inner kids t = allInOrder inner kids t := by
  unfold walkBelow
  rw [walk_eq, allInOrder_eq]
  rw [List.map_map]
  exact (congrArg sizes (List.map_id kids)).le

theorem walkBelow_cons (c : Node) (cs : List Node) (t : σ) : walkBelow inner (c :: cs) t =
    (c, t) :: (walkBelow inner (childrenOf c) (inner c t) ++ walkBelow inner cs t) := by
  simp only [walkBelow_eq]
  rw [allInOrder, inOrder_eq, List.cons_append]

theorem walkBelow_append (cs ds : List Node) (t : σ) :
    walkBelow inner (cs ++ ds) t = walkBelow inner cs t ++ walkBelow inner ds t := by
  simp only [walkBelow_eq, allInOrder_eq, List.map_append, List.flatMap_append]

end Walk

/-- What the nodes below a node inherit : inside a `template`'s content or not. -/
def inTemplateBelow (c : Node) (inTemplate : Bool) : Bool :=
  inTemplate || c.isTemplate

/-- Every node of a fragment in document order, each with whether it sits inside a `template`. -/
def descendants (kids : List Node) (inTemplate : Bool) : List (Node × Bool) :=
  walkBelow inTemplateBelow kids inTemplate

/-! ## Occurrences and triples -/

/-- The text of a text node. -/
def Node.textValue : Node → JsString
  | .text value => value
  | _ => []

def textBelow (n : Node) : JsString :=
  (descendants (childrenOf n) n.isTemplate).flatMap fun p => p.1.textValue

/-- A node below a text carrier, with its depth. -/
inductive LayoutItem
  | text (depth : ℕ) (value : JsString)
  | comment (depth : ℕ) (data : JsString)
  | element (depth : ℕ) (tagName : JsString)
  deriving DecidableEq

def LayoutItem.of : Node × ℕ → LayoutItem
  | (.text value, depth) => .text depth value
  | (.comment data, depth) => .comment depth data
  | (.element tag _ _, depth) => .element depth tag.tagName

def LayoutItem.isElement : LayoutItem → Bool
  | .element _ _ => true
  | _ => false

/-- Every node below with its depth, none where no element is below. The source writes the list as
JSON, which tells two lists apart. -/
def layoutBelow (n : Node) : Option (List LayoutItem) :=
  let out := (walkBelow (fun _ depth => depth + 1) (childrenOf n) 1).map LayoutItem.of
  if out.any LayoutItem.isElement then some out else none

inductive MarkupNamespace
  | html | svg | mathml | other
  deriving DecidableEq

def NAMESPACES : NS → MarkupNamespace
  | .HTML => .html
  | .SVG => .svg
  | .MATHML => .mathml
  | _ => .other

def TEXT_CARRIERS : List JsString :=
  ["script", "style", "noscript", "xmp", "noembed", "noframes", "iframe", "plaintext", "textarea",
    "title"].map utf16

def Attr.qualified (a : Attr) : JsString :=
  if a.scope = [] then a.name else a.scope ++ utf16 ":" ++ a.name

/-- Names and values of the attributes, sorted by name. -/
def attributesOf (tag : Tag) : List (JsString × JsString) :=
  (tag.attrs.map fun a => (a.qualified, a.value)).insertionSort fun x y => x.1 ≤ y.1

inductive Kind
  | element | comment
  deriving DecidableEq

/-- One element or comment of a tree, as much as tells two apart. A comment has no namespace. -/
structure Occurrence where
  kind : Kind
  ns : Option MarkupNamespace
  name : JsString
  attributes : List (JsString × JsString)
  text : Option JsString
  layout : Option (List LayoutItem)
  inTemplate : Bool
  deriving DecidableEq

/-- An element, or one of its attributes with its value. -/
structure Triple where
  ns : MarkupNamespace
  element : JsString
  attributeName : Option JsString
  value : Option JsString
  inTemplate : Bool
  deriving DecidableEq

/-- A text carrier's text. -/
def carriedText (tag : Tag) (n : Node) : Option JsString :=
  if tag.tagName ∈ TEXT_CARRIERS then some (textBelow n) else none

/-- A text carrier's layout. -/
def carriedLayout (tag : Tag) (n : Node) : Option (List LayoutItem) :=
  if tag.tagName ∈ TEXT_CARRIERS then layoutBelow n else none

def occurrencesAt : Node × Bool → List Occurrence
  | (.text _, _) => []
  | (.comment data, inTemplate) => [⟨.comment, none, [], [], some data, none, inTemplate⟩]
  | (.element tag childNodes content, inTemplate) =>
    let n := Node.element tag childNodes content
    [⟨.element, some (NAMESPACES tag.namespaceURI), tag.tagName, attributesOf tag, carriedText tag n,
      carriedLayout tag n, inTemplate⟩]

def triplesAt : Node × Bool → List Triple
  | (.element tag _ _, inTemplate) =>
    let ns := NAMESPACES tag.namespaceURI
    ⟨ns, tag.tagName, none, none, inTemplate⟩ ::
      (attributesOf tag).map fun a => ⟨ns, tag.tagName, some a.1, some a.2, inTemplate⟩
  | _ => []

/-- Every element and comment occurrence of a fragment. -/
def occurrencesOf (fragment : Fragment) : List Occurrence :=
  (descendants fragment false).flatMap occurrencesAt

/-- Every element and attribute of a fragment. -/
def triplesOf (fragment : Fragment) : List Triple :=
  (descendants fragment false).flatMap triplesAt

/-- The two lists `markupOf` makes. -/
def markupOf (fragment : Fragment) : List Occurrence × List Triple :=
  (occurrencesOf fragment, triplesOf fragment)

end Lynox.Markup
