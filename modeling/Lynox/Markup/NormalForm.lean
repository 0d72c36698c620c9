import Lynox.Markup.Tree
import Lynox.Text.JsonText
import Mathlib.Logic.Relation

/-!
# The normal form of an HTML tree

`normChildren` encodes a tree with its attributes sorted, runs of whitespace collapsed and whitespace between block
boundaries left out. Two trees have one normal form exactly when the first can be turned into the second by permuting
attributes, replacing runs of whitespace, and inserting or removing whitespace between block boundaries (`Turns`) :
each of these edits keeps the form (`norm_of_edit`), and every tree can be edited into the tree that its form encodes
(`turns_canonNodes`).
-/

namespace Lynox.Html

open Text
open Markup (NS)

/-! ## Trees -/

/-- An attribute as the tree holds it, its prefix empty where it has none; no name of the parser's has a NUL in it. -/
structure Attr where
  space : Option NS
  scope : JsString
  name : JsString
  value : JsString
  noNul : 0 ∉ scope ∧ 0 ∉ name
  deriving DecidableEq

def Attr.id (a : Attr) : Option NS × JsString × JsString :=
  (a.space, a.scope, a.name)

/-- The attributes of an element, of which it has each once. -/
structure Attrs where
  list : List Attr
  nodup : (list.map Attr.id).Nodup

/-- A node; an element with its children as `childrenOf` gives them, so a template with those of its content. -/
inductive Node
  | text (value : JsString)
  | comment (data : JsString)
  | element (namespaceURI : NS) (tagName : JsString) (attrs : Attrs) (children : List Node)

def uri : NS → JsString
  | .HTML => utf16 "http://www.w3.org/1999/xhtml"
  | .MATHML => utf16 "http://www.w3.org/1998/Math/MathML"
  | .SVG => utf16 "http://www.w3.org/2000/svg"
  | .XLINK => utf16 "http://www.w3.org/1999/xlink"
  | .XML => utf16 "http://www.w3.org/XML/1998/namespace"
  | .XMLNS => utf16 "http://www.w3.org/2000/xmlns/"

def CONTENT_CARRYING_ELEMENTS : List JsString :=
  ["noscript", "xmp", "noembed", "noframes", "iframe", "plaintext", "textarea", "title"].map utf16

def CONTENT_CARRYING_ANY_NAMESPACE : List JsString :=
  ["script", "style"].map utf16

def carriesContent (space : NS) (name : JsString) : Bool :=
  CONTENT_CARRYING_ANY_NAMESPACE.contains name || (space = .HTML && CONTENT_CARRYING_ELEMENTS.contains name)

def BLOCK_ELEMENTS : List JsString :=
  ["address", "article", "aside", "blockquote", "details", "dialog", "dd", "div", "dl", "dt", "fieldset", "figcaption",
    "figure", "footer", "form", "h1", "h2", "h3", "h4", "h5", "h6", "header", "hgroup", "hr", "li", "main", "nav", "ol",
    "p", "section", "summary", "ul"].map utf16

def WHITESPACE_KEEPING : List JsString :=
  ["pre", "textarea", "listing", "plaintext"].map utf16

def keepsWhitespace (space : NS) (name : JsString) : Bool :=
  (space = .HTML && WHITESPACE_KEEPING.contains name) || carriesContent space name

def isBlockElement (space : NS) (name : JsString) : Bool :=
  space = .HTML && BLOCK_ELEMENTS.contains name

def isBlock : Node → Bool
  | .element space name _ _ => isBlockElement space name
  | _ => false

/-! ## Whitespace -/

/-- ASCII whitespace: tab, LF, FF, CR and space. -/
def isWs (u : UInt16) : Bool :=
  u = 0x09 || u = 0x0A || u = 0x0C || u = 0x0D || u = 0x20

/-- `/^[\t\n\f\r ]+$/` -/
def wsOnly (s : JsString) : Bool :=
  !s.isEmpty && s.all isWs

/-- Every run of whitespace as one space. -/
def collapse : JsString → JsString
  | [] => []
  | u :: us =>
    if isWs u then
      if us.head?.any isWs then collapse us else 0x20 :: collapse us
    else u :: collapse us

/-! ## The normal form -/

/-- What attributes are sorted by. -/
def Attr.key (a : Attr) : JsString :=
  a.space.elim [] uri ++ 0 :: (a.scope ++ 0 :: a.name)

def Attr.le (a b : Attr) : Prop :=
  a.key.map UInt16.toNat ≤ b.key.map UInt16.toNat

instance : DecidableRel Attr.le := fun _ _ => inferInstanceAs (Decidable (_ ≤ _))

def Attrs.sorted (as : Attrs) : Attrs :=
  ⟨as.list.insertionSort Attr.le, ((List.perm_insertionSort Attr.le as.list).map Attr.id).nodup_iff.mpr as.nodup⟩

def Attr.encode (a : Attr) : JTree :=
  .array [.string (a.space.elim [] uri), .string a.scope, .string a.name, .string a.value]

def Attrs.encode (as : Attrs) : JTree :=
  .array (as.list.map Attr.encode)

/-- Whether a block boundary comes before the nodes: that of the first, or else the one after them. -/
def ahead (after : Bool) : List Node → Bool
  | [] => after
  | n :: _ => isBlock n

mutual

def normNode (keepWs before after : Bool) : Node → List JTree
  | .element space name attrs children =>
    [.array [.string (utf16 "E"), .string (uri space), .string name, attrs.sorted.encode,
      .array (normNodes (keepWs || keepsWhitespace space name) (isBlockElement space name)
        (isBlockElement space name) children)]]
  | .text value =>
    if keepWs then [.array [.string (utf16 "T"), .string value]]
    else if wsOnly value && (before && after) then []
    else [.array [.string (utf16 "T"), .string (collapse value)]]
  | .comment data => [.array [.string (utf16 "C"), .string data]]

/-- The form of nodes, with whether a block boundary stands before them and after them. -/
def normNodes (keepWs before after : Bool) : List Node → List JTree
  | [] => []
  | n :: rest => normNode keepWs before (ahead after rest) n ++ normNodes keepWs (isBlock n) after rest

end

def normChildren (keepWs parentIsBlock : Bool) (nodes : List Node) : List JTree :=
  normNodes keepWs parentIsBlock parentIsBlock nodes

section Equal

variable (parseHtmlFragment : JsString → List Node)

def normalizeHtml (value : JsString) : JsString :=
  (JTree.array (normChildren false true (parseHtmlFragment value))).write compact 0

def htmlEqual (a b : JsString) : Bool :=
  normalizeHtml parseHtmlFragment a = normalizeHtml parseHtmlFragment b

end Equal

/-! ## Edits -/

/-- Whether a block boundary comes after the nodes: that of the last, or else the one before them. -/
def behind (before : Bool) : List Node → Bool
  | [] => before
  | n :: rest => behind (isBlock n) rest

/-- One edit of the children of a node: with whether whitespace counts in them, and whether the node is a block. -/
inductive Edit : Bool → Bool → List Node → List Node → Prop
  /-- The attributes of an element in another order. -/
  | permute {keepWs block l r space name cs} {as as' : Attrs} (h : as.list.Perm as'.list) :
    Edit keepWs block (l ++ .element space name as cs :: r) (l ++ .element space name as' cs :: r)
  /-- A run of whitespace replaced by another. -/
  | run {block l r s u v t} (hu : wsOnly u = true) (hv : wsOnly v = true) :
    Edit false block (l ++ .text (s ++ u ++ t) :: r) (l ++ .text (s ++ v ++ t) :: r)
  /-- Whitespace put between two block boundaries. -/
  | insert {block l r s} (hs : wsOnly s = true) (hl : behind block l = true) (hr : ahead block r = true) :
    Edit false block (l ++ r) (l ++ .text s :: r)
  /-- Whitespace taken from between two block boundaries. -/
  | remove {block l r s} (hs : wsOnly s = true) (hl : behind block l = true) (hr : ahead block r = true) :
    Edit false block (l ++ .text s :: r) (l ++ r)
  /-- An edit below an element. -/
  | inside {keepWs block l r space name as cs cs'}
    (h : Edit (keepWs || keepsWhitespace space name) (isBlockElement space name) cs cs') :
    Edit keepWs block (l ++ .element space name as cs :: r) (l ++ .element space name as cs' :: r)

/-- The first children can be turned into the second by edits. -/
def Turns (keepWs block : Bool) : List Node → List Node → Prop :=
  Relation.ReflTransGen (Edit keepWs block)

theorem Edit.symm {keepWs block : Bool} {a b : List Node} (h : Edit keepWs block a b) : Edit keepWs block b a := by
  induction h with
  | permute h => exact .permute h.symm
  | run hu hv => exact .run hv hu
  | insert hs hl hr => exact .remove hs hl hr
  | remove hs hl hr => exact .insert hs hl hr
  | inside _ ih => exact .inside ih

theorem Turns.symm {keepWs block : Bool} {a b : List Node} (h : Turns keepWs block a b) : Turns keepWs block b a := by
  induction h with
  | refl => exact .refl
  | tail _ hedit ih => exact .head hedit.symm ih

/-! ## Edits keep the form -/

section Sound

variable {keepWs before after block : Bool} {a b l r : List Node}

theorem normNodes_cons (n : Node) (rest : List Node) : normNodes keepWs before after (n :: rest) =
    normNode keepWs before (ahead after rest) n ++ normNodes keepWs (isBlock n) after rest := by
  rw [normNodes]

theorem normNodes_append : ∀ {before : Bool} {l : List Node}, normNodes keepWs before after (l ++ r) =
    normNodes keepWs before (ahead after r) l ++ normNodes keepWs (behind before l) after r
  | before, [] => by rw [normNodes]; rfl
  | before, n :: rest => by
    have hahead : ahead after (rest ++ r) = ahead (ahead after r) rest := by cases rest <;> rfl
    rw [List.cons_append, normNodes, normNodes, normNodes_append, hahead, behind, List.append_assoc]

/-- A node that is no text takes no notice of its neighbours. -/
theorem normNode_of_isBlock {n : Node} (h : isBlock n = true) (before' after' : Bool) :
    normNode keepWs before after n = normNode keepWs before' after' n := by
  cases n with
  | text value => cases h
  | comment data => cases h
  | element space name attrs children => rw [normNode, normNode]

/-- Before a block boundary, what comes after does not count. -/
theorem normNodes_of_behind (after' : Bool) : ∀ {before : Bool} {l : List Node}, behind before l = true →
    normNodes keepWs before after l = normNodes keepWs before after' l
  | before, [], _ => by rw [normNodes, normNodes]
  | before, [n], h => by
    rw [normNodes, normNodes, normNode_of_isBlock h before (ahead after' []), normNodes, normNodes]
  | before, n :: m :: rest, h => by
    have hrest : behind (isBlock n) (m :: rest) = true := h
    rw [normNodes_cons n (m :: rest), normNodes_cons n (m :: rest), normNodes_of_behind after' hrest]
    rfl

theorem normNodes_of_ahead (before' : Bool) (h : ahead after r = true) :
    normNodes keepWs before after r = normNodes keepWs before' after r := by
  cases r with
  | nil => rw [normNodes, normNodes]
  | cons n rest => rw [normNodes, normNodes, normNode_of_isBlock h before' (ahead after rest)]

theorem wsOnly_cons {u : UInt16} {us : JsString} (h : wsOnly (u :: us) = true) :
    isWs u = true ∧ ∀ v ∈ us, isWs v = true := by
  unfold wsOnly at h
  simpa using h

/-- A run of whitespace is as good as a space. -/
theorem collapse_run {t : JsString} : ∀ {u : JsString}, wsOnly u = true → collapse (u ++ t) = collapse (0x20 :: t)
  | [c], h => by
    have hspace : isWs 0x20 = true := by decide
    rw [List.singleton_append, collapse, collapse, if_pos (wsOnly_cons h).1, if_pos hspace]
  | c :: d :: u, h => by
    obtain ⟨hc, hrest⟩ := wsOnly_cons h
    have hd : wsOnly (d :: u) = true := by
      unfold wsOnly
      simpa using ⟨hrest d List.mem_cons_self, fun v hv => hrest v (List.mem_cons_of_mem d hv)⟩
    have hhead : ((d :: u ++ t).head?.any isWs) = true := hrest d List.mem_cons_self
    rw [List.cons_append, collapse, if_pos hc, if_pos hhead, collapse_run hd]

theorem collapse_append {x y : JsString} (hhead : x.head?.any isWs = y.head?.any isWs)
    (h : collapse x = collapse y) : ∀ s : JsString, collapse (s ++ x) = collapse (s ++ y)
  | [] => h
  | c :: s => by
    have hs : ((s ++ x).head?.any isWs) = (s ++ y).head?.any isWs := by
      cases s with
      | nil => exact hhead
      | cons d s => rfl
    rw [List.cons_append, List.cons_append, collapse, collapse, hs, collapse_append hhead h s]

theorem head_run {u t : JsString} (h : wsOnly u = true) : (u ++ t).head?.any isWs = true := by
  cases u with
  | nil => cases h
  | cons c u => exact (wsOnly_cons h).1

theorem collapse_replace {s u v t : JsString} (hu : wsOnly u = true) (hv : wsOnly v = true) :
    collapse (s ++ u ++ t) = collapse (s ++ v ++ t) := by
  rw [List.append_assoc, List.append_assoc]
  exact collapse_append ((head_run hu).trans (head_run hv).symm) ((collapse_run hu).trans (collapse_run hv).symm) s

theorem wsOnly_replace {s u v t : JsString} (hu : wsOnly u = true) (hv : wsOnly v = true) :
    wsOnly (s ++ u ++ t) = wsOnly (s ++ v ++ t) := by
  unfold wsOnly at hu hv ⊢
  rw [Bool.and_eq_true] at hu hv
  have hne : ∀ w : JsString, (!w.isEmpty) = true → (s ++ w ++ t).isEmpty = false := by
    intro w hw
    rw [List.isEmpty_eq_false_iff]
    rintro hnil
    rw [List.append_eq_nil_iff, List.append_eq_nil_iff] at hnil
    rw [hnil.1.2] at hw
    cases hw
  rw [hne u hu.1, hne v hv.1, List.all_append, List.all_append, List.all_append, List.all_append, hu.2, hv.2]

/-- What stands before the first NUL, and after it. -/
theorem nul_split : ∀ {x x' y y' : JsString}, 0 ∉ x → 0 ∉ x' → x ++ 0 :: y = x' ++ 0 :: y' → x = x' ∧ y = y'
  | [], [], y, y', _, _, h => ⟨rfl, (List.cons.inj h).2⟩
  | [], u :: x', y, y', _, hx', h => absurd (List.mem_cons.mpr (.inl (List.cons.inj h).1)) hx'
  | u :: x, [], y, y', hx, _, h => absurd (List.mem_cons.mpr (.inl (List.cons.inj h).1.symm)) hx
  | u :: x, v :: x', y, y', hx, hx', h => by
    obtain ⟨rfl, hrest⟩ := List.cons.inj h
    obtain ⟨hxs, hys⟩ := nul_split (fun hmem => hx (List.mem_cons_of_mem u hmem))
      (fun hmem => hx' (List.mem_cons_of_mem u hmem)) hrest
    exact ⟨congrArg (u :: ·) hxs, hys⟩

theorem nul_notMem_uri (x : Option NS) : 0 ∉ x.elim [] uri := by
  rcases x with _ | x
  · exact List.not_mem_nil
  · cases x <;> decide

theorem uri_injective {x y : Option NS} (h : x.elim [] uri = y.elim [] uri) : x = y := by
  rcases x with _ | x <;> rcases y with _ | y
  · rfl
  · cases y <;> revert h <;> decide
  · cases x <;> revert h <;> decide
  · cases x <;> cases y <;> revert h <;> decide

/-- Attributes that are sorted alike have one namespace, prefix and name. -/
theorem key_injective {x y : Attr} (h : x.key.map UInt16.toNat = y.key.map UInt16.toNat) : x.id = y.id := by
  have hkey : x.key = y.key := List.map_injective_iff.mpr (fun _ _ => UInt16.toNat_inj.mp) h
  obtain ⟨hspace, hrest⟩ := nul_split (nul_notMem_uri x.space) (nul_notMem_uri y.space) hkey
  obtain ⟨hscope, hname⟩ := nul_split x.noNul.1 y.noNul.1 hrest
  rw [Attr.id, Attr.id, uri_injective hspace, hscope, hname]

/-- The same attributes in another order are sorted alike. -/
theorem sorted_of_perm {as as' : Attrs} (h : as.list.Perm as'.list) : as.sorted = as'.sorted := by
  have : Std.Total Attr.le := ⟨fun x y => le_total _ _⟩
  have : IsTrans Attr Attr.le := ⟨fun x y z => le_trans⟩
  unfold Attrs.sorted
  congr 1
  refine List.Perm.eq_of_pairwise (fun x y hx hy hxy hyx => ?_) (List.pairwise_insertionSort Attr.le _)
    (List.pairwise_insertionSort Attr.le _)
    (((List.perm_insertionSort _ _).trans h).trans (List.perm_insertionSort _ _).symm)
  have hx' : x ∈ as.list := (List.mem_insertionSort _).mp hx
  have hy' : y ∈ as.list := h.mem_iff.mpr ((List.mem_insertionSort _).mp hy)
  exact List.inj_on_of_nodup_map as.nodup hx' hy' (key_injective (le_antisymm hxy hyx))

/-- Whitespace between block boundaries leaves no trace. -/
theorem norm_between {s : JsString} (hs : wsOnly s = true) (hl : behind block l = true) (hr : ahead block r = true) :
    normNodes false block (ahead block (.text s :: r)) l ++
        (normNode false (behind block l) (ahead block r) (.text s) ++ normNodes false (isBlock (.text s)) block r) =
      normNodes false block (ahead block r) l ++ normNodes false (behind block l) block r := by
  rw [normNodes_of_behind (ahead block r) hl, normNodes_of_ahead (behind block l) hr, normNode, hs, hl, hr]
  rfl

/-- An edit keeps the normal form. -/
theorem norm_of_edit (h : Edit keepWs block a b) : normChildren keepWs block a = normChildren keepWs block b := by
  unfold normChildren
  induction h with
  | permute h =>
    rw [normNodes_append, normNodes_append, normNodes, normNodes, normNode, normNode, sorted_of_perm h]
    rfl
  | run hu hv =>
    rw [normNodes_append, normNodes_append, normNodes, normNodes, normNode, normNode, collapse_replace hu hv,
      wsOnly_replace hu hv]
    rfl
  | insert hs hl hr =>
    rw [normNodes_append, normNodes_append, normNodes_cons, norm_between hs hl hr]
  | remove hs hl hr =>
    rw [normNodes_append, normNodes_append, normNodes_cons, norm_between hs hl hr]
  | inside _ ih =>
    rw [normNodes_append, normNodes_append, normNodes, normNodes, normNode, normNode, ih]
    rfl

end Sound

/-! ## The tree that a form encodes -/

section Complete

variable {keepWs before after block : Bool} {a b l r : List Node}

mutual

/-- A node as its normal form shows it. -/
def canonNode (keepWs before after : Bool) : Node → List Node
  | .element space name attrs children =>
    [.element space name attrs.sorted
      (canonNodes (keepWs || keepsWhitespace space name) (isBlockElement space name) (isBlockElement space name)
        children)]
  | .text value =>
    if keepWs then [.text value]
    else if wsOnly value && (before && after) then []
    else [.text (collapse value)]
  | .comment data => [.comment data]

def canonNodes (keepWs before after : Bool) : List Node → List Node
  | [] => []
  | n :: rest => canonNode keepWs before (ahead after rest) n ++ canonNodes keepWs (isBlock n) after rest

end

mutual

def encode : Node → JTree
  | .element space name attrs children =>
    .array [.string (utf16 "E"), .string (uri space), .string name, attrs.encode, .array (encodeAll children)]
  | .text value => .array [.string (utf16 "T"), .string value]
  | .comment data => .array [.string (utf16 "C"), .string data]

def encodeAll : List Node → List JTree
  | [] => []
  | n :: rest => encode n :: encodeAll rest

end

theorem encodeAll_append : ∀ l : List Node, encodeAll (l ++ r) = encodeAll l ++ encodeAll r
  | [] => by rw [encodeAll]; rfl
  | n :: l => by rw [List.cons_append, encodeAll, encodeAll, encodeAll_append l, List.cons_append]

mutual

/-- The form encodes the tree as it shows it. -/
theorem encode_canonNode : ∀ {keepWs before after : Bool} {n : Node},
    encodeAll (canonNode keepWs before after n) = normNode keepWs before after n
  | keepWs, before, after, .element space name attrs children => by
    rw [canonNode, normNode, encodeAll, encodeAll, encode, encode_canonNodes]
  | keepWs, before, after, .text value => by
    rw [canonNode, normNode]
    split
    · rw [encodeAll, encodeAll, encode]
    · split
      · rw [encodeAll]
      · rw [encodeAll, encodeAll, encode]
  | keepWs, before, after, .comment data => by rw [canonNode, normNode, encodeAll, encodeAll, encode]

theorem encode_canonNodes : ∀ {keepWs before after : Bool} {nodes : List Node},
    encodeAll (canonNodes keepWs before after nodes) = normNodes keepWs before after nodes
  | keepWs, before, after, [] => by rw [canonNodes, normNodes, encodeAll]
  | keepWs, before, after, n :: rest => by
    rw [canonNodes, normNodes, encodeAll_append, encode_canonNode, encode_canonNodes]

end

theorem Attr.encode_injective {x y : Attr} (h : x.encode = y.encode) : x = y := by
  obtain ⟨space, scope, name, value, _⟩ := x
  obtain ⟨space', scope', name', value', _⟩ := y
  simp only [Attr.encode, JTree.array.injEq, List.cons.injEq, JTree.string.injEq, and_true] at h
  obtain ⟨hspace, rfl, rfl, rfl⟩ := h
  obtain rfl := uri_injective hspace
  rfl

theorem Attrs.encode_injective {as as' : Attrs} (h : as.encode = as'.encode) : as = as' := by
  obtain ⟨list, _⟩ := as
  obtain ⟨list', _⟩ := as'
  obtain rfl : list = list' := List.map_injective_iff.mpr (fun _ _ => Attr.encode_injective) (JTree.array.inj h)
  rfl

/-- What the array of a node begins with. -/
def Node.tag : Node → JsString
  | .element .. => utf16 "E"
  | .text _ => utf16 "T"
  | .comment _ => utf16 "C"

theorem tags_differ : utf16 "E" ≠ utf16 "T" ∧ utf16 "E" ≠ utf16 "C" ∧ utf16 "T" ≠ utf16 "C" := by
  decide

theorem tag_of_encode {n m : Node} (h : encode n = encode m) : n.tag = m.tag := by
  have hhead : ∀ k : Node, ∃ rest, encode k = .array (.string k.tag :: rest) := fun k => by
    cases k <;> exact ⟨_, by rw [encode]; rfl⟩
  obtain ⟨rest, hn⟩ := hhead n
  obtain ⟨rest', hm⟩ := hhead m
  rw [hn, hm] at h
  exact JTree.string.inj (List.cons.inj (JTree.array.inj h)).1

mutual

theorem encode_injective : ∀ {n m : Node}, encode n = encode m → n = m
  | .text s, .text s', h => by
    rw [encode, encode] at h
    simp only [JTree.array.injEq, List.cons.injEq, JTree.string.injEq, and_true, true_and] at h
    rw [h]
  | .comment s, .comment s', h => by
    rw [encode, encode] at h
    simp only [JTree.array.injEq, List.cons.injEq, JTree.string.injEq, and_true, true_and] at h
    rw [h]
  | .element space name attrs children, .element space' name' attrs' children', h => by
    rw [encode, encode] at h
    simp only [JTree.array.injEq, List.cons.injEq, JTree.string.injEq, and_true, true_and] at h
    obtain ⟨hspace, rfl, hattrs, hchildren⟩ := h
    obtain rfl : space = space' := Option.some.inj (uri_injective (x := some space) (y := some space') hspace)
    rw [Attrs.encode_injective hattrs, encodeAll_injective hchildren]
  | .text s, .comment s', h => absurd (tag_of_encode h) tags_differ.2.2
  | .text s, .element .., h => absurd (tag_of_encode h) tags_differ.1.symm
  | .comment s, .text s', h => absurd (tag_of_encode h) tags_differ.2.2.symm
  | .comment s, .element .., h => absurd (tag_of_encode h) tags_differ.2.1.symm
  | .element .., .text s, h => absurd (tag_of_encode h) tags_differ.1
  | .element .., .comment s, h => absurd (tag_of_encode h) tags_differ.2.1

theorem encodeAll_injective : ∀ {ns ms : List Node}, encodeAll ns = encodeAll ms → ns = ms
  | [], [], _ => rfl
  | [], m :: ms, h => by
    rw [encodeAll, encodeAll] at h
    cases h
  | n :: ns, [], h => by
    rw [encodeAll, encodeAll] at h
    cases h
  | n :: ns, m :: ms, h => by
    rw [encodeAll, encodeAll] at h
    obtain ⟨hhead, htail⟩ := List.cons.inj h
    rw [encode_injective hhead, encodeAll_injective htail]

end

/-- An edit stays one behind other nodes. -/
theorem Turns.inside {space : NS} {name : JsString} {as : Attrs}
    (h : Turns (keepWs || keepsWhitespace space name) (isBlockElement space name) a b) :
    Turns keepWs block (l ++ .element space name as a :: r) (l ++ .element space name as b :: r) := by
  induction h with
  | refl => exact .refl
  | tail _ hedit ih => exact ih.tail (.inside hedit)

/-- Runs of whitespace become single spaces, one after the other. -/
theorem turns_collapse : ∀ (s t : JsString),
    Turns false block (l ++ .text (s ++ t) :: r) (l ++ .text (s ++ collapse t) :: r)
  | s, [] => .refl
  | s, u :: us => by
    rw [collapse]
    split
    · next hu =>
      have hone : wsOnly [u] = true := by simp [wsOnly, hu]
      split
      · next hhead =>
        cases us with
        | nil => cases hhead
        | cons v us =>
          -- the first of two units goes
          have hv : isWs v = true := hhead
          have htwo : wsOnly [u, v] = true := by simp [wsOnly, hu, hv]
          have hlast : wsOnly [v] = true := by simp [wsOnly, hv]
          refine .head ?_ (turns_collapse s (v :: us))
          have hedit : Edit false block _ _ := .run (l := l) (r := r) (s := s) (t := us) htwo hlast
          rwa [List.append_assoc, List.append_assoc] at hedit
      · have hspace : wsOnly [0x20] = true := by decide
        have hedit : Edit false block _ _ := .run (l := l) (r := r) (s := s) (t := us) hone hspace
        rw [List.append_assoc] at hedit
        have hrest := turns_collapse (s ++ [0x20]) us
        rw [List.append_assoc s [0x20] (collapse us)] at hrest
        exact .head hedit hrest
    · next hu =>
      have hrest := turns_collapse (s ++ [u]) us
      rwa [List.append_assoc, List.append_assoc] at hrest

theorem behind_append_singleton (n : Node) : ∀ {before : Bool} {l : List Node}, behind before (l ++ [n]) = isBlock n
  | before, [] => rfl
  | before, m :: l => by
    rw [List.cons_append, behind, behind_append_singleton n]

theorem canonNode_of_isBlock {n : Node} (h : isBlock n = true) (before' after' : Bool) :
    canonNode keepWs before after n = canonNode keepWs before' after' n := by
  cases n with
  | text value => cases h
  | comment data => cases h
  | element space name attrs children => rw [canonNode, canonNode]

/-- Behind what is no block boundary, a tree begins as its form shows it. -/
theorem ahead_canonNodes (rest : List Node) :
    ahead after (canonNodes keepWs false after rest) = ahead after rest := by
  cases rest with
  | nil => rw [canonNodes]
  | cons m rest =>
    rw [canonNodes]
    cases m with
    | element space name attrs children =>
      rw [canonNode]
      rfl
    | comment data =>
      rw [canonNode]
      rfl
    | text value =>
      rw [canonNode, Bool.false_and, Bool.and_false, if_neg Bool.false_ne_true]
      split <;> rfl

mutual

theorem turns_canonNode : ∀ (n : Node) (keepWs block : Bool) (l r : List Node),
    Turns keepWs block (l ++ n :: r) (l ++ (canonNode keepWs (behind block l) (ahead block r) n ++ r))
  | .element space name attrs children, keepWs, block, l, r => by
    rw [canonNode]
    have hchildren := turns_canonNodes children (keepWs || keepsWhitespace space name) (isBlockElement space name) []
    exact .head (.permute (List.perm_insertionSort Attr.le attrs.list).symm) hchildren.inside
  | .text value, keepWs, block, l, r => by
    rw [canonNode]
    cases keepWs with
    | true => exact .refl
    | false =>
      rw [if_neg Bool.false_ne_true]
      split
      · next hdrop =>
        rw [Bool.and_eq_true, Bool.and_eq_true] at hdrop
        exact .single (.remove hdrop.1 hdrop.2.1 hdrop.2.2)
      · exact turns_collapse [] value
  | .comment data, keepWs, block, l, r => by
    rw [canonNode]
    exact .refl

/-- Every tree can be edited into the tree that its form encodes. -/
theorem turns_canonNodes : ∀ (nodes : List Node) (keepWs block : Bool) (l : List Node),
    Turns keepWs block (l ++ nodes) (l ++ canonNodes keepWs (behind block l) block nodes)
  | [], keepWs, block, l => by
    rw [canonNodes]
    exact .refl
  | n :: rest, keepWs, block, l => by
    have hrest := turns_canonNodes rest keepWs block (l ++ [n])
    rw [List.append_assoc, List.append_assoc, behind_append_singleton] at hrest
    refine hrest.trans ?_
    have hnode := turns_canonNode n keepWs block l (canonNodes keepWs (isBlock n) block rest)
    rw [canonNodes]
    cases hblock : isBlock n with
    | true =>
      rw [hblock] at hnode
      rw [canonNode_of_isBlock hblock (behind block l) (ahead block (canonNodes keepWs true block rest))]
      exact hnode
    | false =>
      rw [hblock, ahead_canonNodes] at hnode
      exact hnode

end

end Complete

/-- Two trees have one normal form exactly when the first can be turned into the second by edits, whatever stands in
them; and so two field values are equal exactly when their trees can be. -/
theorem normChildren_eq_iff_turns :
    (∀ (keepWs block : Bool) (a b : List Node),
      normChildren keepWs block a = normChildren keepWs block b ↔ Turns keepWs block a b) ∧
      ∀ (parseHtmlFragment : JsString → List Node) (s t : JsString),
        htmlEqual parseHtmlFragment s t = true ↔
          Turns false true (parseHtmlFragment s) (parseHtmlFragment t) := by
  have hiff : ∀ (keepWs block : Bool) (a b : List Node),
      normChildren keepWs block a = normChildren keepWs block b ↔ Turns keepWs block a b := by
    intro keepWs block a b
    constructor
    · intro h
      have hcanon : ∀ c : List Node, Turns keepWs block c (canonNodes keepWs block block c) := fun c =>
        turns_canonNodes c keepWs block []
      have heq : canonNodes keepWs block block a = canonNodes keepWs block block b :=
        encodeAll_injective (encode_canonNodes.trans (h.trans encode_canonNodes.symm))
      exact (hcanon a).trans (heq ▸ (hcanon b).symm)
    · intro h
      induction h with
      | refl => rfl
      | tail _ hedit ih => exact ih.trans (norm_of_edit hedit)
  refine ⟨hiff, fun parseHtmlFragment s t => ?_⟩
  rw [htmlEqual, decide_eq_true_eq, ← hiff]
  constructor
  · exact fun h => JTree.array.inj (compact_injective h)
  · exact fun h => by rw [normalizeHtml, normalizeHtml, h]

end Lynox.Html
