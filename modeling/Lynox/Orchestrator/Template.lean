import Lynox.Data.Assoc
import Lynox.Text.Matches

/-!
# The placeholders of a template

A step's template is a value whose texts may hold placeholders. `resolveInputTemplate` walks it : a
text that is one placeholder becomes the value its path leads to in the context, a text with
placeholders in it gets them as text, and one whose path leads nowhere stays. `getByPath` follows a
path from field to field, an object's own fields before those it inherits, which the language
decides (`Builtins`).

`Value.reads` lists the paths a template is resolved by, and nothing else of the context matters
(`walk_congr`). A path that leads to texts of any length in contexts that are told apart by nothing
else can be seen in what the template becomes (`exists_walk_ne`). Both together say when a template
resolves to the same for every two contexts of a kind (`walk_same_iff`).
-/

namespace Lynox.Template

open Text

variable {B : Type*}

/-- What a path leads to : data, or an object or a function of the language. -/
inductive Found (B : Type*)
  | data (v : Value)
  | builtin (b : B)

/-- What the language adds to data : what an object and an array inherit under a name, what its own
objects hold, and the text each of them has inside another text. -/
structure Builtins (B : Type*) where
  inherited : (isArray : Bool) → JsString → Option (Found B)
  property : B → JsString → Option (Found B)
  text : B → JsString

/-- The fields of an object, its names once each. -/
abbrev Fields := List (JsString × Value)

/-- An array's own property of a name : its length, or the item the name counts to. -/
def itemAt (items : List Value) (name : JsString) : Option Value :=
  if name = utf16 "length" then some (.number items.length 0)
  else ((List.range items.length).find? fun i => shownDigits i = name).bind (items[·]?)

namespace Builtins

variable (E : Builtins B)

/-- `own`, or what is inherited under the name. -/
def orInherited (isArray : Bool) (name : JsString) : Option Value → Option (Found B)
  | some v => some (.data v)
  | none => E.inherited isArray name

/-- One segment of a path. Only an object has properties to look for. -/
def step : Found B → JsString → Option (Found B)
  | .data (.object fields), name => E.orInherited false name (Assoc.get fields name)
  | .data (.array items), name => E.orInherited true name (itemAt items name)
  | .data _, _ => none
  | .builtin b, name => E.property b name

def follow : Found B → List JsString → Option (Found B)
  | found, [] => some found
  | found, name :: names => (E.step found name).bind (follow · names)

def getByPath (context : Fields) (path : JsString) : Option (Found B) :=
  E.follow (.data (.object context)) (split 0x2E path)

/-- What is found, inside another text : a text as it is, other data as JSON. -/
def found : Found B → JsString
  | .data (.string s) => s
  | .data v => v.write
  | .builtin b => E.text b

end Builtins

/-! ## Placeholders -/

/-- The text up to the first closing brace. -/
def bodyOf (s : JsString) : JsString :=
  s.takeWhile (· ≠ 0x7D)

/-- `\{\{([^}]+)\}\}` : two braces, text without a closing brace, and two closing braces. -/
def placeholder : Pattern JsString
  | 0x7B :: 0x7B :: s =>
    if bodyOf s ≠ [] ∧ [0x7D, 0x7D].isPrefixOf (s.drop (bodyOf s).length) then
      some (bodyOf s, (bodyOf s).length + 3)
    else none
  | _ => none

/-- The path of a text that is one placeholder. -/
def solePlaceholder (s : JsString) : Option JsString :=
  match placeholder s with
  | some (rawPath, n) => if n + 1 = s.length then some (trim rawPath) else none
  | none => none

/-- The paths of a text's placeholders. -/
def pathsOf (s : JsString) : List JsString :=
  (matchAll placeholder s).map trim

theorem pathsOf_sole {s path : JsString} (h : solePlaceholder s = some path) :
    pathsOf s = [path] := by
  unfold solePlaceholder at h
  cases hs : placeholder s with
  | none => rw [hs] at h; exact absurd h (by simp)
  | some found =>
    obtain ⟨rawPath, n⟩ := found
    rw [hs] at h
    simp only at h
    split_ifs at h with hn
    cases s with
    | nil => exact absurd hs (by simp [placeholder])
    | cons u s =>
      have hdrop : s.drop n = [] := List.drop_eq_nil_of_le (by simp at hn; omega)
      unfold pathsOf
      rw [matchAll_of_some hs, hdrop, matchAll_nil, ← Option.some.inj h]
      rfl

/-! ## The template is walked -/

/-- What a template becomes. The entry `__proto__` of an object is its prototype : no assignment
makes it a field. -/
inductive Input (B : Type*)
  | given (found : Found B)
  | array (items : List (Input B))
  | object (fields : List (JsString × Input B))

def protoName : JsString :=
  utf16 "__proto__"

/-- What can be a prototype : an object, or null. -/
def Input.isProto : Input B → Bool
  | .given (.data (.bool _)) => false
  | .given (.data (.number _ _)) => false
  | .given (.data (.string _)) => false
  | _ => true

/-- `out[name] = value`, in front of the fields assigned after it. What can be no prototype is not
assigned to `__proto__`. -/
def assign (name : JsString) (value : Input B) (out : List (JsString × Input B)) :
    List (JsString × Input B) :=
  if name = protoName ∧ value.isProto = false then out else (name, value) :: out

namespace Builtins

variable (E : Builtins B)

/-- A placeholder inside another text. -/
def interpolate (context : Fields) (rawPath : JsString) : JsString :=
  match E.getByPath context (trim rawPath) with
  | none => utf16 "\x7b\x7b" ++ trim rawPath ++ utf16 "\x7d\x7d"
  | some resolved => E.found resolved

def substituteString (s : JsString) (context : Fields) : Found B :=
  match solePlaceholder s with
  | some path => (E.getByPath context path).getD (.data (.string s))
  | none => .data (.string (replace placeholder (E.interpolate context) s))

mutual

def walk (context : Fields) : Value → Input B
  | .string s => .given (E.substituteString s context)
  | .array items => .array (walkItems context items)
  | .object fields => .object (walkFields context fields)
  | v => .given (.data v)

def walkItems (context : Fields) : List Value → List (Input B)
  | [] => []
  | item :: items => walk context item :: walkItems context items

def walkFields (context : Fields) : List (JsString × Value) → List (JsString × Input B)
  | [] => []
  | (name, value) :: fields => assign name (walk context value) (walkFields context fields)

end

def resolveInputTemplate (template : Value) (context : Fields) : Input B :=
  E.walk context template

end Builtins

/-! ## The paths a template is resolved by -/

/-- A text that is no placeholder is no prototype. -/
def dropped (name : JsString) : Value → Bool
  | .string s => name = protoName ∧ solePlaceholder s = none
  | _ => false

mutual

/-- The paths of the placeholders that come into what a template becomes. -/
def reads : Value → List JsString
  | .string s => pathsOf s
  | .array items => readsItems items
  | .object fields => readsFields fields
  | _ => []

def readsItems : List Value → List JsString
  | [] => []
  | item :: items => reads item ++ readsItems items

def readsFields : List (JsString × Value) → List JsString
  | [] => []
  | (name, value) :: fields =>
    (if dropped name value then [] else reads value) ++ readsFields fields

end

section Same

variable {E : Builtins B} {context context' : Fields} {s path : JsString} {v : Value}

theorem substituteString_congr
    (h : ∀ path ∈ pathsOf s, E.getByPath context path = E.getByPath context' path) :
    E.substituteString s context = E.substituteString s context' := by
  unfold Builtins.substituteString
  cases hs : solePlaceholder s with
  | some path =>
    have hpath := h path (by rw [pathsOf_sole hs]; exact List.mem_singleton_self _)
    simp only [hpath]
  | none =>
    simp only
    rw [replace_congr fun rawPath hraw => ?_]
    unfold Builtins.interpolate
    rw [h _ (List.mem_map_of_mem hraw)]

/-- A dropped text is assigned nothing. -/
theorem assign_dropped {name : JsString} (h : dropped name v = true)
    (out : List (JsString × Input B)) : assign name (E.walk context v) out = out := by
  cases v with
  | string s =>
    simp only [dropped, decide_eq_true_eq] at h
    rw [assign, Builtins.walk, Builtins.substituteString, h.2]
    exact if_pos ⟨h.1, rfl⟩
  | _ => exact absurd h (by simp [dropped])

mutual

/-- What a template becomes depends on what the paths it reads lead to. -/
theorem walk_congr : ∀ {v : Value},
    (∀ path ∈ reads v, E.getByPath context path = E.getByPath context' path) →
    E.walk context v = E.walk context' v
  | .null, _ => rfl
  | .bool _, _ => rfl
  | .number _ _, _ => rfl
  | .string s, h => by
    rw [Builtins.walk, Builtins.walk, substituteString_congr h]
  | .array items, h => by
    rw [Builtins.walk, Builtins.walk, walkItems_congr h]
  | .object fields, h => by
    rw [Builtins.walk, Builtins.walk, walkFields_congr h]

theorem walkItems_congr : ∀ {items : List Value},
    (∀ path ∈ readsItems items, E.getByPath context path = E.getByPath context' path) →
    E.walkItems context items = E.walkItems context' items
  | [], _ => rfl
  | item :: items, h => by
    rw [Builtins.walkItems, Builtins.walkItems,
      walk_congr fun path hpath => h path (List.mem_append_left _ hpath),
      walkItems_congr fun path hpath => h path (List.mem_append_right _ hpath)]

theorem walkFields_congr : ∀ {fields : List (JsString × Value)},
    (∀ path ∈ readsFields fields, E.getByPath context path = E.getByPath context' path) →
    E.walkFields context fields = E.walkFields context' fields
  | [], _ => rfl
  | (name, value) :: fields, h => by
    have hrest := walkFields_congr fun path hpath => h path (List.mem_append_right _ hpath)
    rw [Builtins.walkFields, Builtins.walkFields, hrest]
    cases hdropped : dropped name value with
    | true => rw [assign_dropped hdropped, assign_dropped hdropped]
    | false =>
      rw [walk_congr fun path hpath => h path (List.mem_append_left _ (by rw [hdropped]; exact hpath))]

end

end Same

/-! ## A path that tells contexts apart -/

section Apart

variable {E : Builtins B} {context : Fields} {path : JsString}

/-- A path leads to an object whose text has at least `n` units. -/
def Leads (E : Builtins B) (context : Fields) (path : JsString) (n : ℕ) : Prop :=
  ∃ fields, E.getByPath context path = some (.data (.object fields)) ∧
    n ≤ (Value.object fields).write.length

/-- The text of what is found has the length of the longest of its parts at least. -/
theorem length_le_replace {pattern : Pattern JsString} {f : JsString → JsString} {s a : JsString}
    (ha : a ∈ matchAll pattern s) : (f a).length ≤ (replace pattern f s).length := by
  obtain ⟨p, hp, hpa⟩ := List.mem_filterMap.mp ha
  cases p with
  | unit u => exact absurd hpa (by simp [Part.captured])
  | found b =>
    have hb : b = a := Option.some.inj hpa
    unfold replace
    rw [List.length_flatMap]
    exact List.single_le_sum (fun _ _ => Nat.zero_le _) _
      (List.mem_map.mpr ⟨_, hp, by rw [hb]; rfl⟩)

/-- A text with the placeholder of a path that leads far becomes what it is in no fixed context. -/
theorem exists_substituteString_ne {s : JsString} (hpath : path ∈ pathsOf s) (fixed : Found B) :
    ∃ n, ∀ context, Leads E context path n → E.substituteString s context ≠ fixed := by
  refine ⟨(E.found fixed).length + 1, fun context ⟨fields, hget, hlen⟩ heq => ?_⟩
  have hfound : (E.found (E.substituteString s context)).length = (E.found fixed).length := by
    rw [heq]
  have hobject : E.found (.data (.object fields)) = (Value.object fields).write := rfl
  cases hs : solePlaceholder s with
  | some p =>
    have hsub : E.substituteString s context = .data (.object fields) := by
      rw [pathsOf_sole hs, List.mem_singleton] at hpath
      unfold Builtins.substituteString
      simp only [hs, ← hpath, hget, Option.getD_some]
    rw [hsub, hobject] at hfound
    omega
  | none =>
    obtain ⟨rawPath, hraw, rfl⟩ := List.mem_map.mp hpath
    have hsub : E.substituteString s context =
        .data (.string (replace placeholder (E.interpolate context) s)) := by
      unfold Builtins.substituteString
      simp only [hs]
    have htext : E.interpolate context rawPath = (Value.object fields).write := by
      unfold Builtins.interpolate
      rw [hget]
      rfl
    have hle := @length_le_replace placeholder (E.interpolate context) s rawPath hraw
    rw [htext] at hle
    rw [hsub] at hfound
    have hstring : E.found (.data (.string (replace placeholder (E.interpolate context) s))) =
        replace placeholder (E.interpolate context) s := rfl
    rw [hstring] at hfound
    omega

/-- A text that is not dropped and leads far is an object. -/
theorem isProto_walk {name : JsString} {v : Value} (hname : name = protoName)
    (hdropped : dropped name v = false) (hpath : path ∈ reads v) {n : ℕ}
    (hleads : Leads E context path n) : (E.walk context v).isProto = true := by
  cases v with
  | string s =>
    obtain ⟨fields, hget, -⟩ := hleads
    cases hs : solePlaceholder s with
    | none => exact absurd hdropped (by simp [dropped, hname, hs])
    | some p =>
      rw [reads, pathsOf_sole hs, List.mem_singleton] at hpath
      rw [Builtins.walk, Builtins.substituteString, hs, ← hpath]
      simp only [hget]
      rfl
  | array items => rfl
  | object fields => rfl
  | _ => exact absurd hpath List.not_mem_nil

theorem Leads.mono {m n : ℕ} (h : Leads E context path n) (hmn : m ≤ n) : Leads E context path m := by
  obtain ⟨fields, hget, hlen⟩ := h
  exact ⟨fields, hget, hmn.trans hlen⟩

mutual

/-- What a template becomes where a path it reads leads far is nothing that is fixed before. -/
theorem exists_walk_ne : ∀ {v : Value}, path ∈ reads v → ∀ fixed : Input B,
    ∃ n, ∀ context, Leads E context path n → E.walk context v ≠ fixed
  | .null, h, _ => absurd h List.not_mem_nil
  | .bool _, h, _ => absurd h List.not_mem_nil
  | .number _ _, h, _ => absurd h List.not_mem_nil
  | .string s, h, fixed => by
    cases fixed with
    | given found =>
      obtain ⟨n, hn⟩ := exists_substituteString_ne h found
      exact ⟨n, fun context hleads heq => hn context hleads (Input.given.inj heq)⟩
    | _ => exact ⟨0, fun context _ heq => by simp [Builtins.walk] at heq⟩
  | .array items, h, fixed => by
    cases fixed with
    | array fixed =>
      obtain ⟨n, hn⟩ := exists_walkItems_ne h fixed
      exact ⟨n, fun context hleads heq => hn context hleads (Input.array.inj heq)⟩
    | _ => exact ⟨0, fun context _ heq => by simp [Builtins.walk] at heq⟩
  | .object fields, h, fixed => by
    cases fixed with
    | object fixed =>
      obtain ⟨n, hn⟩ := exists_walkFields_ne h fixed
      exact ⟨n, fun context hleads heq => hn context hleads (Input.object.inj heq)⟩
    | _ => exact ⟨0, fun context _ heq => by simp [Builtins.walk] at heq⟩

theorem exists_walkItems_ne : ∀ {items : List Value}, path ∈ readsItems items →
    ∀ fixed : List (Input B),
      ∃ n, ∀ context, Leads E context path n → E.walkItems context items ≠ fixed
  | [], h, _ => absurd h List.not_mem_nil
  | item :: items, _, [] => ⟨0, fun _ _ heq => by simp [Builtins.walkItems] at heq⟩
  | item :: items, h, x :: fixed => by
    rcases List.mem_append.mp h with h | h
    · obtain ⟨n, hn⟩ := exists_walk_ne h x
      exact ⟨n, fun context hleads heq => hn context hleads (List.cons.inj heq).1⟩
    · obtain ⟨n, hn⟩ := exists_walkItems_ne h fixed
      exact ⟨n, fun context hleads heq => hn context hleads (List.cons.inj heq).2⟩

theorem exists_walkFields_ne : ∀ {fields : List (JsString × Value)}, path ∈ readsFields fields →
    ∀ fixed : List (JsString × Input B),
      ∃ n, ∀ context, Leads E context path n → E.walkFields context fields ≠ fixed
  | [], h, _ => absurd h List.not_mem_nil
  | (name, value) :: fields, h, fixed => by
    rcases List.mem_append.mp h with h | h
    · cases hdropped : dropped name value with
      | true => rw [hdropped] at h; exact absurd h List.not_mem_nil
      | false =>
        rw [hdropped] at h
        have hassigned : ∀ {context : Fields} {n : ℕ}, Leads E context path n →
            E.walkFields context ((name, value) :: fields) =
              (name, E.walk context value) :: E.walkFields context fields := by
          intro context n hleads
          rw [Builtins.walkFields, assign, if_neg]
          rintro ⟨hname, hproto⟩
          rw [isProto_walk hname hdropped h hleads] at hproto
          exact absurd hproto (by decide)
        cases fixed with
        | nil => exact ⟨0, fun context hleads heq => by rw [hassigned hleads] at heq; simp at heq⟩
        | cons x fixed =>
          obtain ⟨n, hn⟩ := exists_walk_ne h x.2
          refine ⟨n, fun context hleads heq => ?_⟩
          rw [hassigned hleads] at heq
          exact hn context hleads (congrArg Prod.snd (List.cons.inj heq).1)
    · -- the field in front may be assigned or not
      obtain ⟨m, hm⟩ := exists_walkFields_ne h fixed
      obtain ⟨n, hn⟩ := exists_walkFields_ne h fixed.tail
      refine ⟨max m n, fun context hleads heq => ?_⟩
      rw [Builtins.walkFields, assign] at heq
      split_ifs at heq
      · exact hm context (hleads.mono (le_max_left m n)) heq
      · exact hn context (hleads.mono (le_max_right m n)) (by rw [← heq]; rfl)

end

/-- A template resolves to the same for every two contexts of a kind where no path it reads is told
apart by them : where a path is either the same for every two, or leads as far as one likes in the
company of one of them. -/
theorem walk_same_iff {Alike : Fields → Fields → Prop} {Blind : JsString → Prop}
    (hblind : ∀ path, Blind path → ∀ context context', Alike context context' →
      E.getByPath context path = E.getByPath context' path)
    (hseen : ∀ path, ¬ Blind path → ∃ context', ∀ n, ∃ context, Alike context context' ∧
      Leads E context path n) (v : Value) :
    (∀ context context', Alike context context' → E.walk context v = E.walk context' v) ↔
      ∀ path ∈ reads v, Blind path := by
  constructor
  · intro hsame path hpath
    by_contra hnot
    obtain ⟨context', hall⟩ := hseen path hnot
    obtain ⟨n, hn⟩ := @exists_walk_ne B E path v hpath (E.walk context' v)
    obtain ⟨context, halike, hleads⟩ := hall n
    exact hn context hleads (hsame context context' halike)
  · intro hall context context' halike
    exact walk_congr fun path hpath => hblind path (hall path hpath) context context' halike

end Apart

/-! ## Values at the end of a path -/

/-- The value with nothing in it but `v` under a path. -/
def nest : List JsString → Value → Value
  | [], v => v
  | name :: names, v => .object [(name, nest names v)]

theorem follow_nest (E : Builtins B) (v : Value) : ∀ names : List JsString,
    E.follow (.data (nest names v)) names = some (.data v)
  | [] => rfl
  | name :: names => by
    rw [nest, Builtins.follow, Builtins.step]
    have hget : Assoc.get [(name, nest names v)] name = some (nest names v) := by
      simp [Assoc.get, Table.find]
    rw [hget]
    exact follow_nest E v names

/-- An object whose text has `n` units at least. -/
def long (name : JsString) (n : ℕ) : Fields :=
  [(name, .string (List.replicate n 0x61))]

theorem length_long (name : JsString) (n : ℕ) :
    n ≤ (Value.object (long name n)).write.length := by
  have h := length_le_quote (List.replicate n 0x61)
  rw [List.length_replicate] at h
  simp only [long, Value.write, Value.writeFields, List.length_cons, List.length_append]
  omega

/-! ## Contexts that differ in some parameters -/

def paramsName : JsString :=
  utf16 "params"

/-- Two contexts that are the same but for the values of the parameters that are `free`, and for
what is under `outputs`. -/
def Alike (outputs : List JsString) (free : JsString → Bool) (context context' : Fields) : Prop :=
  (∀ name, name ≠ paramsName → name ∉ outputs → Assoc.get context name = Assoc.get context' name) ∧
    (paramsName ∉ outputs → ∃ params params',
      Assoc.get context paramsName = some (.object params) ∧
      Assoc.get context' paramsName = some (.object params') ∧
      (params.filter fun f => !free f.1) = params'.filter fun f => !free f.1)

/-- A path that names no output, and of the parameters one that is not free, or all of them where
none is. -/
def Steady (outputs : List JsString) (free : JsString → Bool) (path : JsString) : Prop :=
  ∀ name names, split 0x2E path = name :: names → name ∉ outputs ∧
    (name = paramsName → match names with
      | [] => ∀ param, free param = false
      | param :: _ => free param = false)

section Steady

variable {E : Builtins B} {outputs : List JsString} {free : JsString → Bool}
  {context context' : Fields}

theorem get_object_cons (name : JsString) (v : Value) (fields : Fields) :
    Assoc.get ((name, v) :: fields) name = some v := by
  simp [Assoc.get, Table.find]

theorem get_object_cons_of_ne {name name' : JsString} (h : name' ≠ name) (v : Value) (fields : Fields) :
    Assoc.get ((name', v) :: fields) name = Assoc.get fields name := by
  simp [Assoc.get, Table.find, h]

theorem Steady.getByPath_eq {path : JsString} (h : Steady outputs free path)
    (halike : Alike outputs free context context') :
    E.getByPath context path = E.getByPath context' path := by
  unfold Builtins.getByPath
  cases hpath : split 0x2E path with
  | nil => exact absurd hpath (split_ne_nil _ _)
  | cons name names =>
    obtain ⟨hout, hparams⟩ := h name names hpath
    rw [Builtins.follow, Builtins.follow, Builtins.step, Builtins.step]
    by_cases hname : name = paramsName
    · obtain ⟨params, params', hget, hget', hsame⟩ := halike.2 (hname ▸ hout)
      have hnames := hparams hname
      rw [hname, hget, hget']
      show E.follow (.data (.object params)) names = E.follow (.data (.object params')) names
      cases names with
      | nil =>
        have hall : ∀ fields : Fields, (fields.filter fun f => !free f.1) = fields := fun fields =>
          List.filter_eq_self.mpr fun f _ => by rw [hnames f.1]; rfl
        rw [hall, hall] at hsame
        rw [hsame]
      | cons param rest =>
        have hparam := @Assoc.get_filter JsString Value _ params param fun name => !free name
        have hparam' := @Assoc.get_filter JsString Value _ params' param fun name => !free name
        rw [if_pos (by rw [hnames]; rfl)] at hparam hparam'
        rw [Builtins.follow, Builtins.follow, Builtins.step, Builtins.step, ← hparam, ← hparam', hsame]
    · rw [halike.1 name hname hout]

theorem leads_nest {path name : JsString} {names : List JsString} (fields : Fields) (n : ℕ)
    (hpath : split 0x2E path = name :: names) :
    Leads E ((name, nest names (.object (long [] n))) :: fields) path n := by
  refine ⟨long [] n, ?_, length_long [] n⟩
  unfold Builtins.getByPath
  rw [hpath, Builtins.follow, Builtins.step, get_object_cons]
  exact follow_nest E (.object (long [] n)) names

/-- A path that is not steady leads as far as one likes beside a context that is alike. -/
theorem exists_leads {path : JsString} (h : ¬ Steady outputs free path) :
    ∃ context', ∀ n, ∃ context, Alike outputs free context context' ∧ Leads E context path n := by
  unfold Steady at h
  push Not at h
  obtain ⟨name, names, hpath, h⟩ := h
  refine ⟨[(paramsName, .object [])], fun n => ?_⟩
  by_cases hout : name ∈ outputs
  · by_cases hname : name = paramsName
    · refine ⟨_, ⟨fun other hne _ => ?_, fun hnot => absurd (hname ▸ hout) hnot⟩,
        leads_nest [] n hpath⟩
      rw [get_object_cons_of_ne (by rw [hname]; exact Ne.symm hne), get_object_cons_of_ne (Ne.symm hne)]
    · refine ⟨_, ⟨fun other hne hnot => ?_, fun _ => ⟨[], [], ?_, get_object_cons _ _ _, rfl⟩⟩,
        leads_nest [(paramsName, .object [])] n hpath⟩
      · have hne' : name ≠ other := fun heq => hnot (by rw [← heq]; exact hout)
        rw [get_object_cons_of_ne hne']
      · rw [get_object_cons_of_ne hname, get_object_cons]
  · obtain ⟨hname, hnames⟩ := h hout
    have hother : ∀ v : Value, ∀ other, other ≠ paramsName → other ∉ outputs →
        Assoc.get [(name, v)] other = Assoc.get [(paramsName, Value.object [])] other := by
      intro v other hne _
      rw [get_object_cons_of_ne (by rw [hname]; exact Ne.symm hne), get_object_cons_of_ne (Ne.symm hne)]
    cases names with
    | nil =>
      have hnames : ∃ param, free param = true := by
        by_contra hall
        exact hnames fun param => Bool.eq_false_iff.mpr fun htrue => hall ⟨param, htrue⟩
      obtain ⟨param, hfree⟩ := hnames
      refine ⟨[(name, .object (long param n))], ⟨hother _, fun _ => ⟨long param n, [], ?_,
        get_object_cons _ _ _, ?_⟩⟩, long param n, ?_, length_long param n⟩
      · rw [← hname, get_object_cons]
      · simp [long, hfree]
      · unfold Builtins.getByPath
        rw [hpath, Builtins.follow, Builtins.step, get_object_cons]
        rfl
    | cons param rest =>
      have hfree : free param = true := Bool.eq_true_of_not_eq_false hnames
      refine ⟨_, ⟨hother _, fun _ => ⟨[(param, nest rest (.object (long [] n)))], [], ?_,
        get_object_cons _ _ _, ?_⟩⟩, leads_nest [] n hpath⟩
      · rw [← hname, get_object_cons]
        rfl
      · simp [hfree]

/-- A template resolves to the same in every two contexts that are alike where every path it reads
is steady, and only there. -/
theorem resolveInputTemplate_same_iff (E : Builtins B) (outputs : List JsString)
    (free : JsString → Bool) (template : Value) :
    (∀ context context', Alike outputs free context context' →
      E.resolveInputTemplate template context = E.resolveInputTemplate template context') ↔
      ∀ path ∈ reads template, Steady outputs free path :=
  walk_same_iff (fun _ h _ _ halike => h.getByPath_eq halike) (fun _ h => exists_leads h) template

end Steady

end Lynox.Template
