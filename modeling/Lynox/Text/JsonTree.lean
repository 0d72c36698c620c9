import Lynox.Text.Json

/-!
# JSON with every member

`parseTree` reads a JSON text as a tree that keeps each member of an object, in the order of the text and
under its decoded name, and a number as its text. `parse` makes the value of that tree, where a later
member of a name takes the place of an earlier one (`parse_eq`).
-/

namespace Lynox.Text

/-- A text that is a number. -/
def NumberText (text : JsString) : Prop :=
  (parseNumber text).map Prod.snd = some []

instance (text : JsString) : Decidable (NumberText text) :=
  inferInstanceAs (Decidable (_ = _))

/-- The text of a number. -/
structure JsonNumber where
  text : JsString
  isNumber : NumberText text

/-- A JSON text as it is nested. -/
inductive JTree
  | null
  | bool (b : Bool)
  | number (n : JsonNumber)
  | string (s : JsString)
  | array (items : List JTree)
  | object (members : List (JsString × JTree))

/-- A number, as its text. -/
def treeNumber (s : JsString) : Option (JTree × JsString) :=
  (parseNumber s).bind fun out =>
    let text := s.take (s.length - out.2.length)
    if h : NumberText text then some (.number ⟨text, h⟩, out.2) else none

/-- A word that stands for a tree. -/
def treeWord (word : JsString) (tree : JTree) (s : JsString) : Option (JTree × JsString) :=
  if word.isPrefixOf s then some (tree, s.drop word.length) else none

mutual

/-- A tree, from white space on. -/
def treeValue : Nat → JsString → Option (JTree × JsString)
  | 0, _ => none
  | n + 1, s =>
    match skip s with
    | [] => none
    | u :: rest =>
      if u = 0x22 then (parseString rest).map fun out => (.string out.1, out.2)
      else if u = 0x5B then
        match skip rest with
        | 0x5D :: rest => some (.array [], rest)
        | rest => (treeItems n rest).map fun out => (.array out.1, out.2)
      else if u = 0x7B then
        match skip rest with
        | 0x7D :: rest => some (.object [], rest)
        | rest => (treeMembers n rest).map fun out => (.object out.1, out.2)
      else if u = 0x6E then treeWord (utf16 "null") .null (u :: rest)
      else if u = 0x74 then treeWord (utf16 "true") (.bool true) (u :: rest)
      else if u = 0x66 then treeWord (utf16 "false") (.bool false) (u :: rest)
      else treeNumber (u :: rest)

/-- The items of an array up to its end, at least one. -/
def treeItems : Nat → JsString → Option (List JTree × JsString)
  | 0, _ => none
  | n + 1, s =>
    (treeValue n s).bind fun out =>
      match skip out.2 with
      | 0x2C :: rest => (treeItems n rest).map fun items => (out.1 :: items.1, items.2)
      | 0x5D :: rest => some ([out.1], rest)
      | _ => none

/-- The members of an object up to its end, at least one. -/
def treeMembers : Nat → JsString → Option (List (JsString × JTree) × JsString)
  | 0, _ => none
  | n + 1, s =>
    match skip s with
    | 0x22 :: rest =>
      (parseString rest).bind fun key =>
        match skip key.2 with
        | 0x3A :: rest =>
          (treeValue n rest).bind fun out =>
            match skip out.2 with
            | 0x2C :: rest =>
              (treeMembers n rest).map fun members => ((key.1, out.1) :: members.1, members.2)
            | 0x7D :: rest => some ([(key.1, out.1)], rest)
            | _ => none
        | _ => none
    | _ => none

end

/-- A whole JSON text. -/
def parseTree (s : JsString) : Option JTree :=
  (treeValue (2 * s.length + 2) s).bind fun out => if skip out.2 = [] then some out.1 else none

mutual

/-- The value of a tree : a later member of a name takes the place of an earlier one. -/
def JTree.toJson : JTree → Json
  | .null => .null
  | .bool b => .bool b
  | .number n => ((parseNumber n.text).map Prod.fst).getD .null
  | .string s => .string s
  | .array items => .array (JTree.itemsToJson items)
  | .object members => .object (JTree.membersToJson [] members)

def JTree.itemsToJson : List JTree → List Json
  | [] => []
  | tree :: items => tree.toJson :: JTree.itemsToJson items

/-- The fields with the members set in their order. -/
def JTree.membersToJson (fields : List (JsString × Json)) : List (JsString × JTree) → List (JsString × Json)
  | [] => fields
  | (name, tree) :: members => JTree.membersToJson (setField fields name tree.toJson) members

end

/-- Some object of the tree has two members of one name. -/
inductive JTree.RepeatsAKey : JTree → Prop
  | here {members} : ¬ (members.map Prod.fst).Nodup → RepeatsAKey (.object members)
  | item {items tree} : tree ∈ items → RepeatsAKey tree → RepeatsAKey (.array items)
  | member {members m} : m ∈ members → RepeatsAKey m.2 → RepeatsAKey (.object members)

/-! ## The text of a number -/

section Numbers

variable {s rest ds : JsString}

/-- A unit of a number. -/
def isNumeric (u : UInt16) : Bool :=
  isDigit u || u = 0x2E || u = 0x65 || u = 0x45 || u = 0x2B || u = 0x2D

/-- No digit comes next. -/
def NoDigit (rest : JsString) : Prop :=
  ∀ u ∈ rest.head?, isDigit u = false

theorem isNumeric_of_isDigit {u : UInt16} (h : isDigit u = true) : isNumeric u = true := by
  simp [isNumeric, h]

theorem parseDigits_eq_some : parseDigits s = some (ds, rest) ↔
    s = ds ++ rest ∧ ds ≠ [] ∧ (∀ u ∈ ds, isDigit u = true) ∧ NoDigit rest := by
  unfold parseDigits
  constructor
  · intro h
    split at h
    · exact absurd h (by simp)
    · next htake =>
      simp only [Option.some.injEq, Prod.mk.injEq] at h
      obtain ⟨rfl, rfl⟩ := h
      refine ⟨(List.takeWhile_append_dropWhile ..).symm, htake, fun u hu => List.mem_takeWhile_imp hu,
        fun u hu => ?_⟩
      have hhead := List.head?_dropWhile_not isDigit s
      rw [Option.mem_def.1 hu] at hhead
      simpa using hhead
  · rintro ⟨rfl, hne, hds, hrest⟩
    have htake : rest.takeWhile isDigit = [] := by
      cases rest with
      | nil => rfl
      | cons u rest => exact List.takeWhile_cons_of_neg (by simp [hrest u rfl])
    have hdrop : rest.dropWhile isDigit = rest := by
      cases rest with
      | nil => rfl
      | cons u rest => exact List.dropWhile_cons_of_neg (by simp [hrest u rfl])
    rw [List.takeWhile_append_of_pos hds, List.dropWhile_append_of_pos hds, htake, hdrop, List.append_nil]
    split
    · exact absurd rfl hne
    · rfl

theorem parseWhole_eq_some : parseWhole s = some (ds, rest) ↔
    parseDigits s = some (ds, rest) ∧ ¬ (ds.head? = some 0x30 ∧ 1 < ds.length) := by
  unfold parseWhole
  constructor
  · intro h
    obtain ⟨out, hout, h⟩ := Option.bind_eq_some_iff.1 h
    split at h
    · exact absurd h (by simp)
    · next hzero =>
      obtain rfl := Option.some.inj h
      exact ⟨hout, hzero⟩
  · rintro ⟨hds, hzero⟩
    rw [hds, Option.bind_some, if_neg hzero]

/-- What is read of a fraction is read before whatever may follow. -/
theorem parseFraction_append (h : parseFraction s = some (ds, rest)) : ∃ text, s = text ++ rest ∧
    (∀ u ∈ text, isNumeric u = true) ∧ (text = [] ∨ text.head? = some 0x2E) ∧
      ∀ rest', NoDigit rest' → rest'.head? ≠ some 0x2E →
        parseFraction (text ++ rest') = some (ds, rest') := by
  unfold parseFraction at h
  split at h
  · next s' =>
    obtain ⟨rfl, hne, hds, -⟩ := parseDigits_eq_some.1 h
    refine ⟨0x2E :: ds, rfl, fun u hu => ?_, .inr rfl, fun rest' hrest' _ => ?_⟩
    · rcases List.mem_cons.1 hu with rfl | hu
      · decide
      · exact isNumeric_of_isDigit (hds u hu)
    · exact parseDigits_eq_some.2 ⟨rfl, hne, hds, hrest'⟩
  · next hpoint =>
    simp only [Option.some.injEq, Prod.mk.injEq] at h
    obtain ⟨rfl, rfl⟩ := h
    refine ⟨[], rfl, by simp, .inl rfl, fun rest' _ hhead => ?_⟩
    rw [List.nil_append]
    cases rest' with
    | nil => rfl
    | cons u rest' =>
      unfold parseFraction
      split
      · next heq => exact absurd (congrArg List.head? heq) hhead
      · rfl

theorem parseExponent_sign {u : UInt16} (hu : u = 0x65 ∨ u = 0x45) (t : JsString) :
    parseExponent (u :: 0x2D :: t) = (parseDigits t).map (fun out => (-(digitsVal out.1 : Int), out.2)) ∧
      parseExponent (u :: 0x2B :: t) = (parseDigits t).map fun out => ((digitsVal out.1 : Int), out.2) := by
  simp [parseExponent, hu]

theorem parseExponent_digits {u v : UInt16} (hu : u = 0x65 ∨ u = 0x45) (hminus : v ≠ 0x2D)
    (hplus : v ≠ 0x2B)
    (t : JsString) : parseExponent (u :: v :: t) =
      (parseDigits (v :: t)).map fun out => ((digitsVal out.1 : Int), out.2) := by
  simp [parseExponent, hu, hminus, hplus]

/-- Nothing is read of an exponent where none begins. -/
theorem parseExponent_stops (h : Stops rest) : parseExponent rest = some (0, rest) := by
  cases rest with
  | nil => rfl
  | cons u rest =>
    obtain ⟨-, -, he, hE⟩ := h u rfl
    simp [parseExponent, he, hE]

theorem parseDigits_stops (h : parseDigits s = some (ds, rest)) : s = ds ++ rest ∧
    (∀ u ∈ ds, isNumeric u = true) ∧ ∀ rest', Stops rest' → parseDigits (ds ++ rest') =
      some (ds, rest') := by
  obtain ⟨rfl, hne, hds, -⟩ := parseDigits_eq_some.1 h
  exact ⟨rfl, fun u hu => isNumeric_of_isDigit (hds u hu), fun rest' hrest' =>
    parseDigits_eq_some.2 ⟨rfl, hne, hds, fun u hu => (hrest' u hu).1⟩⟩

/-- A parser that changes what another reads leaves the same rest. -/
theorem map_read_eq_some {α β : Type} {f : α → β} {o : Option (α × JsString)} {b : β} :
    (o.map fun out => (f out.1, out.2)) = some (b, rest) ↔ ∃ a, o = some (a, rest) ∧ f a = b := by
  constructor
  · intro h
    obtain ⟨⟨a, rest'⟩, ho, heq⟩ := Option.map_eq_some_iff.1 h
    obtain ⟨rfl, rfl⟩ := Prod.mk.inj heq
    exact ⟨a, ho, rfl⟩
  · rintro ⟨a, rfl, rfl⟩
    rfl

/-- Where the digits behind a mark decide an exponent, they do so before whatever may follow a number. -/
theorem parseExponent_marked (mark : JsString) (value : JsString → Int) {e : Int}
    (hread : ∀ t : JsString, t.head? = s.head? →
      parseExponent (mark ++ t) = (parseDigits t).map fun out => (value out.1, out.2))
    (h : parseExponent (mark ++ s) = some (e, rest)) :
    ∃ ds, s = ds ++ rest ∧ (∀ u ∈ ds, isNumeric u = true) ∧
      ∀ rest', Stops rest' → parseExponent (mark ++ (ds ++ rest')) = some (e, rest') := by
  rw [hread s rfl] at h
  obtain ⟨ds, hds, rfl⟩ := map_read_eq_some.1 h
  obtain ⟨-, hne, -⟩ := parseDigits_eq_some.1 hds
  obtain ⟨rfl, hall, hmore⟩ := parseDigits_stops hds
  refine ⟨ds, rfl, hall, fun rest' hrest' => ?_⟩
  have hhead : (ds ++ rest').head? = (ds ++ rest).head? := by
    rw [List.head?_append_of_ne_nil _ hne, List.head?_append_of_ne_nil _ hne]
  rw [hread _ hhead, hmore rest' hrest', Option.map_some]

/-- What is read of an exponent is read before whatever may follow a number. -/
theorem parseExponent_append {e : Int} (h : parseExponent s = some (e, rest)) : ∃ text, s = text ++ rest ∧
    (∀ u ∈ text, isNumeric u = true) ∧ (text = [] ∨ text.head? = some 0x65 ∨ text.head? = some 0x45) ∧
      ∀ rest', Stops rest' → parseExponent (text ++ rest') = some (e, rest') := by
  match s with
  | [] =>
    rw [parseExponent_stops (by simp [Stops]), Option.some.injEq, Prod.mk.injEq] at h
    obtain ⟨rfl, rfl⟩ := h
    exact ⟨[], rfl, by simp, .inl rfl, fun rest' hrest' => parseExponent_stops hrest'⟩
  | u :: s =>
    by_cases hu : u = 0x65 ∨ u = 0x45
    · have hhead : ∀ t : JsString, (u :: t).head? = some 0x65 ∨ (u :: t).head? = some 0x45 := fun t =>
        hu.imp (congrArg some) (congrArg some)
      have hnum : isNumeric u = true := by rcases hu with rfl | rfl <;> decide
      match s with
      | [] => simp [parseExponent, hu] at h
      | v :: s =>
        by_cases hminus : v = 0x2D
        · subst hminus
          obtain ⟨ds, rfl, hall, hmore⟩ :=
            parseExponent_marked [u, 0x2D] (fun ds => -digitsVal ds) (fun t _ => (parseExponent_sign hu t).1) h
          refine ⟨u :: 0x2D :: ds, rfl, ?_, .inr (hhead _), hmore⟩
          exact List.forall_mem_cons.2 ⟨hnum, List.forall_mem_cons.2 ⟨rfl, hall⟩⟩
        by_cases hplus : v = 0x2B
        · subst hplus
          obtain ⟨ds, rfl, hall, hmore⟩ :=
            parseExponent_marked [u, 0x2B] (fun ds => digitsVal ds) (fun t _ => (parseExponent_sign hu t).2) h
          refine ⟨u :: 0x2B :: ds, rfl, ?_, .inr (hhead _), hmore⟩
          exact List.forall_mem_cons.2 ⟨hnum, List.forall_mem_cons.2 ⟨rfl, hall⟩⟩
        · have hread : ∀ t : JsString, t.head? = (v :: s).head? →
              parseExponent ([u] ++ t) = (parseDigits t).map fun out => ((digitsVal out.1 : Int), out.2) := by
            intro t ht
            obtain ⟨t, rfl⟩ := List.head?_eq_some_iff.1 ht
            exact parseExponent_digits hu hminus hplus t
          obtain ⟨ds, hsplit, hall, hmore⟩ := parseExponent_marked [u] (fun ds => digitsVal ds) hread h
          exact ⟨u :: ds, congrArg (u :: ·) hsplit, List.forall_mem_cons.2 ⟨hnum, hall⟩, .inr (hhead _),
            hmore⟩
    · have hnone : parseExponent (u :: s) = some (0, u :: s) := by simp [parseExponent, hu]
      rw [hnone, Option.some.injEq, Prod.mk.injEq] at h
      obtain ⟨rfl, rfl⟩ := h
      exact ⟨[], rfl, by simp, .inl rfl, fun rest' hrest' => parseExponent_stops hrest'⟩

theorem noDigit_append {text : JsString} (h : NoDigit rest) (hhead : ∀ u ∈ text.head?, isDigit u = false) :
    NoDigit (text ++ rest) := by
  cases text with
  | nil => exact h
  | cons u text => exact hhead

/-- What is read of a number without its sign is read before whatever may follow a number. -/
theorem parseMagnitude_append {m : Nat × Int} (h : parseMagnitude s = some (m, rest)) :
    ∃ text, s = text ++ rest ∧ (∀ u ∈ text, isNumeric u = true) ∧ (∃ u ∈ text.head?, isDigit u = true) ∧
      ∀ rest', Stops rest' → parseMagnitude (text ++ rest') = some (m, rest') := by
  obtain ⟨⟨whole, s₁⟩, hwhole, h⟩ := Option.bind_eq_some_iff.1 h
  obtain ⟨⟨fraction, s₂⟩, hfraction, h⟩ := Option.bind_eq_some_iff.1 h
  obtain ⟨⟨e, s₃⟩, hexponent, h⟩ := Option.bind_eq_some_iff.1 h
  simp only [pure, Option.some.injEq, Prod.mk.injEq] at h
  obtain ⟨rfl, rfl⟩ := h
  obtain ⟨hds, hzero⟩ := parseWhole_eq_some.1 hwhole
  obtain ⟨rfl, hne, hwholeds, -⟩ := parseDigits_eq_some.1 hds
  obtain ⟨point, rfl, hpoint, hpointhead, hpointmore⟩ := parseFraction_append hfraction
  obtain ⟨power, rfl, hpower, hpowerhead, hpowermore⟩ := parseExponent_append hexponent
  refine ⟨whole ++ (point ++ power), by simp [List.append_assoc], fun u hu =>
    ?_, ?_, fun rest' hrest' => ?_⟩
  · rcases List.mem_append.1 hu with hu | hu
    · exact isNumeric_of_isDigit (hwholeds u hu)
    rcases List.mem_append.1 hu with hu | hu
    · exact hpoint u hu
    · exact hpower u hu
  · obtain ⟨u, ds, rfl⟩ := List.exists_cons_of_ne_nil hne
    exact ⟨u, rfl, hwholeds u List.mem_cons_self⟩
  · have hnext : NoDigit (power ++ rest') := by
      refine noDigit_append (fun u hu => (hrest' u hu).1) fun u hu => ?_
      rcases hpowerhead with rfl | hhead | hhead
      · exact absurd hu (by simp)
      · rw [hhead] at hu; cases hu; rfl
      · rw [hhead] at hu; cases hu; rfl
    have hnopoint : (power ++ rest').head? ≠ some 0x2E := by
      rcases hpowerhead with rfl | hhead | hhead
      · exact fun hhead => (hrest' 0x2E hhead).2.1 rfl
      · rw [List.head?_append, hhead, Option.some_or]; decide
      · rw [List.head?_append, hhead, Option.some_or]; decide
    have hthen : NoDigit (point ++ (power ++ rest')) := by
      refine noDigit_append hnext fun u hu => ?_
      rcases hpointhead with rfl | hhead
      · exact absurd hu (by simp)
      · rw [hhead] at hu; cases hu; rfl
    have hwhole' : parseWhole (whole ++ (point ++ (power ++ rest'))) =
        some (whole, point ++ (power ++ rest')) :=
      parseWhole_eq_some.2 ⟨parseDigits_eq_some.2 ⟨rfl, hne, hwholeds, hthen⟩, hzero⟩
    rw [List.append_assoc, List.append_assoc, parseMagnitude, hwhole']
    simp only [Option.bind_eq_bind, Option.bind_some, hpointmore _ hnext hnopoint, hpowermore rest' hrest']
    rfl

/-- A number is read before whatever may follow it. -/
theorem parseNumber_append {v : Json} (h : parseNumber s = some (v, rest)) :
    ∃ text, s = text ++ rest ∧ (∀ u ∈ text, isNumeric u = true) ∧
      (∃ u ∈ text.head?, isDigit u = true ∨ u = 0x2D) ∧
      ∀ rest', Stops rest' → parseNumber (text ++ rest') = some (v, rest') := by
  match s with
  | [] => exact absurd h (by simp [parseNumber])
  | u :: s =>
    unfold parseNumber at h
    simp only at h
    split at h
    · next hu =>
      obtain ⟨m, hm, rfl⟩ :=
        (map_read_eq_some (f := fun m : Nat × Int => Json.number (-(m.1 : Int)) m.2)).1 h
      obtain ⟨text, rfl, hall, -, hmore⟩ := parseMagnitude_append hm
      refine ⟨u :: text, rfl, ?_, ⟨u, rfl, .inr hu⟩, fun rest' hrest' => ?_⟩
      · exact List.forall_mem_cons.2 ⟨hu ▸ by decide, hall⟩
      · rw [List.cons_append, parseNumber, if_pos hu, hmore rest' hrest', Option.map_some]
    · next hu =>
      obtain ⟨m, hm, rfl⟩ := (map_read_eq_some (f := fun m : Nat × Int => Json.number m.1 m.2)).1 h
      obtain ⟨text, hsplit, hall, ⟨w, hw, hdigit⟩, hmore⟩ := parseMagnitude_append hm
      obtain ⟨ds, rfl⟩ : ∃ ds, text = w :: ds := by
        cases text with
        | nil => exact absurd hw (by simp)
        | cons x ds => exact ⟨ds, by rw [Option.some.inj hw]⟩
      obtain ⟨rfl, rfl⟩ := List.cons.inj hsplit
      refine ⟨u :: ds, rfl, hall, ⟨u, rfl, .inl hdigit⟩, fun rest' hrest' => ?_⟩
      have hmore := hmore rest' hrest'
      rw [List.cons_append] at hmore
      rw [List.cons_append, parseNumber, if_neg hu, hmore, Option.map_some]

/-- What is read of a number is a number, and the rest comes behind it. -/
theorem treeNumber_eq_some {tree : JTree} (h : treeNumber s = some (tree, rest)) :
    ∃ n : JsonNumber, tree = .number n ∧ s = n.text ++ rest := by
  obtain ⟨⟨v, rest'⟩, hv, h⟩ := Option.bind_eq_some_iff.1 h
  obtain ⟨text, rfl, -, -, -⟩ := parseNumber_append hv
  have htake : (text ++ rest').take ((text ++ rest').length - rest'.length) = text := by
    rw [List.length_append, Nat.add_sub_cancel, List.take_left' rfl]
  simp only [htake] at h
  split at h
  · next hnumber =>
    simp only [Option.some.injEq, Prod.mk.injEq] at h
    obtain ⟨rfl, rfl⟩ := h
    exact ⟨⟨text, hnumber⟩, rfl, rfl⟩
  · exact absurd h (by simp)

theorem parseNumber_eq : parseNumber s = (treeNumber s).map fun out => (out.1.toJson, out.2) := by
  unfold treeNumber
  cases hv : parseNumber s with
  | none => rfl
  | some out =>
    obtain ⟨v, rest⟩ := out
    obtain ⟨text, rfl, -, -, hmore⟩ := parseNumber_append hv
    have htake : (text ++ rest).take ((text ++ rest).length - rest.length) = text := by
      rw [List.length_append, Nat.add_sub_cancel, List.take_left' rfl]
    have hwhole := hmore [] (by simp [Stops])
    rw [List.append_nil] at hwhole
    have hnumber : NumberText text := by rw [NumberText, hwhole]; rfl
    simp only [Option.bind_some, htake, dif_pos hnumber, Option.map_some, JTree.toJson, hwhole,
      Option.getD_some]

namespace JsonNumber

variable (n : JsonNumber)

theorem spec : (∀ u ∈ n.text, isNumeric u = true) ∧ (∃ u ∈ n.text.head?, isDigit u = true ∨ u = 0x2D) ∧
    ∀ rest, Stops rest → ∃ v, parseNumber (n.text ++ rest) = some (v, rest) := by
  obtain ⟨⟨v, rest⟩, hv, rfl⟩ := Option.map_eq_some_iff.1 n.isNumber
  obtain ⟨text, heq, hall, hhead, hmore⟩ := parseNumber_append hv
  rw [List.append_nil] at heq
  rw [heq]
  exact ⟨hall, hhead, fun rest hrest => ⟨v, hmore rest hrest⟩⟩

/-- A number is read back before whatever may follow it. -/
theorem read (hrest : Stops rest) : treeNumber (n.text ++ rest) = some (.number n, rest) := by
  obtain ⟨v, hv⟩ := n.spec.2.2 rest hrest
  have htake : (n.text ++ rest).take ((n.text ++ rest).length - rest.length) = n.text := by
    rw [List.length_append, Nat.add_sub_cancel, List.take_left' rfl]
  simp only [treeNumber, hv, Option.bind_some, htake, dif_pos n.isNumber]

end JsonNumber

end Numbers

/-! ## The value of the tree -/

section Value

variable {n : Nat} {s rest : JsString}

theorem parseWord_eq {word : JsString} {value : Json} {tree : JTree} (h : tree.toJson = value) :
    parseWord word value s = (treeWord word tree s).map fun out => (out.1.toJson, out.2) := by
  subst h
  unfold parseWord treeWord
  split <;> rfl

/-- Both parsers read the same value. -/
def SameValue (n : Nat) : Prop :=
  ∀ s, parseValue n s = (treeValue n s).map fun out => (out.1.toJson, out.2)

/-- Both read the same items. -/
def SameItems (n : Nat) : Prop :=
  ∀ s, parseItems n s = (treeItems n s).map fun out => (JTree.itemsToJson out.1, out.2)

/-- Both read the same members, behind any fields read before. -/
def SameMembers (n : Nat) : Prop :=
  ∀ fields s, parseFields n fields s =
    (treeMembers n s).map fun out => (JTree.membersToJson fields out.1, out.2)

-- What a text starts with is settled by hand, for the `match` of both parsers at once.

theorem sameValue_succ (hitems : SameItems n) (hmembers : SameMembers n) : SameValue (n + 1) := by
  intro s
  rw [parseValue, treeValue]
  cases skip s with
  | nil => rfl
  | cons u rest =>
    simp only
    split
    · rw [Option.map_map]; rfl
    split
    · rcases exists_or_forall_not fun after => skip rest = 0x5D :: after with ⟨after, hend⟩ | hend
      · rw [hend]; rfl
      · simp only [hitems (skip rest), Option.map_map]
        rfl
    split
    · rcases exists_or_forall_not fun after => skip rest = 0x7D :: after with ⟨after, hend⟩ | hend
      · rw [hend]; rfl
      · simp only [hmembers [] (skip rest), Option.map_map]
        rfl
    split
    · exact parseWord_eq (by rw [JTree.toJson])
    split
    · exact parseWord_eq (by rw [JTree.toJson])
    split
    · exact parseWord_eq (by rw [JTree.toJson])
    · exact parseNumber_eq

theorem sameItems_succ (hvalue : SameValue n) (hitems : SameItems n) : SameItems (n + 1) := by
  intro s
  rw [parseItems, treeItems, hvalue]
  cases treeValue n s with
  | none => rfl
  | some out =>
    simp only [Option.map_some, Option.bind_some]
    rcases exists_or_forall_not fun after => skip out.2 = 0x2C :: after with ⟨after, hcomma⟩ | hcomma
    · simp only [hcomma, hitems after, Option.map_map]
      rfl
    rcases exists_or_forall_not fun after => skip out.2 = 0x5D :: after with ⟨after, hend⟩ | hend
    · rw [hend]; rfl
    · simp only
      rfl

theorem sameMembers_succ (hvalue : SameValue n) (hmembers : SameMembers n) : SameMembers (n + 1) := by
  intro fields s
  rw [parseFields, treeMembers]
  rcases exists_or_forall_not fun after => skip s = 0x22 :: after with ⟨rest, hquote⟩ | hquote
  · simp only [hquote]
    cases parseString rest with
    | none => rfl
    | some key =>
      simp only [Option.bind_some]
      rcases exists_or_forall_not fun after => skip key.2 = 0x3A :: after with ⟨rest, hcolon⟩ | hcolon
      · simp only [hcolon, hvalue rest]
        cases treeValue n rest with
        | none => rfl
        | some out =>
          simp only [Option.map_some, Option.bind_some]
          rcases exists_or_forall_not fun after => skip out.2 = 0x2C :: after with ⟨after, hcomma⟩ | hcomma
          · simp only [hcomma, hmembers _ after, Option.map_map]
            rfl
          rcases exists_or_forall_not fun after => skip out.2 = 0x7D :: after with ⟨after, hend⟩ | hend
          · rw [hend]; rfl
          · simp only
            rfl
      · simp only
        rfl
  · simp only
    rfl

/-- Both parsers read the same, value by value. -/
theorem parse_eq_tree (n : Nat) : SameValue n ∧ SameItems n ∧ SameMembers n := by
  induction n with
  | zero => exact ⟨fun _ => rfl, fun _ => rfl, fun _ _ => rfl⟩
  | succ n ih =>
    obtain ⟨hvalue, hitems, hmembers⟩ := ih
    exact ⟨sameValue_succ hitems hmembers, sameItems_succ hvalue hitems, sameMembers_succ hvalue hmembers⟩

/-- A text is a value exactly where it is a tree, and it is the value of the tree. -/
theorem parse_eq : parse s = (parseTree s).map JTree.toJson := by
  rw [parse, parseTree, (parse_eq_tree _).1]
  cases treeValue (2 * s.length + 2) s with
  | none => rfl
  | some out =>
    simp only [Option.map_some, Option.bind_some]
    split <;> rfl

end Value

end Lynox.Text
