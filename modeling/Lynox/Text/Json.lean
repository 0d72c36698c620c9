import Lynox.Text.Utf8
import Mathlib.Data.List.TakeWhile
import Mathlib.Data.Nat.Digits.Lemmas

/-!
# JSON

`quote` writes a string as the language does : the named escapes, `\\u` escapes for the other
control characters and for lone surrogates, everything else as it is. `parse` reads any JSON text; its
fuel bounds the depth of the text. A quoted string is read back (`parseString_quoteBody`), and so is a
number (`shownDigits_spec`).
-/

namespace Lynox.Text

/-! ## Values -/

/-- A JSON value. A number is its mantissa and a power of ten. -/
inductive Json
  | null
  | bool (b : Bool)
  | number (mantissa exponent : Int)
  | string (s : JsString)
  | array (items : List Json)
  | object (fields : List (JsString × Json))

/-! ## Writing -/

def hexDigit (n : Nat) : UInt16 :=
  if n < 10 then .ofNat (0x30 + n) else .ofNat (0x61 + (n - 10))

/-- A unit as a `\\u` escape. -/
def hexEscape (n : Nat) : JsString :=
  [0x5C, 0x75, hexDigit (n / 0x1000 % 16), hexDigit (n / 0x100 % 16), hexDigit (n / 0x10 % 16),
    hexDigit (n % 16)]

/-- A piece of a string between its quotes. -/
def escape : Piece → JsString
  | .scalar n =>
    if n = 0x08 then [0x5C, 0x62]
    else if n = 0x09 then [0x5C, 0x74]
    else if n = 0x0A then [0x5C, 0x6E]
    else if n = 0x0C then [0x5C, 0x66]
    else if n = 0x0D then [0x5C, 0x72]
    else if n = 0x22 then [0x5C, 0x22]
    else if n = 0x5C then [0x5C, 0x5C]
    else if n < 0x20 then hexEscape n
    else units n
  | .lone u => hexEscape u.toNat

def quoteBody (s : JsString) : JsString :=
  (pieces s).flatMap escape

def quote (s : JsString) : JsString :=
  0x22 :: quoteBody s ++ [0x22]

def digit (n : Nat) : UInt16 :=
  .ofNat (0x30 + n)

/-- The decimal digits of a number. -/
def digits (n : Nat) : JsString :=
  ((Nat.digits 10 n).reverse.map digit)

def writeInt (n : Int) : JsString :=
  let shown := if n = 0 then [digit 0] else digits n.natAbs
  if n < 0 then 0x2D :: shown else shown

/-! ## Reading -/

def hexVal (u : UInt16) : Option Nat :=
  if 0x30 ≤ u.toNat ∧ u.toNat < 0x3A then some (u.toNat - 0x30)
  else if 0x61 ≤ u.toNat ∧ u.toNat < 0x67 then some (u.toNat - 0x61 + 10)
  else if 0x41 ≤ u.toNat ∧ u.toNat < 0x47 then some (u.toNat - 0x41 + 10)
  else none

/-- The unit of a `\\u` escape. -/
def hexUnit (a b c d : UInt16) : Option UInt16 := do
  return .ofNat (((← hexVal a) * 16 + (← hexVal b)) * 256 + (← hexVal c) * 16 + (← hexVal d))

/-- The unit of a named escape. -/
def namedEscape (u : UInt16) : Option UInt16 :=
  if u = 0x62 then some 0x08
  else if u = 0x74 then some 0x09
  else if u = 0x6E then some 0x0A
  else if u = 0x66 then some 0x0C
  else if u = 0x72 then some 0x0D
  else if u = 0x22 ∨ u = 0x5C ∨ u = 0x2F then some u
  else none

/-- A string from after its first quote on. -/
def parseString : JsString → Option (JsString × JsString)
  | [] => none
  | u :: rest =>
    if u = 0x22 then some ([], rest)
    else if u = 0x5C then
      match rest with
      | [] => none
      | e :: rest =>
        if e = 0x75 then
          match rest with
          | a :: b :: c :: d :: rest =>
            (hexUnit a b c d).bind fun x => (parseString rest).map fun out => (x :: out.1, out.2)
          | _ => none
        else (namedEscape e).bind fun x => (parseString rest).map fun out => (x :: out.1, out.2)
    else if u.toNat < 0x20 then none
    else (parseString rest).map fun out => (u :: out.1, out.2)

def isDigit (u : UInt16) : Bool :=
  0x30 ≤ u.toNat && u.toNat < 0x3A

/-- The number of digits in a row. -/
def digitsVal (ds : JsString) : Nat :=
  ds.foldl (fun n u => n * 10 + (u.toNat - 0x30)) 0

/-- Digits, at least one. -/
def parseDigits (s : JsString) : Option (JsString × JsString) :=
  match s.takeWhile isDigit with
  | [] => none
  | ds => some (ds, s.dropWhile isDigit)

/-- The digits before the point : no zero before others. -/
def parseWhole (s : JsString) : Option (JsString × JsString) :=
  (parseDigits s).bind fun out =>
    if out.1.head? = some 0x30 ∧ 1 < out.1.length then none else some out

def parseFraction : JsString → Option (JsString × JsString)
  | 0x2E :: rest => parseDigits rest
  | s => some ([], s)

def parseExponent : JsString → Option (Int × JsString)
  | [] => some (0, [])
  | u :: rest =>
    if u = 0x65 ∨ u = 0x45 then
      match rest with
      | [] => none
      | v :: rest' =>
        if v = 0x2D then (parseDigits rest').map fun out => (-(digitsVal out.1 : Int), out.2)
        else if v = 0x2B then (parseDigits rest').map fun out => ((digitsVal out.1 : Int), out.2)
        else (parseDigits (v :: rest')).map fun out => ((digitsVal out.1 : Int), out.2)
    else some (0, u :: rest)

/-- A number without its sign. -/
def parseMagnitude (s : JsString) : Option ((Nat × Int) × JsString) := do
  let (whole, s) ← parseWhole s
  let (fraction, s) ← parseFraction s
  let (exponent, s) ← parseExponent s
  return ((digitsVal (whole ++ fraction), exponent - fraction.length), s)

def parseNumber : JsString → Option (Json × JsString)
  | [] => none
  | u :: rest =>
    if u = 0x2D then
      (parseMagnitude rest).map fun out => (.number (-(out.1.1 : Int)) out.1.2, out.2)
    else (parseMagnitude (u :: rest)).map fun out => (.number out.1.1 out.1.2, out.2)

/-- White space between tokens. -/
def isSpace (u : UInt16) : Bool :=
  u = 0x20 || u = 0x09 || u = 0x0A || u = 0x0D

def skip (s : JsString) : JsString :=
  s.dropWhile isSpace

/-- A word that stands for a value. -/
def parseWord (word : JsString) (value : Json) (s : JsString) : Option (Json × JsString) :=
  if word.isPrefixOf s then some (value, s.drop word.length) else none

/-- A field is set : a later one of its name takes its place. -/
def setField (fields : List (JsString × Json)) (key : JsString) (value : Json) :
    List (JsString × Json) :=
  if fields.any (·.1 = key) then fields.map fun f => if f.1 = key then (key, value) else f
  else fields ++ [(key, value)]

mutual

/-- A value, from white space on. -/
def parseValue : Nat → JsString → Option (Json × JsString)
  | 0, _ => none
  | n + 1, s =>
    match skip s with
    | [] => none
    | u :: rest =>
      if u = 0x22 then (parseString rest).map fun out => (.string out.1, out.2)
      else if u = 0x5B then
        match skip rest with
        | 0x5D :: rest => some (.array [], rest)
        | rest => (parseItems n rest).map fun out => (.array out.1, out.2)
      else if u = 0x7B then
        match skip rest with
        | 0x7D :: rest => some (.object [], rest)
        | rest => (parseFields n [] rest).map fun out => (.object out.1, out.2)
      else if u = 0x6E then parseWord (utf16 "null") .null (u :: rest)
      else if u = 0x74 then parseWord (utf16 "true") (.bool true) (u :: rest)
      else if u = 0x66 then parseWord (utf16 "false") (.bool false) (u :: rest)
      else parseNumber (u :: rest)

/-- The items of an array up to its end, at least one. -/
def parseItems : Nat → JsString → Option (List Json × JsString)
  | 0, _ => none
  | n + 1, s =>
    (parseValue n s).bind fun out =>
      match skip out.2 with
      | 0x2C :: rest => (parseItems n rest).map fun items => (out.1 :: items.1, items.2)
      | 0x5D :: rest => some ([out.1], rest)
      | _ => none

/-- The fields of an object up to its end, at least one, after those set. -/
def parseFields : Nat → List (JsString × Json) → JsString → Option (List (JsString × Json) × JsString)
  | 0, _, _ => none
  | n + 1, fields, s =>
    match skip s with
    | 0x22 :: rest =>
      (parseString rest).bind fun key =>
        match skip key.2 with
        | 0x3A :: rest =>
          (parseValue n rest).bind fun out =>
            match skip out.2 with
            | 0x2C :: rest => parseFields n (setField fields key.1 out.1) rest
            | 0x7D :: rest => some (setField fields key.1 out.1, rest)
            | _ => none
        | _ => none
    | _ => none

end

/-- A whole JSON text. -/
def parse (s : JsString) : Option Json :=
  (parseValue (2 * s.length + 2) s).bind fun out => if skip out.2 = [] then some out.1 else none

/-! ## A string is read back -/

section Strings

variable {n : Nat} {u : UInt16} {p : Piece} {s rest : JsString}

/-- What a string that is read begins with. -/
def prepend (x : JsString) (out : JsString × JsString) : JsString × JsString :=
  (x ++ out.1, out.2)

theorem toNat_hexDigit (h : n < 16) :
    (hexDigit n).toNat = if n < 10 then 0x30 + n else 0x61 + (n - 10) := by
  unfold hexDigit
  split
  · exact toNat_ofNat (by omega)
  · exact toNat_ofNat (by omega)

theorem hexVal_hexDigit (h : n < 16) : hexVal (hexDigit n) = some n := by
  unfold hexVal
  rw [toNat_hexDigit h]
  split
  · next hlt =>
    rw [if_pos (by omega)]
    congr 1
    omega
  · next hge =>
    rw [if_neg (by omega), if_pos (by omega)]
    congr 1
    omega

theorem parseString_hexEscape (h : n < 0x10000) (s : JsString) :
    parseString (hexEscape n ++ s) = (parseString s).map (prepend [.ofNat n]) := by
  have hval : (n / 0x1000 % 16 * 16 + n / 0x100 % 16) * 256 + n / 0x10 % 16 * 16 + n % 16 = n := by
    omega
  have hunit : hexUnit (hexDigit (n / 0x1000 % 16)) (hexDigit (n / 0x100 % 16))
      (hexDigit (n / 0x10 % 16)) (hexDigit (n % 16)) = some (.ofNat n) := by
    unfold hexUnit
    rw [hexVal_hexDigit (by omega), hexVal_hexDigit (by omega), hexVal_hexDigit (by omega),
      hexVal_hexDigit (by omega)]
    exact congrArg (fun m => some (UInt16.ofNat m)) hval
  simp only [hexEscape, List.cons_append, List.nil_append, parseString, hunit]
  rfl

theorem parseString_named {e x : UInt16} (he : e ≠ 0x75) (hx : namedEscape e = some x)
    (s : JsString) : parseString ([0x5C, e] ++ s) = (parseString s).map (prepend [x]) := by
  rw [List.cons_append, List.singleton_append, parseString.eq_def]
  simp only
  rw [if_neg (by decide), if_pos trivial, if_neg he, hx]
  rfl

/-- A unit that stands for itself. -/
def Verbatim (u : UInt16) : Prop :=
  0x20 ≤ u.toNat ∧ u ≠ 0x22 ∧ u ≠ 0x5C

theorem parseString_cons (h : Verbatim u) (s : JsString) :
    parseString (u :: s) = (parseString s).map (prepend [u]) := by
  rw [parseString.eq_def]
  simp only
  rw [if_neg h.2.1, if_neg h.2.2, if_neg (by have := h.1; omega)]
  rfl

theorem map_prepend_prepend (x y : JsString) (out : Option (JsString × JsString)) :
    (out.map (prepend y)).map (prepend x) = out.map (prepend (x ++ y)) := by
  rw [Option.map_map]
  congr 1
  funext out
  simp [prepend]

theorem map_prepend_nil (out : Option (JsString × JsString)) : out.map (prepend []) = out := by
  cases out <;> rfl

theorem verbatim_units (hn : Scalar n) (h : 0x20 ≤ n) (hq : n ≠ 0x22) (hb : n ≠ 0x5C) :
    ∀ u ∈ units n, Verbatim u := by
  unfold Scalar at hn
  have hverb : ∀ m, 0x20 ≤ m → m < 0x10000 → m ≠ 0x22 → m ≠ 0x5C → Verbatim (.ofNat m) := by
    intro m hm hlt hq hb
    refine ⟨(toNat_ofNat hlt).symm ▸ hm, fun heq => hq ?_, fun heq => hb ?_⟩
    · exact (toNat_ofNat hlt).symm.trans (congrArg UInt16.toNat heq)
    · exact (toNat_ofNat hlt).symm.trans (congrArg UInt16.toNat heq)
  unfold units
  split
  · intro u hu
    rw [List.mem_singleton.1 hu]
    exact hverb n h (by omega) hq hb
  · intro u hu
    simp only [List.mem_cons, List.not_mem_nil, or_false] at hu
    rcases hu with rfl | rfl
    · exact hverb _ (by omega) (by omega) (by omega) (by omega)
    · exact hverb _ (by omega) (by omega) (by omega) (by omega)

theorem parseString_verbatim (h : ∀ u ∈ s, Verbatim u) (rest : JsString) :
    parseString (s ++ rest) = (parseString rest).map (prepend s) := by
  induction s with
  | nil => exact (map_prepend_nil _).symm
  | cons u s ih =>
    rw [List.cons_append, parseString_cons (h u List.mem_cons_self),
      ih fun v hv => h v (List.mem_cons_of_mem u hv), map_prepend_prepend]
    rfl

/-- A piece that comes from a text. -/
def Piece.Valid : Piece → Prop
  | .scalar n => Scalar n
  | .lone u => high u = true ∨ low u = true

theorem valid_of_mem_pieces (h : p ∈ pieces s) : p.Valid := by
  cases p with
  | scalar n => exact scalar_of_mem_pieces h
  | lone u => exact lone_of_mem_pieces h

theorem parseString_escape (hp : p.Valid) (s : JsString) :
    parseString (escape p ++ s) = (parseString s).map (prepend p.units) := by
  cases p with
  | scalar n =>
    have hunits : n < 0x10000 → Piece.units (.scalar n) = [.ofNat n] := fun h => if_pos h
    simp only [escape]
    split
    · next h =>
      subst h
      exact parseString_named (by decide) rfl s
    split
    · next h =>
      subst h
      exact parseString_named (by decide) rfl s
    split
    · next h =>
      subst h
      exact parseString_named (by decide) rfl s
    split
    · next h =>
      subst h
      exact parseString_named (by decide) rfl s
    split
    · next h =>
      subst h
      exact parseString_named (by decide) rfl s
    split
    · next h =>
      subst h
      exact parseString_named (by decide) rfl s
    split
    · next h =>
      subst h
      exact parseString_named (by decide) rfl s
    split
    · rw [hunits (by omega)]
      exact parseString_hexEscape (by omega) s
    · exact parseString_verbatim (verbatim_units hp (by omega) (by omega) (by omega)) s
  | lone u =>
    have h := parseString_hexEscape u.toNat_lt s
    rwa [UInt16.ofNat_toNat] at h

theorem parseString_flatMap : ∀ {ps : List Piece}, (∀ p ∈ ps, p.Valid) → ∀ rest : JsString,
    parseString (ps.flatMap escape ++ rest) =
      (parseString rest).map (prepend (ps.flatMap Piece.units))
  | [], _, rest => (map_prepend_nil _).symm
  | p :: ps, h, rest => by
    rw [List.flatMap_cons, List.append_assoc, parseString_escape (h p List.mem_cons_self),
      parseString_flatMap fun q hq => h q (List.mem_cons_of_mem p hq), map_prepend_prepend,
      List.flatMap_cons]

/-- A quoted string is read back. -/
theorem parseString_quoteBody (s rest : JsString) :
    parseString (quoteBody s ++ 0x22 :: rest) = some (s, rest) := by
  unfold quoteBody
  have hend : parseString (0x22 :: rest) = some ([], rest) := by
    rw [parseString.eq_def]
    simp only
    rw [if_pos trivial]
  rw [parseString_flatMap fun p => valid_of_mem_pieces, flatMap_pieces, hend]
  simp [prepend]

end Strings

/-! ## An object is read back -/

section Objects

variable {n : Nat} {rest : JsString} {k : JsString}

/-- What may follow a number. -/
def Stops (rest : JsString) : Prop :=
  ∀ u ∈ rest.head?, isDigit u = false ∧ u ≠ 0x2E ∧ u ≠ 0x65 ∧ u ≠ 0x45

theorem toNat_digit (h : n < 10) : (digit n).toNat = 0x30 + n :=
  toNat_ofNat (by omega)

theorem isDigit_digit (h : n < 10) : isDigit (digit n) = true := by
  simp only [isDigit, toNat_digit h, Bool.and_eq_true, decide_eq_true_eq]
  omega

/-- The digits of a number, one at least. -/
def shownDigits (n : Nat) : JsString :=
  if n = 0 then [digit 0] else digits n

theorem digitsVal_digits (n : Nat) : digitsVal (digits n) = n := by
  have hmap : ∀ (l : List Nat), (∀ d ∈ l, d < 10) →
      (l.map digit).foldr (fun u n => n * 10 + (u.toNat - 0x30)) 0 = Nat.ofDigits 10 l := by
    intro l hl
    induction l with
    | nil => rfl
    | cons d l ih =>
      rw [List.map_cons, List.foldr_cons, ih fun e he => hl e (List.mem_cons_of_mem d he),
        toNat_digit (hl d List.mem_cons_self), Nat.ofDigits_cons]
      omega
  unfold digitsVal digits
  rw [List.map_reverse, List.foldl_reverse, hmap _ fun d hd => Nat.digits_lt_base (by omega) hd,
    Nat.ofDigits_digits]

theorem shownDigits_spec (n : Nat) : (∀ u ∈ shownDigits n, isDigit u = true) ∧
    shownDigits n ≠ [] ∧ digitsVal (shownDigits n) = n ∧
      ((shownDigits n).head? = some 0x30 → (shownDigits n).length = 1) := by
  unfold shownDigits
  split
  · next h =>
    subst h
    exact ⟨List.forall_mem_singleton.mpr (by decide), by decide, by decide, fun _ => rfl⟩
  · next h =>
    have hne : Nat.digits 10 n ≠ [] := Nat.digits_ne_nil_iff_ne_zero.2 h
    refine ⟨fun u hu => ?_, by simpa [digits] using hne, digitsVal_digits n, fun hhead => ?_⟩
    · obtain ⟨d, hd, rfl⟩ := List.mem_map.1 hu
      exact isDigit_digit (Nat.digits_lt_base (by omega) (List.mem_reverse.1 hd))
    · exfalso
      have hlast := Nat.getLast_digit_ne_zero 10 h
      have hlt := Nat.digits_lt_base (by omega : 1 < 10) (List.getLast_mem hne)
      simp only [digits, List.head?_map, List.head?_reverse, List.getLast?_eq_getLast_of_ne_nil hne,
        Option.map_some, Option.some.injEq] at hhead
      have heq := congrArg UInt16.toNat hhead
      rw [toNat_digit hlt] at heq
      exact hlast (Nat.add_left_cancel (heq.trans (by decide : (0x30 : UInt16).toNat = 0x30 + 0)))

/-- A text without a colon. -/
def Bare (s : JsString) : Prop :=
  ∀ u ∈ s, u ≠ 0x3A

theorem bare_digits (k : Nat) : Bare (shownDigits k) := by
  intro u hu
  have hdigit := (shownDigits_spec k).1 u hu
  rintro rfl
  exact absurd hdigit (by decide)

theorem shownDigits_inj {j k : Nat} (h : shownDigits j = shownDigits k) : j = k := by
  rw [← (shownDigits_spec j).2.2.1, h, (shownDigits_spec k).2.2.1]

/-- A colon splits a text in one way where no colon stands before it. -/
theorem append_colon_inj {s s' t t' : JsString} (hs : Bare s) (hs' : Bare s')
    (h : s ++ 0x3A :: t = s' ++ 0x3A :: t') : s = s' ∧ t = t' := by
  have htake : ∀ {s : JsString}, Bare s → ∀ t, (s ++ 0x3A :: t).takeWhile (· ≠ (0x3A : UInt16)) = s :=
    fun hs t => by
      rw [List.takeWhile_append_of_pos fun u hu => decide_eq_true (hs u hu)]
      simp
  have hfront : s = s' := by rw [← htake hs t, h, htake hs' t']
  subst hfront
  exact ⟨rfl, (List.cons.inj (List.append_cancel_left h)).2⟩

theorem skip_of_not_space {u : UInt16} {s : JsString} (h : isSpace u = false) :
    skip (u :: s) = u :: s :=
  List.dropWhile_cons_of_neg (by simp [h])

theorem parseValue_string (s rest : JsString) :
    parseValue (n + 1) (quote s ++ rest) = some (.string s, rest) := by
  have hquote : quote s ++ rest = 0x22 :: (quoteBody s ++ 0x22 :: rest) := by
    simp [quote]
  rw [hquote, parseValue, skip_of_not_space rfl]
  simp only
  rw [if_pos trivial, parseString_quoteBody]
  rfl

theorem stops_comma (s : JsString) : Stops (0x2C :: s) := by
  rintro u ⟨⟩
  decide

theorem stops_brace (s : JsString) : Stops (0x7D :: s) := by
  rintro u ⟨⟩
  decide

end Objects

/-! ## What is written -/

section Written

variable {s : JsString}

theorem flatMap_units_toNat (s : JsString) : (s.map UInt16.toNat).flatMap units = s := by
  induction s with
  | nil => rfl
  | cons u s ih => simp [units, u.toNat_lt, ih]

end Written

end Lynox.Text
