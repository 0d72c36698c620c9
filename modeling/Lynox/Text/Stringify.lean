import Lynox.Text.Json
import Mathlib.Algebra.Order.BigOperators.Group.List

/-!
# Nested values as JSON text

`Value.write` writes a value of arrays and objects as `JSON.stringify` does, its fields in the order
they were set. `Json.get` reads a field of a value that was parsed, and `trim` takes the white space
off both ends of a text.
-/

namespace Lynox.Text

/-- A value that is written. A number is its mantissa and a power of ten. -/
inductive Value
  | null
  | bool (b : Bool)
  | number (mantissa exponent : Int)
  | string (s : JsString)
  | array (items : List Value)
  | object (fields : List (JsString × Value))

/-- A number in decimal digits, with a point where it has a fraction. -/
def writeNumber (mantissa exponent : Int) : JsString :=
  if 0 ≤ exponent then writeInt (mantissa * 10 ^ exponent.toNat)
  else
    let places := exponent.natAbs
    let shown := shownDigits mantissa.natAbs
    let padded := List.replicate (places + 1 - shown.length) (digit 0) ++ shown
    let point := padded.length - places
    (if mantissa < 0 then [0x2D] else []) ++ padded.take point ++ 0x2E :: padded.drop point

mutual

def Value.write : Value → JsString
  | .null => utf16 "null"
  | .bool true => utf16 "true"
  | .bool false => utf16 "false"
  | .number mantissa exponent => writeNumber mantissa exponent
  | .string s => quote s
  | .array items => 0x5B :: Value.writeItems items ++ [0x5D]
  | .object fields => 0x7B :: Value.writeFields fields ++ [0x7D]

def Value.writeItems : List Value → JsString
  | [] => []
  | [item] => item.write
  | item :: items => item.write ++ 0x2C :: Value.writeItems items

def Value.writeFields : List (JsString × Value) → JsString
  | [] => []
  | [(name, value)] => quote name ++ 0x3A :: value.write
  | (name, value) :: fields => quote name ++ 0x3A :: value.write ++ 0x2C :: Value.writeFields fields

end

/-- A list of texts. -/
def Value.strings (texts : List JsString) : Value :=
  .array (texts.map .string)

/-- A field that is written where it is set. -/
def optionalField {α : Type} (name : String) (write : α → Value) : Option α → List (JsString × Value)
  | none => []
  | some a => [(utf16 name, write a)]

/-- A field of a value, none where it is no object or has no such field. -/
def Json.get (v : Json) (name : String) : Option Json :=
  match v with
  | .object fields => (fields.find? fun f => f.1 = utf16 name).map Prod.snd
  | _ => none

/-- The white space `trim` takes off : blanks, line ends and the byte order mark. -/
def isWhite (u : UInt16) : Bool :=
  (0x09 ≤ u.toNat && u.toNat ≤ 0x0D) || u = 0x20 || u = 0xA0 || u = 0x1680 ||
    (0x2000 ≤ u.toNat && u.toNat ≤ 0x200A) || u = 0x2028 || u = 0x2029 || u = 0x202F ||
    u = 0x205F || u = 0x3000 || u = 0xFEFF

def trim (s : JsString) : JsString :=
  (((s.dropWhile isWhite).reverse).dropWhile isWhite).reverse

/-! ## A text is written no shorter -/

theorem length_units_le_escape (p : Piece) : p.units.length ≤ (escape p).length := by
  cases p with
  | lone u => exact Nat.le_add_left 1 5
  | scalar n =>
    have hone : n < 0x10000 → (units n).length = 1 := fun h => by rw [units, if_pos h]; rfl
    simp only [Piece.units, escape]
    split_ifs <;> first
      | exact le_refl _
      | (rw [hone (by omega)]; exact Nat.succ_le_succ (Nat.zero_le _))

theorem length_le_quote (s : JsString) : s.length ≤ (quote s).length := by
  have hbody : s.length ≤ (quoteBody s).length := by
    conv_lhs => rw [← flatMap_pieces s]
    rw [quoteBody, List.length_flatMap, List.length_flatMap]
    exact List.sum_le_sum fun p _ => length_units_le_escape p
  unfold quote
  simp only [List.length_cons, List.length_append]
  omega

/-! ## A list of texts is read back -/

theorem parseItems_strings : ∀ {texts : List JsString} {n : Nat}, texts ≠ [] → texts.length < n →
    ∀ rest : JsString, parseItems n (Value.writeItems (texts.map .string) ++ 0x5D :: rest) =
      some (texts.map .string, rest)
  | [], _, hne, _, _ => absurd rfl hne
  | [text], n + 2, _, _, rest => by
    show parseItems (n + 2) (quote text ++ 0x5D :: rest) = _
    rw [parseItems, parseValue_string, Option.bind_some, skip_of_not_space rfl]
    rfl
  | text :: text' :: texts, n + 2, _, hn, rest => by
    have hwrite : Value.writeItems ((text :: text' :: texts).map .string) =
        quote text ++ 0x2C :: Value.writeItems ((text' :: texts).map .string) := rfl
    rw [hwrite, List.append_assoc, List.cons_append, parseItems, parseValue_string, Option.bind_some,
      skip_of_not_space rfl]
    simp only
    rw [parseItems_strings (by simp) (by simp at hn ⊢; omega)]
    rfl

theorem writeItems_cons (text : JsString) (texts : List JsString) :
    ∃ s, Value.writeItems ((text :: texts).map .string) = 0x22 :: s :=
  match texts with
  | [] => ⟨_, rfl⟩
  | _ :: _ => ⟨_, rfl⟩

theorem length_writeItems : ∀ texts : List JsString,
    texts.length ≤ (Value.writeItems (texts.map .string)).length
  | [] => Nat.zero_le _
  | [text] => by simp [Value.writeItems, Value.write, quote]
  | text :: text' :: texts => by
    have ih := length_writeItems (text' :: texts)
    simp only [Value.writeItems, List.map_cons, List.length_cons, List.length_append] at ih ⊢
    omega

theorem parse_strings (texts : List JsString) :
    parse (Value.strings texts).write = some (.array (texts.map .string)) := by
  rcases texts with _ | ⟨text, texts⟩
  · rfl
  · have hlen := length_writeItems (text :: texts)
    obtain ⟨body, hbody⟩ := writeItems_cons text texts
    have hwrite : (Value.strings (text :: texts)).write = 0x5B :: 0x22 :: (body ++ [0x5D]) := by
      show 0x5B :: Value.writeItems ((text :: texts).map .string) ++ [0x5D] = _
      rw [hbody]
      rfl
    have hitems := @parseItems_strings (text :: texts) (2 * (body.length + 3) + 1) (by simp)
      (by rw [hbody] at hlen; simp at hlen ⊢; omega) []
    rw [hbody, List.cons_append] at hitems
    unfold parse
    rw [hwrite]
    have hfuel : 2 * (0x5B :: 0x22 :: (body ++ [0x5D]) : JsString).length + 2 =
        2 * (body.length + 3) + 1 + 1 := by
      simp
    rw [hfuel, parseValue, skip_of_not_space rfl]
    simp only
    rw [if_neg (by decide), if_pos trivial, skip_of_not_space rfl]
    show ((parseItems _ (0x22 :: (body ++ [0x5D]))).map _).bind _ = _
    rw [hitems]
    rfl

end Lynox.Text
