import Lynox.Data.Calendar
import Lynox.Text.Matches

/-!
# Cron expressions

An expression is an interval (`30m`) or five fields : minute, hour, day of the month, month and day
of the week. A field is a list of numbers, ranges and steps, read as the set of its numbers
(`expandField`).

`nextOccurrence` adds an interval to an instant. With fields it goes on from the instant minute by
minute, for 366 days at most, to the first minute whose parts are in the sets.

Instants are milliseconds, and a date that is none stands for an invalid one. The sums and products below are
exact : up to the end of the range of dates they are numbers the language has, and what lies behind it stays
behind it when it is rounded.
-/

namespace Lynox.Cron

open Text

/-- A field's set, in the order its numbers were added. -/
abbrev NumberSet := List ℤ

structure CronFields where
  minute : NumberSet
  hour : NumberSet
  dayOfMonth : NumberSet
  month : NumberSet
  dayOfWeek : NumberSet

inductive ParsedExpression
  | fields (fields : CronFields)
  | interval (ms : ℤ)

/-- The floor of intervals : the worker ticks once per minute. -/
def MIN_INTERVAL_MS : ℤ := 60000

/-- 366 days of minutes. -/
def MAX_MINUTES_SCAN : ℕ := 366 * 24 * 60

/-! ## Fields -/

/-- `parseInt(text, 10)`, none where it is not a number. -/
def parseInt (s : JsString) : Option ℤ :=
  let number (digits : JsString) : Option ℤ := if digits = [] then none else some (digitsVal digits)
  match s.dropWhile isWhite with
  | [] => none
  | u :: rest =>
    if u = 0x2D then (number (rest.takeWhile isDigit)).map fun n => -n
    else if u = 0x2B then number (rest.takeWhile isDigit)
    else number ((u :: rest).takeWhile isDigit)

/-- No line ends in a text. -/
def InLine (s : JsString) : Prop :=
  ∀ u ∈ s, u ≠ 0x0A ∧ u ≠ 0x0D ∧ u ≠ 0x2028 ∧ u ≠ 0x2029

instance : DecidablePred InLine := fun s => List.decidableBAll _ s

/-- `/^(.+)\/(\d+)$/` : the digits at the end, and what stands before the slash in front of them. -/
def stepMatch (part : JsString) : Option (JsString × JsString) :=
  let digits := (part.reverse.takeWhile isDigit).reverse
  match part.reverse.dropWhile isDigit with
  | 0x2F :: base =>
    if digits ≠ [] ∧ base ≠ [] ∧ InLine base then
      some (base.reverse, digits)
    else none
  | _ => none

/-- `[min-max]` in an error text. -/
def rangeText (min max : ℤ) : JsString :=
  utf16 "[" ++ writeInt min ++ utf16 "-" ++ writeInt max ++ utf16 "]: "

def parseRange (token : JsString) (min max : ℤ) : Except JsString (ℤ × ℤ) :=
  match split 0x2D token with
  | [first, last] =>
    match parseInt first, parseInt last with
    | some start, some stop =>
      if start < min ∨ stop > max ∨ start > stop then .error
        (utf16 "Invalid range " ++ rangeText min max ++ token)
      else .ok (start, stop)
    | _, _ => .error (utf16 "Invalid range " ++ rangeText min max ++ token)
  | _ => .error (utf16 "Invalid range: " ++ token)

/-- `for (i = start; i <= stop; i += step)`, in at most so many rounds. -/
def loop (step stop : ℤ) : ℕ → ℤ → NumberSet
  | 0, _ => []
  | rounds + 1, i => if i ≤ stop then i :: loop step stop rounds (i + step) else []

/-- The numbers from `start` to `stop` in steps of at least one. -/
def numbers (start stop step : ℤ) : NumberSet :=
  loop step stop (stop - start + 1).toNat start

/-- One part of a field's list. -/
def expandPart (part : JsString) (min max : ℤ) : Except JsString NumberSet :=
  match stepMatch part with
  | some (base, digits) =>
    match parseInt digits with
    | none => .ok []
    | some step =>
      if step ≤ 0 then .error (utf16 "Invalid step value: " ++ part)
      else if base = [0x2A] then .ok (numbers min max step)
      else (parseRange base min max).map fun range => numbers range.1 range.2 step
  | none =>
    if part = [0x2A] then .ok (numbers min max 1)
    else if 0x2D ∈ part then (parseRange part min max).map fun range => numbers range.1 range.2 1
    else
      match parseInt part with
      | none => .error (utf16 "Value out of range " ++ rangeText min max ++ part)
      | some n =>
        if n < min ∨ n > max then .error
          (utf16 "Value out of range " ++ rangeText min max ++ part) else .ok [n]

def expandParts (min max : ℤ) : List JsString → Except JsString NumberSet
  | [] => .ok []
  | part :: parts => (expandPart part min max).bind fun first =>
    (expandParts min max parts).map (first ++ ·)

def expandField (field : JsString) (min max : ℤ) : Except JsString NumberSet :=
  expandParts min max (split 0x2C field)

/-! ## Expressions -/

/-- `/^(\d+)\s*(s|m|h|d)$/i` : the digits, and the milliseconds of the unit. -/
def shorthand (trimmed : JsString) : Option (JsString × ℤ) :=
  let digits := trimmed.takeWhile isDigit
  if digits = [] then none
  else
    match (trimmed.dropWhile isDigit).dropWhile isWhite with
    | [u] =>
      if u = 0x73 ∨ u = 0x53 then some (digits, 1000)
      else if u = 0x6D ∨ u = 0x4D then some (digits, 60000)
      else if u = 0x68 ∨ u = 0x48 then some (digits, 3600000)
      else if u = 0x64 ∨ u = 0x44 then some (digits, 86400000)
      else none
    | _ => none

/-- The five fields, each within its range. -/
def parseFields (minute hour dayOfMonth month dayOfWeek : JsString) : Except JsString CronFields := do
  let minute ← expandField minute 0 59
  let hour ← expandField hour 0 23
  let dayOfMonth ← expandField dayOfMonth 1 31
  let month ← expandField month 1 12
  let dayOfWeek ← expandField dayOfWeek 0 6
  return ⟨minute, hour, dayOfMonth, month, dayOfWeek⟩

def parse (expression : JsString) : Except JsString ParsedExpression :=
  let trimmed := trim expression
  match shorthand trimmed with
  | some (digits, ms) =>
    let value : ℤ := digitsVal digits
    if value ≤ 0 then .error (utf16 "Interval must be > 0: " ++ trimmed)
    else .ok (.interval (max MIN_INTERVAL_MS (value * ms)))
  | none =>
    match splitWhite trimmed with
    | [minute, hour, dayOfMonth, month, dayOfWeek] =>
      (parseFields minute hour dayOfMonth month dayOfWeek).map .fields
    | parts =>
      .error (utf16 "Expected 5 fields, got " ++ digits parts.length ++ utf16 ": " ++ trimmed)

def isValidCron (expression : JsString) : Bool :=
  match parse expression with
  | .ok _ => true
  | .error _ => false

/-! ## Instants -/

/-- A date, none where it is invalid. -/
abbrev Date := Option ℤ

/-- The instants a date can have. -/
def Instant (t : ℤ) : Prop :=
  -8640000000000000 ≤ t ∧ t ≤ 8640000000000000

instance (t : ℤ) : Decidable (Instant t) :=
  inferInstanceAs (Decidable (_ ∧ _))

/-- The date of a number of milliseconds. -/
def timeClip (t : ℤ) : Date :=
  if Instant t then some t else none

/-- `setTime(getTime() + ms)`. -/
def addTime (date : Date) (ms : ℤ) : Date :=
  date.bind fun t => timeClip (t + ms)

/-- `setUTCSeconds(0, 0)`. -/
def wholeMinute (date : Date) : Date :=
  date.bind fun t => timeClip (t / 60000 * 60000)

def minuteOf (t : ℤ) : ℤ := t / 60000 % 60

def hourOf (t : ℤ) : ℤ := t / 3600000 % 24

def dayOf (t : ℤ) : ℤ := t / 86400000

/-- The parts of a minute are in the sets. -/
def CronFields.fires (parsed : CronFields) (t : ℤ) : Bool :=
  minuteOf t ∈ parsed.minute && hourOf t ∈ parsed.hour && Calendar.dateOf (dayOf t) ∈ parsed.dayOfMonth &&
    Calendar.monthOf (dayOf t) ∈ parsed.month && Calendar.weekdayOf (dayOf t) ∈ parsed.dayOfWeek

/-- The search, in at most so many rounds. An invalid date has no parts. -/
def scan (parsed : CronFields) : ℕ → Date → Option Date
  | 0, _ => none
  | rounds + 1, candidate =>
    if candidate.any parsed.fires then some candidate else scan parsed rounds (addTime candidate 60000)

/-- The next occurrence after an instant, by default after now. -/
def nextOccurrence (now : Date) (expression : JsString) (after : Option Date) : Except JsString Date :=
  (parse expression).bind fun parsed =>
    let base := after.getD now
    match parsed with
    | .interval ms => .ok (addTime base ms)
    | .fields fields =>
      match scan fields MAX_MINUTES_SCAN (addTime (wholeMinute base) 60000) with
      | some candidate => .ok candidate
      | none => .error (utf16 "No matching occurrence within 366 days for: " ++ expression)

end Lynox.Cron
