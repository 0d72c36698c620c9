import Lynox.Data.Assoc
import Lynox.Process.Run
import Mathlib.Algebra.BigOperators.Group.List.Basic
import Mathlib.Algebra.Order.Field.Rat

/-!
# Admission under the daily and the monthly cap

A background run reserves its worst case before it starts and releases it when its cost is
recorded. `reservePersistentBudget` admits an estimate when the recorded spend, everything
reserved and the estimate together stay within both caps; `persistentBudgetHeadroom` says
how much is free. Amounts are exact rationals and a cap that is off is `none`.

An `Office` is the accumulator, the recorded spend by day and the runs admitted and not yet
released. `Office.Allowed` is what its callers keep to : all spend is recorded by admitted
runs, each at most what it reserved and before it releases, and the clock goes forward.
-/

namespace Lynox.Budget

/-- A day, by its month and its day in the month. -/
structure Date where
  month : Nat
  day : Nat
  deriving DecidableEq, Repr

def Date.Before (d e : Date) : Prop :=
  d.month < e.month ∨ d.month = e.month ∧ d.day < e.day

instance (d e : Date) : Decidable (d.Before e) :=
  inferInstanceAs (Decidable (_ ∨ _))

/-- What `configurePersistentBudget` sets; a cap of `none` is infinite. -/
structure Settings where
  costProvider : Bool
  dailyCap : Option ℚ
  monthlyCap : Option ℚ
  deriving DecidableEq

/-- The recorded spend by day, the in-flight accumulator and the clock. -/
structure Books where
  costByDay : List (Date × ℚ)
  reservedInFlight : ℚ
  today : Date
  deriving DecidableEq

/-- Today's and this month's recorded spend, `none` where nothing is enforced. -/
def computeRecordedSpend (cfg : Settings) (b : Books) : Option (ℚ × ℚ) :=
  if !cfg.costProvider || (cfg.dailyCap = none && cfg.monthlyCap = none) then none
  else some ((Assoc.get b.costByDay b.today).getD 0,
    ((b.costByDay.filter fun r => r.1.month = b.today.month).map Prod.snd).sum)

structure Reservation where
  allowed : Bool
  reserved : ℚ
  reason : Option String
  deriving DecidableEq

/-- `projected` is over a cap that is on. -/
def exceeds (cap : Option ℚ) (projected : ℚ) : Bool :=
  cap.any (· < projected)

def capExceeded (kind cap : String) : String :=
  kind ++ " spending cap ($" ++ cap ++ ") would be exceeded by in-flight tasks."

/-- How a cap is written in a refusal. -/
def showCap (cap : Option ℚ) : String :=
  match cap with
  | none => "Infinity"
  | some cap => toString cap

def reservePersistentBudget (cfg : Settings) (b : Books) (estimated : ℚ) : Reservation × Books :=
  match computeRecordedSpend cfg b with
  | none => (⟨true, 0, none⟩, b)
  | some (todayCost, monthCost) =>
    if estimated ≤ 0 then (⟨true, 0, none⟩, b)
    else if exceeds cfg.dailyCap (todayCost + b.reservedInFlight + estimated) then
      (⟨false, 0, some (capExceeded "Daily" (showCap cfg.dailyCap))⟩, b)
    else if exceeds cfg.monthlyCap (monthCost + b.reservedInFlight + estimated) then
      (⟨false, 0, some (capExceeded "Monthly" (showCap cfg.monthlyCap))⟩, b)
    else (⟨true, estimated, none⟩, { b with reservedInFlight := b.reservedInFlight + estimated })

def persistentBudgetHeadroom (cfg : Settings) (b : Books) : Option ℚ :=
  match computeRecordedSpend cfg b with
  | none => none
  | some (todayCost, monthCost) =>
    let remaining := cfg.dailyCap.toList.map (· - todayCost - b.reservedInFlight) ++
      cfg.monthlyCap.toList.map (· - monthCost - b.reservedInFlight)
    remaining.min?.map (max 0)

def releasePersistentBudget (b : Books) (reserved : ℚ) : Books :=
  if reserved ≤ 0 then b
  else { b with reservedInFlight := max 0 (b.reservedInFlight - reserved) }

/-! ## Runs under the caps -/

/-- A run that was admitted and has not released. -/
structure OpenRun where
  id : Nat
  reserved : ℚ
  recorded : ℚ
  deriving DecidableEq

/-- The books and the open runs. -/
structure Office where
  books : Books
  runs : List OpenRun
  deriving DecidableEq

inductive BudgetEvent
  | reserve (run : Nat) (estimated : ℚ)
  /-- A part of the run's cost is recorded, on the day its row was made. -/
  | record (run : Nat) (day : Date) (amount : ℚ)
  | release (run : Nat)
  /-- A later day begins. -/
  | advance (day : Date)

/-- The recorded spend with `amount` more on `day`. -/
def recordCost (costByDay : List (Date × ℚ)) (day : Date) (amount : ℚ) : List (Date × ℚ) :=
  Assoc.set costByDay day ((Assoc.get costByDay day).getD 0 + amount)

def Office.step (cfg : Settings) (x : Office) : BudgetEvent → Office
  | .reserve run estimated =>
    let (r, books) := reservePersistentBudget cfg x.books estimated
    if r.allowed then ⟨books, x.runs ++ [⟨run, r.reserved, 0⟩]⟩ else x
  | .record run day amount =>
    { books := { x.books with costByDay := recordCost x.books.costByDay day amount }
      runs := x.runs.map fun r =>
        if r.id = run then { r with recorded := r.recorded + amount } else r }
  | .release run =>
    match Table.find OpenRun.id x.runs run with
    | none => x
    | some r => ⟨releasePersistentBudget x.books r.reserved, x.runs.filter (·.id ≠ run)⟩
  | .advance day => { x with books := { x.books with today := day } }

/-- What the callers keep to : a run records costs, together at most what it reserved, before
it releases, on a day that has begun; the clock goes forward. -/
def Office.Allowed (x : Office) : BudgetEvent → Prop
  | .reserve run _ => run ∉ x.runs.map OpenRun.id
  | .record run day amount => 0 ≤ amount ∧ ¬x.books.today.Before day ∧
      ∃ r, Table.find OpenRun.id x.runs run = some r ∧ r.recorded + amount ≤ r.reserved
  | .release run => run ∈ x.runs.map OpenRun.id
  | .advance day => x.books.today.Before day

instance (x : Office) : ∀ e, Decidable (x.Allowed e)
  | .reserve _ _ => inferInstanceAs (Decidable (_ ∉ _))
  | .record run day amount => decidable_of_iff
      (0 ≤ amount ∧ ¬x.books.today.Before day ∧
        (Table.find OpenRun.id x.runs run).any (fun r => r.recorded + amount ≤ r.reserved) = true)
      (by simp [Office.Allowed, Option.any_eq_true])
  | .release _ => inferInstanceAs (Decidable (_ ∈ _))
  | .advance day => inferInstanceAs (Decidable (x.books.today.Before day))

/-- Nothing spent and nothing reserved. -/
def Office.fresh (today : Date) : Office :=
  ⟨⟨[], 0, today⟩, []⟩

end Lynox.Budget
