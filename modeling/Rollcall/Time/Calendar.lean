import Rollcall.Text.Decimal

/-! The Gregorian calendar, extended over all years, and the count of days since 1970-01-01. A year
is taken to begin in March, so that the day that leap years add is its last: then centuries, groups
of four years and years split the days of 400 years by plain division. -/

namespace Rollcall

/-- A date as it is written. The year may be negative, year 0 comes before year 1. -/
structure Date where
  year : Int
  month : Nat
  day : Nat
  deriving DecidableEq, Repr, Inhabited

namespace Date

def isLeap (y : Int) : Bool := y % 4 = 0 && (y % 100 ≠ 0 || y % 400 = 0)

def monthLength (y : Int) (m : Nat) : Nat :=
  if m = 2 then (if isLeap y then 29 else 28)
  else if m = 4 || m = 6 || m = 9 || m = 11 then 30 else 31

/-- The date exists. -/
def Valid (d : Date) : Prop :=
  1 ≤ d.month ∧ d.month ≤ 12 ∧ 1 ≤ d.day ∧ d.day ≤ monthLength d.year d.month

instance (d : Date) : Decidable d.Valid := inferInstanceAs (Decidable (_ ∧ _ ∧ _ ∧ _))

/-- Days from 1970-01-01 to the date. -/
def toDay (d : Date) : Int :=
  let y := if d.month ≤ 2 then d.year - 1 else d.year
  let m := if d.month ≤ 2 then d.month + 9 else d.month - 3
  365 * y + y / 4 - y / 100 + y / 400 + ((153 * m + 2) / 5 + d.day - 1 : Nat) - 719468

/-- The date that many days after 1970-01-01. -/
def ofDay (n : Int) : Date :=
  let z := n + 719468
  let era := z / 146097
  let dayOfEra := (z % 146097).toNat
  let century := min 3 (dayOfEra / 36524)
  let dayOfCentury := dayOfEra - 36524 * century
  let four := dayOfCentury / 1461
  let dayOfFour := dayOfCentury - 1461 * four
  let one := min 3 (dayOfFour / 365)
  let dayOfYear := dayOfFour - 365 * one
  let m := (5 * dayOfYear + 2) / 153
  let year := 400 * era + (100 * century + 4 * four + one : Nat)
  let month := if m < 10 then m + 3 else m - 9
  ⟨if month ≤ 2 then year + 1 else year, month, dayOfYear - (153 * m + 2) / 5 + 1⟩

/-- Four digits; a sign stands in front of years that are negative or have more. -/
def writeYear (y : Int) : List Char :=
  if y < 0 then '-' :: Decimal.padded 4 y.natAbs
  else if 9999 < y then '+' :: Decimal.digits y.toNat
  else Decimal.padded 4 y.toNat

def write (d : Date) : List Char :=
  writeYear d.year ++ '-' :: Decimal.padded 2 d.month ++ '-' :: Decimal.padded 2 d.day

end Date

end Rollcall
