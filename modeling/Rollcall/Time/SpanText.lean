import Rollcall.Number.Power
import Rollcall.Text.Blank
import Rollcall.Time.Span

/-! Reading spans of time: numbers with units, with blanks between and within them as one likes. A number
may have a fraction, which has to come out whole: in nanoseconds for a minute and less, in seconds for
more. A zero needs no unit when it stands alone. -/

namespace Rollcall.Span

/-- Names of a unit, and its length as so many of the steps in which a fraction of it is counted. -/
structure Unit where
  names : List String
  count : Nat
  step : Nat

def unitTable : List Unit :=
  [⟨["nanos", "nsec", "ns"], 1, 1⟩,
    ⟨["usec", "us", "\u00b5s"], 1000, 1⟩,
    ⟨["millis", "msec", "ms"], 1000000, 1⟩,
    ⟨["seconds", "second", "secs", "sec", "s"], second, 1⟩,
    ⟨["minutes", "minute", "min", "mins", "m"], minute, 1⟩,
    ⟨["hours", "hour", "hr", "hrs", "h"], 3600, second⟩,
    ⟨["days", "day", "d"], 86400, second⟩,
    ⟨["weeks", "week", "wk", "wks", "w"], 604800, second⟩,
    ⟨["months", "month", "M"], 2630016, second⟩,
    ⟨["years", "year", "yr", "yrs", "y"], 31557600, second⟩]

def word : Nat := twoTo 64

def fits (n : Nat) : Option Nat := if n < word then some n else none

def isNumeral (c : Char) : Bool := c.isDigit || Text.isBlank c

def isUnitLetter (c : Char) : Bool := c.isAlpha || c = '\u00b5'

/-- The part of a unit that the digits behind the point stand for. -/
def part (u : Unit) (digits : List Char) : Option Nat := do
  let d ← fits (tenTo digits.length)
  let n ← fits (Decimal.value digits * u.count)
  if digits = [] ∨ u.count = 1 ∨ n % d ≠ 0 then none else some (n / d * u.step)

/-- The span with whole units added. They are counted in seconds from the second on, and in nanoseconds
below it, to which those of the span beyond its last second come. -/
def addWhole (total : Nat) (u : Unit) (n : Nat) : Option Nat := do
  let length := u.count * u.step
  let _ ← fits (if second ≤ length then n * (length / second) else total % second + n * length)
  some (total + n * length)

/-- The span with one number and its unit added, and the rest. -/
def addItem? (total : Nat) (s : List Char) : Option (Nat × List Char) := do
  let n ← fits (Decimal.value ((s.takeWhile isNumeral).filter Char.isDigit))
  let s := s.dropWhile isNumeral
  let (fraction, s) := match s with
    | '.' :: r => (some ((r.takeWhile isNumeral).filter Char.isDigit), r.dropWhile isNumeral)
    | _ => (none, s)
  let name := String.ofList (s.takeWhile isUnitLetter)
  let u ← unitTable.find? fun u => u.names.contains name
  let total ← addWhole total u n
  let b ← match fraction with
    | some d => part u d
    | none => some 0
  some (total + b, s.dropWhile isUnitLetter)

/-- Numbers with their units up to the end, added up one after the other. No sum reaches the range of
sixty-four bits in seconds. -/
def items? (total : Nat) (s : List Char) : Option Nat :=
  match Text.trimStart s with
  | [] => some total
  | c :: r =>
    if !c.isDigit then none
    else match addItem? total (c :: r) with
      | none => none
      | some (sum, rest) => if sum < word * second ∧ rest.length < s.length then items? sum rest else none
termination_by s.length

def read? (s : String) : Option Nat :=
  if s = "0" then some 0
  else if Text.trimStart s.toList = [] then none
  else items? 0 s.toList

end Rollcall.Span
