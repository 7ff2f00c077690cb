import Rollcall.Text.Decimal

/-! Spans of time written with units, the largest first: a mean year, a twelfth of it, and what clocks
count. Parts that are zero are left out. -/

namespace Rollcall.Span

def second : Nat := 1000000000
def minute : Nat := 60 * second
def hour : Nat := 60 * minute
def day : Nat := 24 * hour
def year : Nat := 31557600 * second
def month : Nat := 2630016 * second

/-- Units with their lengths in nanoseconds; those that are words have a plural. -/
def units : List (Nat × String × Bool) :=
  [(year, "year", true), (month, "month", true), (day, "day", true), (hour, "h", false),
    (minute, "m", false), (second, "s", false), (1000000, "ms", false), (1000, "us", false),
    (1, "ns", false)]

/-- The parts of a span in the given units. -/
def parts : Nat → List (Nat × String × Bool) → List String
  | _, [] => []
  | d, (u, name, isWord) :: r =>
    let n := d / u
    let rest := parts (d % u) r
    if n = 0 then rest
    else (Decimal.nat n ++ name ++ if isWord && 1 < n then "s" else "") :: rest

def write (d : Nat) : String := if d = 0 then "0s" else " ".intercalate (parts d units)

end Rollcall.Span
