import Rollcall.Number.Power
import Rollcall.Time.Instant

/-! The window of time that is looked at, from its start up to but not including its end. Bounds that are
not given are found from the others, from a default length, and from the last midnight or noon. -/

namespace Rollcall

structure Period where
  start : Instant
  stop : Instant
  /-- Nanoseconds from the start to the end. -/
  interval : Int
  deriving DecidableEq

inductive PeriodError where
  | mismatch (start stop : Instant) (minutes : Int)
  | nonPositive (minutes : Int)
  | outOfRange
  deriving DecidableEq

def PeriodError.message : PeriodError → String
  | .mismatch a b m =>
    "Period start (" ++ String.ofList a.writeSpaced ++ ") and end (" ++ String.ofList b.writeSpaced ++
      ") do not match the interval of " ++ Decimal.int m ++ " minutes"
  | .nonPositive m => "Period interval must be positive, got " ++ Decimal.int m ++ " minutes"
  | .outOfRange => "Period bounds are out of range"

namespace Period

def nanosPerMinute : Int := 60 * billion
def nanosPerHour : Int := 60 * nanosPerMinute

/-- Twelve hours. -/
def defaultInterval : Int := 12 * nanosPerHour

/-- No longer interval can be told in milliseconds of sixty-four bits. -/
def mostMinutes : Int := (twoTo 63 - 1) / 60000

def contains (p : Period) (t : Instant) : Bool := p.start ≤ t && t < p.stop

/-- Whole hours, cut towards zero. -/
def hours (p : Period) : Int := p.interval.tdiv nanosPerHour

/-- The last day, counted from 1970-01-01, of which a part lies before the instant. -/
def lastDayBefore (t : Instant) : Int :=
  if t.secondOfDay = 0 && t.nanos = 0 then t.day - 1 else t.day

/-- The days from the day of the start to the last one of which a part lies before the end. -/
def days (p : Period) : List Int :=
  (List.range (lastDayBefore p.stop + 1 - p.start.day).toNat).map fun (i : Nat) => p.start.day + i

/-- The last midnight or noon, or the instant itself where its nanoseconds cannot be counted in
sixty-four bits. -/
def defaultStop (now : Instant) : Instant :=
  if Decimal.fitsSigned now.unixNanos then
    (now.add? (-(now.unixNanos % defaultInterval))).getD now
  else now

def shift (t : Instant) (d : Int) : Except PeriodError Instant :=
  match t.add? d with
  | some t => .ok t
  | none => .error .outOfRange

/-- The length asked for in nanoseconds. -/
def readInterval : Option Int → Except PeriodError (Option Int)
  | none => .ok none
  | some m =>
    if m ≤ 0 then .error (.nonPositive m)
    else if mostMinutes < m then .error .outOfRange
    else .ok (some (m * nanosPerMinute))

def fromStart (start : Instant) (interval : Int) : Except PeriodError Period := do
  return ⟨start, ← shift start interval, interval⟩

def upTo (stop : Instant) (interval : Int) : Except PeriodError Period := do
  return ⟨← shift stop (-interval), stop, interval⟩

def resolve (start stop : Option Instant) (minutes : Option Int) (now : Instant) :
    Except PeriodError Period := do
  let interval ← readInterval minutes
  match start, stop with
  | some a, some b =>
    match minutes, interval with
    | some m, some d => if b.sub a = d then pure ⟨a, b, d⟩ else throw (.mismatch a b m)
    | _, _ => pure ⟨a, b, b.sub a⟩
  | some a, none => fromStart a (interval.getD defaultInterval)
  | none, some b => upTo b (interval.getD defaultInterval)
  | none, none => upTo (defaultStop now) (interval.getD defaultInterval)

end Period

end Rollcall
