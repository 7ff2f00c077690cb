import Rollcall.Time.Calendar

/-! Instants in coordinated universal time, to the nanosecond, over a bounded range of years. A second may be
followed by a leap second: it is counted with the second before it, with a billion nanoseconds and more. Clocks show
it as second 60 behind the last second of a minute. An instant can have one behind any other second too, although
no text and no count of seconds tells of one there; clocks show it as the second that comes next. Instants are
ordered as they follow each other in time. -/

namespace Rollcall

def billion : Nat := 1000000000

def secondsPerDay : Int := 86400

structure Instant where
  /-- Whole seconds since 1970-01-01T00:00:00Z, leap seconds left out. -/
  seconds : Int
  nanos : Nat
  inRange : -8334601228800 ≤ seconds ∧ seconds ≤ 8210266876799
  nanosInRange : nanos < 2 * billion
  deriving DecidableEq

namespace Instant

theorem zero_nanosInRange : 0 < 2 * billion := by decide

def ofParts? (seconds : Int) (nanos : Nat) : Option Instant :=
  if h : (-8334601228800 ≤ seconds ∧ seconds ≤ 8210266876799) ∧ nanos < 2 * billion then
    some ⟨seconds, nanos, h.1, h.2⟩
  else none

/-- The instant so many seconds after the epoch. A leap second is taken behind the last second of a minute
only. -/
def ofUnix? (seconds : Int) (nanos : Nat) : Option Instant :=
  if nanos < billion ∨ seconds % 60 = 59 then ofParts? seconds nanos else none

def epoch : Instant := ⟨0, 0, by decide, zero_nanosInRange⟩

instance : Inhabited Instant := ⟨epoch⟩

/-- The order of time. -/
def before (a b : Instant) : Bool :=
  a.seconds < b.seconds || (a.seconds = b.seconds && a.nanos < b.nanos)

instance : LT Instant := ⟨fun a b => a.before b = true⟩
instance : LE Instant := ⟨fun a b => b.before a = false⟩
instance (a b : Instant) : Decidable (a < b) := inferInstanceAs (Decidable (a.before b = true))
instance (a b : Instant) : Decidable (a ≤ b) := inferInstanceAs (Decidable (b.before a = false))

def isLeap (t : Instant) : Bool := billion ≤ t.nanos

/-- Days since 1970-01-01. -/
def day (t : Instant) : Int := t.seconds / secondsPerDay

def secondOfDay (t : Instant) : Nat := (t.seconds % secondsPerDay).toNat

def date (t : Instant) : Date := Date.ofDay t.day

/-- Cut down to the whole second. A leap second stays one. -/
def wholeSecond (t : Instant) : Instant :=
  ⟨t.seconds, if t.isLeap then billion else 0, t.inRange, by split <;> decide⟩

/-- Nanoseconds from `b` to `a`. A leap second on the way counts, one outside does not. -/
def sub (a b : Instant) : Int :=
  let s := a.secondOfDay
  let r := b.secondOfDay
  let passed : Int :=
    if r < s ∧ b.isLeap then 1 else if s < r ∧ a.isLeap then -1 else 0
  ((a.day - b.day) * secondsPerDay + (s - r) + passed) * billion + (a.nanos - b.nanos)

/-- The instant `d` nanoseconds later. A leap second is left by whole seconds, and by a fraction that
reaches past its end. -/
def add? (t : Instant) (d : Int) : Option Instant :=
  let whole := d.tdiv billion
  let part := d.tmod billion
  if t.isLeap ∧ whole = 0 ∧ t.nanos + part < 2 * billion then
    ofParts? t.seconds (t.nanos + part).toNat
  else
    let nanos : Int := if t.isLeap then t.nanos - billion else t.nanos
    let start := if t.isLeap ∧ whole < 0 then t.seconds + 1 else t.seconds
    ofParts? (start + whole + (nanos + part) / billion) ((nanos + part) % billion).toNat

/-- Nanoseconds since the epoch, for an instant outside leap seconds. -/
def unixNanos (t : Instant) : Int := t.seconds * billion + t.nanos

/-- `hh:mm:ss`, where a leap second is shown as one second more. -/
def writeClock (t : Instant) : List Char :=
  let s := t.secondOfDay
  Decimal.padded 2 (s / 3600) ++ ':' :: Decimal.padded 2 (s / 60 % 60) ++
    ':' :: Decimal.padded 2 (s % 60 + if t.isLeap then 1 else 0)

/-- A point and three, six or nine digits, the fewest that lose nothing; none for a whole second. -/
def writeFraction (t : Instant) : List Char :=
  let n := t.nanos % billion
  if n = 0 then []
  else if n % 1000000 = 0 then '.' :: Decimal.padded 3 (n / 1000000)
  else if n % 1000 = 0 then '.' :: Decimal.padded 6 (n / 1000)
  else '.' :: Decimal.padded 9 n

/-- The form with `T` and `Z`. -/
def write (t : Instant) : List Char :=
  t.date.write ++ 'T' :: t.writeClock ++ t.writeFraction ++ ['Z']

/-- The form with blanks and `UTC`, for messages. -/
def writeSpaced (t : Instant) : List Char :=
  t.date.write ++ ' ' :: t.writeClock ++ t.writeFraction ++ " UTC".toList

/-- Date and clock without a fraction and without a zone. -/
def writeLocal (t : Instant) : List Char :=
  t.date.write ++ 'T' :: t.writeClock

/-- The instant of a valid date and a time of day; second 60 is a leap second. -/
def ofClock? (d : Date) (hour minute second nanos : Nat) : Option Instant :=
  if d.Valid then
    let leap := second = 60
    ofUnix? (d.toDay * secondsPerDay + (3600 * hour + 60 * minute + if leap then 59 else second : Nat))
      (if leap then billion + nanos else nanos)
  else none

end Instant

end Rollcall
