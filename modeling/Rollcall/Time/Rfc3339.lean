import Rollcall.Number.Power
import Rollcall.Time.Field

/-! Reading an RFC 3339 time in a relaxed form. White space may stand around the dashes of the date,
before the colons, numbers and zone, and at the end; a blank may stand for the `T`; the zone may be
`UTC` or carry a true minus sign. -/

namespace Rollcall.Time

/-- The fraction of a second in nanoseconds: at least one digit after the point, and none after the
ninth counts. -/
def fraction : Field Nat := do
  match ← get with
  | '.' :: r =>
    set r
    let n ← Field.number 9
    let used := r.length - (← get).length
    modify (·.dropWhile Char.isDigit)
    pure (n * tenTo (9 - used))
  | _ => pure 0

/-- The two digits of a zone's hours or minutes. -/
def twoDigits : Field Nat := fun
  | a :: b :: r =>
    if a.isDigit ∧ b.isDigit then .ok (Decimal.value [a, b], r) else .error .invalid
  | _ => .error .tooShort

def isColonOrBlank (c : Char) : Bool := c = ':' || Text.isBlank c

/-- Seconds east of Greenwich. -/
def zone : Field Int := do
  Field.skipBlanks
  let s ← get
  if Text.lower (s.take 3) = "utc".toList then
    set (s.drop 3)
    pure 0
  else match s with
    | [] => throw .tooShort
    | c :: r =>
      set r
      if c = 'Z' ∨ c = 'z' then pure 0
      else
        let sign : Int ← if c = '+' then pure 1
          else if c = '-' ∨ c = '\u2212' then pure (-1)
          else throw .invalid
        let hours ← twoDigits
        modify (·.dropWhile isColonOrBlank)
        let minutes ← twoDigits
        if hours < 24 ∧ minutes < 60 then pure (sign * (3600 * hours + 60 * minutes : Nat))
        else throw .outOfRange

def dateOrTimeMark : Field Unit := fun
  | [] => .error .tooShort
  | c :: r => if c = 'T' ∨ c = 't' ∨ c = ' ' then .ok ((), r) else .error .invalid

/-- An instant as its zone's clock shows it. -/
structure Zoned where
  date : Date
  hour : Nat
  minute : Nat
  second : Nat
  nanos : Nat
  east : Int

/-- The same instant in coordinated universal time, if its range holds both readings. -/
def Zoned.toInstant? (z : Zoned) : Option Instant := do
  let t ← Instant.ofClock? z.date z.hour z.minute z.second z.nanos
  Instant.ofParts? (t.seconds - z.east) t.nanos

def zoned : Field Zoned := do
  let y ← Field.year
  Field.skipBlanks
  Field.literal '-'
  let mo ← Field.month
  Field.skipBlanks
  Field.literal '-'
  let d ← Field.day
  dateOrTimeMark
  let h ← Field.hour
  Field.skipBlanks
  Field.literal ':'
  let mi ← Field.minute
  Field.skipBlanks
  Field.literal ':'
  let sec ← Field.second
  let nanos ← fraction
  let east ← zone
  pure ⟨⟨y, mo, d⟩, h, mi, sec, nanos, east⟩

def readRfc3339? (s : List Char) : Option Instant :=
  match zoned s with
  | .ok (z, rest) => if Text.trimStart rest = [] then z.toInstant? else none
  | .error _ => none

end Rollcall.Time
