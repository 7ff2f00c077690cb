import Rollcall.Number.Power
import Rollcall.Text.Blank
import Rollcall.Time.Instant

/-! The parts of a written date, read one after the other. Numbers may follow white space and take as
many digits as they can, up to their width; each is held against its own range at once, so the first
flaw in the text is the one reported. -/

namespace Rollcall.Time

inductive Flaw where
  | outOfRange | invalid | tooShort | trailing
  deriving DecidableEq, Repr

def Flaw.message : Flaw → String
  | .outOfRange => "input is out of range"
  | .invalid => "input contains invalid characters"
  | .tooShort => "premature end of input"
  | .trailing => "trailing input"

/-- A reader of one part, which leaves the rest of the text. -/
abbrev Field := StateT (List Char) (Except Flaw)

namespace Field

def skipBlanks : Field Unit := modify Text.trimStart

/-- One to `width` digits, a number of sixty-four bits with a sign. -/
def number (width : Nat) : Field Nat := fun s =>
  let d := (s.take width).takeWhile Char.isDigit
  if s = [] then .error .tooShort
  else if d = [] then .error .invalid
  else if twoTo 63 ≤ Decimal.value d then .error .outOfRange
  else .ok (Decimal.value d, s.drop d.length)

def literal (c : Char) : Field Unit
  | [] => .error .tooShort
  | x :: r => if x = c then .ok ((), r) else .error .invalid

/-- A number of at most two digits between `lo` and `hi`. -/
def within (lo hi : Nat) : Field Nat := do
  skipBlanks
  let n ← number 2
  if lo ≤ n ∧ n ≤ hi then pure n else throw .outOfRange

/-- Four digits, or a sign and any number of them. -/
def year : Field Int := do
  skipBlanks
  let y : Int ← match ← get with
    | '-' :: r => set r; (fun n => -(n : Int)) <$> number r.length
    | '+' :: r => set r; Int.ofNat <$> number r.length
    | _ => Int.ofNat <$> number 4
  if -twoTo 31 ≤ y ∧ y < twoTo 31 then pure y else throw .outOfRange

def month : Field Nat := within 1 12
def day : Field Nat := within 1 31
def hour : Field Nat := within 0 23
def minute : Field Nat := within 0 59

/-- Second 60 is a leap second. -/
def second : Field Nat := within 0 60

end Field

/-- Date and time of day with all their marks and nothing else, as in `2024-01-31T09:05:00Z`. -/
def readStamp (s : List Char) : Except Flaw Instant := do
  let ((d, h, mi, sec), rest) ← (do
    let y ← Field.year
    Field.literal '-'
    let mo ← Field.month
    Field.literal '-'
    let d ← Field.day
    Field.literal 'T'
    let h ← Field.hour
    Field.literal ':'
    let mi ← Field.minute
    Field.literal ':'
    let sec ← Field.second
    Field.literal 'Z'
    pure (Date.mk y mo d, h, mi, sec) : Field _) s
  if rest ≠ [] then throw .trailing
  match Instant.ofClock? d h mi sec 0 with
  | some t => pure t
  | none => throw .outOfRange

/-- What `readStamp` reads back. -/
def writeStamp (t : Instant) : List Char := t.writeLocal ++ ['Z']

end Rollcall.Time
