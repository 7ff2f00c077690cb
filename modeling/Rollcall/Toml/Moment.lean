import Rollcall.Time.Calendar
import Rollcall.Toml.Parser

/-! Dates and times of day, with a zone or without. They are held as text, in the one form that each has:
a `T` between date and time, no zeros at the end of a fraction, and no minus before a zone of zero. -/

namespace Rollcall.Toml

open Toml.Parser

def digits (n : Nat) : Parser Nat := fun s =>
  let d := s.take n
  if d.length = n ∧ d.all Char.isDigit then some (Decimal.value d, s.drop n) else none

/-- Two digits for a number in a range. -/
def twoDigits (lo hi : Nat) : Parser (List Char) := do
  let n ← digits 2
  if lo ≤ n ∧ n ≤ hi then pure (Decimal.padded 2 n) else failure

def fullDate : Parser (List Char) := do
  let y ← digits 4
  char '-'
  let m ← digits 2
  char '-'
  let d ← digits 2
  if (Date.mk y m d).Valid then pure (Date.mk y m d).write else failure

/-- No digit after the ninth counts. -/
def secondFraction : Parser (List Char) := do
  char '.'
  let d ← runOne Char.isDigit
  let d := ((d.take 9).reverse.dropWhile (· = '0')).reverse
  return if d = [] then [] else '.' :: d

def clock (lastHour : Nat) : Parser (List Char) := do
  let h ← twoDigits 0 lastHour
  char ':'
  let m ← twoDigits 0 59
  char ':'
  let s ← twoDigits 0 60
  let f ← option secondFraction
  return h ++ ':' :: m ++ ':' :: s ++ f.getD []

def zone : Parser (List Char) :=
  (do let _ ← satisfy fun c => c = 'Z' || c = 'z'; return ['Z']) <|> do
    let c ← satisfy fun c => c = '+' || c = '-'
    let h ← twoDigits 0 23
    char ':'
    let m ← twoDigits 0 59
    return (if h ++ m = ['0', '0', '0', '0'] then '+' else c) :: h ++ ':' :: m

def isTimeMark (c : Char) : Bool := c = 'T' || c = 't' || c = ' '

def dateAndTime (lastHour : Nat) (zone : Parser (List Char)) : Parser (List Char) := do
  let d ← fullDate
  let t ← option do
    let _ ← satisfy isTimeMark
    let c ← clock lastHour
    let z ← option zone
    return 'T' :: c ++ z.getD []
  return d ++ t.getD []

def moment : Parser String := do
  let s ← dateAndTime 23 zone <|> clock 23
  return String.ofList s

/-- A zone with any count of minutes up to the length of a day. -/
def wideZone : Parser (List Char) :=
  (do let _ ← satisfy fun c => c = 'Z' || c = 'z'; return ['Z']) <|> do
    let c ← satisfy fun c => c = '+' || c = '-'
    let h ← digits 2
    char ':'
    let n := 60 * h + (← digits 2)
    if 1440 < n then failure
    return (if n = 0 then '+' else c) :: Decimal.padded 2 (n / 60) ++ ':' :: Decimal.padded 2 (n % 60)

/-- The moment that a text in quotes stands for, of which less is asked than of one without them. -/
def momentOfText? (s : String) : Option String := do
  let (m, rest) ← (dateAndTime 24 wideZone <|> clock 24) s.toList
  if rest = [] then some (String.ofList m) else none

end Rollcall.Toml
