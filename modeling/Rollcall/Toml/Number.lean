import Rollcall.Number.DecimalText
import Rollcall.Text.Hex
import Rollcall.Toml.Parser

/-! Numbers. A single underscore may stand between two digits. Whole numbers fit sixty-four bits, and a
number with a point or an exponent that is too large for a floating-point one is refused unless it is
negative. -/

namespace Rollcall.Toml

open Toml.Parser

/-- Digits with single underscores between them, which are left out. -/
def digitRun (isDigit : Char → Bool) : Parser (List Char) := do
  let d ← satisfy isDigit
  let r ← many (satisfy isDigit <|> (char '_' *> satisfy isDigit))
  return d :: r

def sign : Parser (List Char) := fun
  | '+' :: r => some ([], r)
  | '-' :: r => some (['-'], r)
  | r => some ([], r)

/-- Zero, or digits that do not begin with it. -/
def leadingDigits : Parser (List Char) := do
  match ← peek with
  | some '0' => do char '0'; pure ['0']
  | _ => digitRun Char.isDigit

def fractionPart : Parser (List Char) := do
  char '.'
  return '.' :: (← digitRun Char.isDigit)

def exponentPart : Parser (List Char) := do
  let _ ← satisfy Binary64.isExponentMark
  let s ← sign
  return 'e' :: s ++ (← digitRun Char.isDigit)

def finiteFloat : Parser Binary64 := do
  let s ← sign
  let d ← leadingDigits
  let t ← (do
    let f ← fractionPart
    return f ++ (← option exponentPart).getD []) <|> exponentPart
  match Binary64.read? (s ++ d ++ t) with
  | some x => if x = .infinite false then failure else pure x
  | none => failure

def namedFloat : Parser Binary64 := do
  let s ← sign
  (do word "inf"; pure (.infinite (s ≠ []))) <|> (do word "nan"; pure (.nan (Binary64.nanBits (s ≠ []))))

def float : Parser Binary64 := finiteFloat <|> namedFloat

def isOctal (c : Char) : Bool := '0' ≤ c && c ≤ '7'
def isBinary (c : Char) : Bool := c = '0' || c = '1'

/-- A whole number in digits of another base. -/
def based (mark : String) (base : Nat) (isDigit : Char → Bool) : Parser Int := do
  word mark
  let d ← digitRun isDigit
  return (d.foldl (fun n c => base * n + (Hex.digit? c).getD 0) 0 : Nat)

def decimal : Parser Int := do
  let s ← sign
  let d ← leadingDigits
  let n : Int := Decimal.value d
  return if s = [] then n else -n

def integer : Parser Int := do
  let n ← based "0x" 16 (fun c => (Hex.digit? c).isSome) <|> based "0o" 8 isOctal <|>
    based "0b" 2 isBinary <|> decimal
  if Decimal.fitsSigned n then pure n else failure

end Rollcall.Toml
