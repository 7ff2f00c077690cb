import Rollcall.Number.Fixed
import Rollcall.Number.Power
import Rollcall.Text.Blank

/-! Floating-point numbers from and to decimal text without a fixed count of places. What is written is the
shortest text that reads back as the same number, of those the nearest to it, and of two that are equally near
the one farther from zero. -/

namespace Rollcall.Binary64

/-- Beyond this power of ten every number is too large or too small for the format. -/
def decimalReach : Int := 400

/-- The number nearest to `digits * 10 ^ exponent`. -/
def ofDecimal (negative : Bool) (digits : List Char) (exponent : Int) : Binary64 :=
  let n := Decimal.value digits
  let size : Int := (Decimal.digits n).length + exponent
  if n = 0 || size < -decimalReach then .finite negative 0 leastExponent
  else if decimalReach < size then .infinite negative
  else if 0 ≤ exponent then ofRatio negative (n * tenTo exponent.toNat) 1
  else ofRatio negative n (tenTo (-exponent).toNat)

/-- The exponent behind an `e`, which may have a sign. -/
def exponent? : List Char → Option Int
  | '-' :: r => (Decimal.nat? r).map fun n => -(n : Int)
  | '+' :: r => (Decimal.nat? r).map Int.ofNat
  | r => (Decimal.nat? r).map Int.ofNat

def isExponentMark (c : Char) : Bool := c = 'e' || c = 'E'

/-- Digits with a point among them or at an end, and an exponent behind them. -/
def readMagnitude? (negative : Bool) (s : List Char) : Option Binary64 := do
  let whole := s.takeWhile Char.isDigit
  let s := s.drop whole.length
  let (part, s) := match s with
    | '.' :: r => (r.takeWhile Char.isDigit, r.dropWhile Char.isDigit)
    | _ => ([], s)
  if whole = [] ∧ part = [] then none
  let e ← match s with
    | [] => some 0
    | c :: r => if isExponentMark c then exponent? r else none
  some (ofDecimal negative (whole ++ part) (e - part.length))

/-- The bits of a number that is none. -/
def nanBits (negative : Bool) : UInt64 := if negative then 0xfff8000000000000 else 0x7ff8000000000000

/-- A number with an optional sign, or the name of one that is not finite. -/
def read? (s : List Char) : Option Binary64 :=
  let (negative, r) := match s with
    | '-' :: r => (true, r)
    | '+' :: r => (false, r)
    | r => (false, r)
  let name := String.ofList (Text.lower r)
  if name = "inf" ∨ name = "infinity" then some (.infinite negative)
  else if name = "nan" then some (.nan (nanBits negative))
  else readMagnitude? negative r

/-- The power of ten of the first digit of `n / d`. -/
def magnitude (n d : Nat) : Int :=
  let k : Int := ((Decimal.digits n).length : Int) - (Decimal.digits d).length
  let isBelow : Bool := if 0 ≤ k then n < d * tenTo k.toNat else n * tenTo (-k).toNat < d
  if isBelow then k - 1 else k

/-- Multiplies the fraction `n / d` by a power of ten. -/
def shiftTen (n d : Nat) (e : Int) : Nat × Nat :=
  if 0 ≤ e then (n * tenTo e.toNat, d) else (n, d * tenTo (-e).toNat)

/-- Four times the fraction that a number is, and how far the numbers that round to it reach down and
up from there. -/
def neighbourhood (m : Nat) (e : Int) : Nat × Nat × Nat :=
  (4 * m, if m = twoTo 52 ∧ leastExponent < e then 1 else 2, 2)

/-- A power of ten with one digit less. -/
def withoutCarry (count c : Nat) (power : Int) : Nat × Int :=
  if c = tenTo count then (c / 10, power + 1) else (c, power)

/-- The number of `count` digits that is nearest to a number, and its power of ten, if it reads back. -/
def candidate? (m : Nat) (e : Int) (count : Nat) : Option (Nat × Int) :=
  let (v, down, up) := neighbourhood m e
  let (n, d) := fraction v (e - 2)
  let (a, _) := fraction (v - down) (e - 2)
  let (b, _) := fraction (v + up) (e - 2)
  let power := magnitude n d - (count - 1 : Nat)
  let (n, d₁) := shiftTen n d (-power)
  let (a, _) := shiftTen a d (-power)
  let (b, _) := shiftTen b d (-power)
  let fits (c : Nat) : Bool := if m % 2 = 0 then a ≤ c * d₁ && c * d₁ ≤ b else a < c * d₁ && c * d₁ < b
  let c := n / d₁
  match fits c, fits (c + 1) with
  | true, true => some (withoutCarry count (if 2 * (n % d₁) < d₁ then c else c + 1) power)
  | true, false => some (c, power)
  | false, true => some (withoutCarry count (c + 1) power)
  | false, false => none

/-- Digits times a power of ten, without an exponent. -/
def writePositional (c : Nat) (power : Int) : List Char :=
  let d := Decimal.digits c
  if 0 ≤ power then d ++ List.replicate power.toNat '0'
  else
    let places := (-power).toNat
    let d := List.replicate (places + 1 - d.length) '0' ++ d
    d.take (d.length - places) ++ '.' :: d.drop (d.length - places)

/-- The shortest text that reads back. -/
def writeShortest : Binary64 → String
  | .nan _ => "NaN"
  | .infinite s => sign s ++ "inf"
  | .finite s m e =>
    if m = 0 then sign s ++ "0"
    else match (List.range 17).findSome? fun k => candidate? m e (k + 1) with
      | some (c, power) => sign s ++ String.ofList (writePositional c power)
      | none => sign s ++ String.ofList (Decimal.digits (scaleEven m 1 e))

/-- The nearest whole number, halves away from zero, for a number that is finite. -/
def roundAway (m : Nat) (e : Int) : Nat :=
  let (n, d) := fraction m e
  (2 * n + d) / (2 * d)

end Rollcall.Binary64
