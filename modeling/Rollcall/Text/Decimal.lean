import Rollcall.Number.Power

/-! Whole numbers in decimal digits. A written number has no leading zeros beyond the width asked
for; a read one is a sign and digits within sixty-four bits, or nothing. -/

namespace Rollcall.Decimal

def digits (n : Nat) : List Char := Nat.toDigits 10 n

/-- At least `w` digits, with zeros in front. -/
def padded (w n : Nat) : List Char :=
  let d := digits n
  List.replicate (w - d.length) '0' ++ d

def digitValue (c : Char) : Nat := c.toNat - '0'.toNat

def value (s : List Char) : Nat := s.foldl (fun n c => 10 * n + digitValue c) 0

def nat (n : Nat) : String := String.ofList (digits n)

def int (n : Int) : String := if n < 0 then "-" ++ nat n.natAbs else nat n.toNat

def nat? (s : List Char) : Option Nat :=
  if s.isEmpty || !s.all Char.isDigit then none else some (value s)

/-- The bounds of a signed number of sixty-four bits. -/
def fitsSigned (n : Int) : Bool := -twoTo 63 ≤ n && n < twoTo 63

/-- A signed number of sixty-four bits with an optional sign. -/
def signed? (s : List Char) : Option Int := do
  let n ← match s with
    | '-' :: r => (nat? r).map fun n => -(n : Int)
    | '+' :: r => (nat? r).map Int.ofNat
    | r => (nat? r).map Int.ofNat
  if fitsSigned n then some n else none

end Rollcall.Decimal
