/-! Hexadecimal digits, written in lower case unless said otherwise. -/

namespace Rollcall.Hex

def lowerDigit (n : Nat) : Char := Nat.digitChar n

def upperDigit (n : Nat) : Char := (Nat.digitChar n).toUpper

def digit? (c : Char) : Option Nat :=
  if '0' ≤ c ∧ c ≤ '9' then some (c.toNat - 48)
  else if 'a' ≤ c ∧ c ≤ 'f' then some (c.toNat - 87)
  else if 'A' ≤ c ∧ c ≤ 'F' then some (c.toNat - 55)
  else none

def encode (b : List UInt8) : String :=
  b.foldl (fun s x => (s.push (lowerDigit (x.toNat / 16))).push (lowerDigit (x.toNat % 16))) ""

/-- A number in exactly `w` digits, for numbers that fit. -/
def padded (w n : Nat) : List Char :=
  let d := Nat.toDigits 16 n
  List.replicate (w - d.length) '0' ++ d

/-- The number that the digits write. -/
def value? (s : List Char) : Option Nat :=
  s.foldlM (fun n c => (digit? c).map (16 * n + ·)) 0

end Rollcall.Hex
