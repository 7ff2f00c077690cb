import Rollcall.Number.Power

/-! Numbers in the binary floating-point format of sixty-four bits, as exact fractions: a finite one is
a whole number times a power of two. Every operation rounds its exact result once, to the nearest number
of the format and between two of them to the even one. -/

namespace Rollcall

/-- The quotient of two numbers rounded to the nearest whole number, halves to the even one. -/
def divEven (n d : Nat) : Nat :=
  let q := n / d
  let r := n % d
  if 2 * r < d then q else if d < 2 * r then q + 1 else q + q % 2

/-- A number times a power of two, rounded to a whole number. -/
def scaleEven (n d : Nat) (e : Int) : Nat :=
  if 0 ≤ e then divEven (n * twoTo e.toNat) d else divEven n (d * twoTo (-e).toNat)

inductive Binary64 where
  | nan (bits : UInt64)
  | infinite (negative : Bool)
  | finite (negative : Bool) (mantissa : Nat) (exponent : Int)
  deriving DecidableEq

namespace Binary64

/-- The exponent of the smallest numbers. -/
def leastExponent : Int := -1074

def greatestExponent : Int := 971

/-- A mantissa is below this. -/
def mantissaBound : Nat := twoTo 53

def zero : Binary64 := .finite false 0 leastExponent

/-- The number nearest to `n / d`, for a positive `d`. -/
def ofRatio (negative : Bool) (n d : Nat) : Binary64 :=
  if n = 0 then .finite negative 0 leastExponent
  else
    let k : Int := (n.log2 : Int) - d.log2
    let isBelow : Bool := if 0 ≤ k then n < d * twoTo k.toNat else n * twoTo (-k).toNat < d
    let e := max leastExponent (if isBelow then k - 53 else k - 52)
    let m := scaleEven n d (-e)
    let (m, e) := if m = mantissaBound then (twoTo 52, e + 1) else (m, e)
    if greatestExponent < e then .infinite negative else .finite negative m e

def ofNat (n : Nat) : Binary64 := ofRatio false n 1

def ofBits (b : UInt64) : Binary64 :=
  let negative := b >>> 63 = 1
  let e := ((b >>> 52) &&& 0x7ff).toNat
  let f := (b &&& 0xfffffffffffff).toNat
  if e = 0x7ff then if f = 0 then .infinite negative else .nan b
  else if e = 0 then .finite negative f leastExponent
  else .finite negative (f + twoTo 52) (e - 1075 : Int)

def signBit (negative : Bool) : Nat := if negative then twoTo 63 else 0

def toBits : Binary64 → Nat
  | .nan b => b.toNat
  | .infinite s => signBit s + 0x7ff * twoTo 52
  | .finite s m e =>
    signBit s + if m < twoTo 52 then m else (e + 1075).toNat * twoTo 52 + (m - twoTo 52)

/-- The two terms of the exact fraction that a finite number is, without its sign. -/
def fraction (m : Nat) (e : Int) : Nat × Nat :=
  if 0 ≤ e then (m * twoTo e.toNat, 1) else (m, twoTo (-e).toNat)

/-- The lesser of two numbers that are not negative. -/
def least (a b : Binary64) : Binary64 := if a.toBits ≤ b.toBits then a else b

/-- The product of finite numbers that are not negative. -/
def times : Binary64 → Binary64 → Binary64
  | .finite s m e, .finite _ k f =>
    let (n, d) := fraction m e
    let (n₁, d₁) := fraction k f
    ofRatio s (n * n₁) (d * d₁)
  | x, _ => x

/-- The quotient of finite numbers that are not negative. -/
def dividedBy : Binary64 → Binary64 → Binary64
  | .finite s m e, .finite _ k f =>
    let (n, d) := fraction m e
    let (n₁, d₁) := fraction k f
    ofRatio s (n * d₁) (d * n₁)
  | x, _ => x

end Binary64

end Rollcall
