/-! Base64 with the standard alphabet. Reading is strict: groups of four characters, the last one
padded, no unused bit set, nothing else in between. So every text that reads is the written form of
what it reads as. -/

namespace Rollcall.Base64

/-- The character for six bits. -/
def digit (n : Nat) : Char :=
  if n < 26 then Char.ofNat (65 + n)
  else if n < 52 then Char.ofNat (97 + (n - 26))
  else if n < 62 then Char.ofNat (48 + (n - 52))
  else if n = 62 then '+' else '/'

def digit? (c : Char) : Option Nat :=
  if 'A' ≤ c ∧ c ≤ 'Z' then some (c.toNat - 65)
  else if 'a' ≤ c ∧ c ≤ 'z' then some (c.toNat - 97 + 26)
  else if '0' ≤ c ∧ c ≤ '9' then some (c.toNat - 48 + 52)
  else if c = '+' then some 62
  else if c = '/' then some 63
  else none

/-- Appends the written form of the bytes. -/
def write (acc : String) : List UInt8 → String
  | [] => acc
  | [a] =>
    let n := a.toNat
    acc.push (digit (n / 4)) |>.push (digit (n % 4 * 16)) |>.push '=' |>.push '='
  | [a, b] =>
    let n := a.toNat * 256 + b.toNat
    acc.push (digit (n / 1024)) |>.push (digit (n / 16 % 64)) |>.push (digit (n % 16 * 4)) |>.push '='
  | a :: b :: c :: r =>
    let n := (a.toNat * 256 + b.toNat) * 256 + c.toNat
    write (acc.push (digit (n / 262144)) |>.push (digit (n / 4096 % 64))
      |>.push (digit (n / 64 % 64)) |>.push (digit (n % 64))) r

def encode (b : ByteArray) : String := write "" b.data.toList

/-- The bytes of one group. -/
def group? (a b c d : Char) : Option (List UInt8) := do
  let x ← digit? a
  let y ← digit? b
  if c = '=' then
    if d = '=' ∧ y % 16 = 0 then some [(x * 4 + y / 16).toUInt8] else none
  else
    let z ← digit? c
    if d = '=' then
      if z % 4 = 0 then some [(x * 4 + y / 16).toUInt8, (y % 16 * 16 + z / 4).toUInt8] else none
    else
      let w ← digit? d
      some [(x * 4 + y / 16).toUInt8, (y % 16 * 16 + z / 4).toUInt8, (z % 4 * 64 + w).toUInt8]

/-- Appends the bytes of the groups; only the last one may be padded. -/
def read (acc : ByteArray) : List Char → Option ByteArray
  | [] => some acc
  | a :: b :: c :: d :: r =>
    match group? a b c d with
    | none => none
    | some g =>
      if g.length < 3 ∧ r ≠ [] then none
      else read (g.foldl (fun t x => t.push x) acc) r
  | _ => none

def decode? (s : String) : Option ByteArray := read .empty s.toList

end Rollcall.Base64
