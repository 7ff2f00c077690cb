/-! The SHA3-256 digest. A state of twenty-five lanes takes in the message a block of seventeen lanes at a
time and is stirred by twenty-four rounds after each; the digest is its first four lanes. -/

namespace Rollcall.Digest

/-- The lane at column `x` and row `y` has index `x + 5 * y`. -/
abbrev Lanes := Vector UInt64 25

def rotate (w : UInt64) (n : UInt64) : UInt64 :=
  if n = 0 then w else (w <<< n) ||| (w >>> (64 - n))

/-- How far each lane is rotated. -/
def offsets : Vector UInt64 25 :=
  #v[0, 1, 62, 28, 27, 36, 44, 6, 55, 20, 3, 10, 43, 25, 39, 41, 45, 15, 21, 8, 18, 2, 61, 56, 14]

/-- What each round adds to the first lane. -/
def roundConstants : List UInt64 :=
  [0x0000000000000001, 0x0000000000008082, 0x800000000000808a, 0x8000000080008000,
    0x000000000000808b, 0x0000000080000001, 0x8000000080008081, 0x8000000000008009,
    0x000000000000008a, 0x0000000000000088, 0x0000000080008009, 0x000000008000000a,
    0x000000008000808b, 0x800000000000008b, 0x8000000000008089, 0x8000000000008003,
    0x8000000000008002, 0x8000000000000080, 0x000000000000800a, 0x800000008000000a,
    0x8000000080008081, 0x8000000000008080, 0x0000000080000001, 0x8000000080008008]

def lane (a : Lanes) (x y : Nat) : UInt64 := a.get ⟨x % 5 + 5 * (y % 5), by omega⟩

def column (a : Lanes) (x : Nat) : UInt64 :=
  lane a x 0 ^^^ lane a x 1 ^^^ lane a x 2 ^^^ lane a x 3 ^^^ lane a x 4

/-- Adds to each lane the column before it and the rotated column after it. -/
def mixColumns (a : Lanes) : Lanes :=
  let c : Vector UInt64 5 := .ofFn fun x => column a x
  let d : Vector UInt64 5 := .ofFn fun x =>
    c.get ⟨(x.val + 4) % 5, by omega⟩ ^^^ rotate (c.get ⟨(x.val + 1) % 5, by omega⟩) 1
  .ofFn fun i => a[i] ^^^ d.get ⟨i.val % 5, by omega⟩

/-- Rotates each lane and moves it to its new place. -/
def scatter (a : Lanes) : Lanes :=
  .ofFn fun i =>
    let x := (i.val % 5 + 3 * (i.val / 5)) % 5
    let y := i.val % 5
    rotate (lane a x y) (offsets.get ⟨x + 5 * y, by omega⟩)

/-- Adds to each lane the next one but one, where the next one has a zero. -/
def mixRows (a : Lanes) : Lanes :=
  .ofFn fun i =>
    a[i] ^^^ (~~~(lane a (i.val + 1) (i.val / 5)) &&& lane a (i.val % 5 + 2) (i.val / 5))

def stir (a : Lanes) : Lanes :=
  roundConstants.foldl (fun a k => let b := mixRows (scatter (mixColumns a)); b.set 0 (b[0] ^^^ k)) a

/-- Up to eight bytes as a lane, the least significant one first. -/
def laneOfBytes (b : List UInt8) : UInt64 := b.foldr (fun x w => w <<< 8 ||| x.toUInt64) 0

def bytesOfLane (w : UInt64) : List UInt8 :=
  (List.range 8).map fun i => (w >>> (8 * i).toUInt64).toUInt8

/-- The bytes in a block. -/
def rate : Nat := 136

def addBlock (a : Lanes) (block : List UInt8) : Lanes :=
  .ofFn fun i => a[i] ^^^ laneOfBytes ((block.drop (8 * i.val)).take 8)

/-- The message with its end marked and filled up to whole blocks. -/
def padded (m : List UInt8) : List UInt8 :=
  let free := rate - m.length % rate
  m ++ if free = 1 then [0x86] else 0x06 :: List.replicate (free - 2) 0 ++ [0x80]

def absorb (a : Lanes) (m : List UInt8) : Lanes :=
  if _ : m = [] then a else absorb (stir (addBlock a (m.take rate))) (m.drop rate)
termination_by m.length
decreasing_by
  have := List.length_pos_iff.2 ‹¬m = []›
  simp only [List.length_drop, rate]
  omega

def sha3 (m : List UInt8) : List UInt8 :=
  ((absorb (.replicate 25 0) (padded m)).toList.take 4).flatMap bytesOfLane

end Rollcall.Digest
