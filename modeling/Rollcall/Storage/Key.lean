import Rollcall.Text.Split
import Rollcall.Text.Hex

/-! The keys of an object store. A path becomes a key part by part: empty parts are dropped, and what a
store might take amiss is written as a percent sign and two hexadecimal digits. -/

namespace Rollcall.Key

/-- Characters that stand for something else in a key or a pattern. -/
def reserved : List Char :=
  ['\\', '\x7b', '^', '\x7d', '%', '\x60', ']', '"', '>', '[', '~', '<', '#', '|', '*', '?']

def isPlain (b : UInt8) : Bool :=
  32 ≤ b && b < 127 && !reserved.contains (Char.ofNat b.toNat)

def encodeByte (b : UInt8) : List Char :=
  if isPlain b then [Char.ofNat b.toNat]
  else ['%', Hex.upperDigit (b.toNat / 16), Hex.upperDigit (b.toNat % 16)]

/-- One part of a key. The names for a directory itself and for the one above it are no parts. -/
def encodePart (p : List Char) : List Char :=
  if p = ['.'] then "%2E".toList
  else if p = ['.', '.'] then "%2E%2E".toList
  else (String.ofList p).toUTF8.data.toList.flatMap encodeByte

/-- The parts of the key of a path. -/
def parts (path : String) : List (List Char) :=
  ((Text.splitOn '/' path.toList).filter (· ≠ [])).map encodePart

def ofPath (path : String) : String := String.ofList (Text.joinWith ['/'] (parts path))

/-- A path below a prefix, which may be empty. -/
def under (pre path : String) : String :=
  if pre = "" then ofPath path else ofPath (pre ++ "/" ++ path)

/-- The key stands below the other one, by whole parts. All keys but the empty one stand below that. -/
def isBelow (above key : String) : Bool :=
  if above = "" then key ≠ "" else Text.startsWith (above ++ "/").toList key.toList

end Rollcall.Key
