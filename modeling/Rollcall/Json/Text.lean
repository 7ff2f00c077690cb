import Rollcall.Json.Reader
import Rollcall.Text.Hex

/-! Texts in JSON: how they are written, and how they are read back. A text is read as bytes first, so
that a fault in its escapes comes before one in its encoding. -/

namespace Rollcall.Json

/-- What an escape with one letter stands for. -/
def escaped? (c : UInt8) : Option UInt8 :=
  if c = 34 ∨ c = 92 ∨ c = 47 then some c
  else if c = 98 then some 8
  else if c = 102 then some 12
  else if c = 110 then some 10
  else if c = 114 then some 13
  else if c = 116 then some 9
  else none

namespace Reader

/-- The number of four hexadecimal digits. -/
def readHexFour : Input → Except Fault (Nat × Input)
  | a :: b :: c :: d :: r => match Hex.value? ([a, b, c, d].map fun x => Char.ofNat x.toNat) with
    | some n => .ok (n, r)
    | none => .error .malformed
  | _ => .error .truncated

theorem readHexFour_rest_le (s : Input) (n : Nat) (r : Input) (h : readHexFour s = .ok (n, r)) :
    r.length ≤ s.length := by
  revert h
  fun_cases readHexFour s <;> grind

def hexFour : Reader Nat := ⟨readHexFour, readHexFour_rest_le⟩

/-- The code point of an escape whose `u` has been read. One above the first plane is written as two
halves, the high one first; a half alone is no character. -/
def codePoint : Reader Nat := do
  let n ← hexFour
  if 0xDC00 ≤ n ∧ n ≤ 0xDFFF then fail .malformed
  else if n < 0xD800 ∨ 0xDBFF < n then pure n
  else
    expect 92
    expect 117
    let m ← hexFour
    if m < 0xDC00 ∨ 0xDFFF < m then fail .malformed
    else pure ((n - 0xD800) * 1024 + (m - 0xDC00) + 0x10000)

/-- What an escape stands for, in bytes. Its backslash has been read. -/
def escape : Reader ByteArray := do
  let c ← next
  if c = 117 then
    let n ← codePoint
    pure (String.singleton (Char.ofNat n)).toUTF8
  else match escaped? c with
    | some b => pure ⟨#[b]⟩
    | none => fail .malformed

end Reader

/-- The bytes of a text up to its closing quote, after those in `acc`. -/
def textBytes (acc : ByteArray) : Input → Except Fault (ByteArray × Input)
  | [] => .error .truncated
  | c :: r =>
    if c = 34 then .ok (acc, r)
    else if c < 32 then .error .malformed
    else if c ≠ 92 then textBytes (acc.push c) r
    else match h : Reader.escape.run r with
      | .error e => .error e
      | .ok (b, r') =>
        have := Reader.escape.rest_le _ _ _ h
        textBytes (acc ++ b) r'
termination_by s => s.length

theorem textBytes_rest_le (acc : ByteArray) (s : Input) :
    ∀ b r, textBytes acc s = .ok (b, r) → r.length ≤ s.length := by
  fun_induction textBytes acc s with grind

/-- A text whose opening quote has been read. -/
def Reader.textAfterQuote : Reader String where
  run s := match textBytes .empty s with
    | .error e => .error e
    | .ok (b, r) => match String.fromUTF8? b with
      | some t => .ok (t, r)
      | none => .error .malformed
  rest_le s a r h := by
    cases hb : textBytes .empty s with
    | error e => simp [hb] at h
    | ok p =>
      have := textBytes_rest_le _ _ _ _ hb
      grind

/-- Quotes, backslashes and control characters are escaped, the latter by their letter if they have
one; all else stands for itself. -/
def escapeChar (c : Char) : String :=
  if c = '"' then "\\\"" else if c = '\\' then "\\\\"
  else if c.toNat = 8 then "\\b" else if c.toNat = 9 then "\\t"
  else if c.toNat = 10 then "\\n" else if c.toNat = 12 then "\\f"
  else if c.toNat = 13 then "\\r"
  else if c.toNat < 32 then "\\u" ++ String.ofList (Hex.padded 4 c.toNat)
  else String.singleton c

def text (s : String) : String :=
  s.foldl (fun t c => t ++ escapeChar c) "\"" ++ "\""

/-- An object of written values, without blanks. -/
def object (members : List (String × String)) : String :=
  "\x7b" ++ ",".intercalate (members.map fun m => text m.1 ++ ":" ++ m.2) ++ "\x7d"

end Rollcall.Json
