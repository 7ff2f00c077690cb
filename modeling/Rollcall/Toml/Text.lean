import Rollcall.Text.Hex
import Rollcall.Toml.Parser

/-! Quoted texts: on one line or on several, with escapes or without. A line end right behind three opening
quotes does not count, and all line ends are read as line feeds. Up to two quotes may stand before
three closing ones. -/

namespace Rollcall.Toml

open Toml.Parser

/-- The character of a number, unless the number is none of a character. -/
def scalar? (n : Nat) : Option Char := if n.isValidChar then some (.ofNat n) else none

/-- That many hexadecimal digits as a character. -/
def codePoint (digits : Nat) : Parser Char := fun s => do
  let d := s.take digits
  if d.length < digits then none
  let n ← Hex.value? d
  let c ← scalar? n
  some (c, s.drop digits)

/-- What may follow a backslash. -/
def escaped : Parser Char := do
  match ← satisfy fun _ => true with
  | 'b' => pure '\x08'
  | 't' => pure '\t'
  | 'n' => pure '\n'
  | 'f' => pure '\x0c'
  | 'r' => pure '\r'
  | '"' => pure '"'
  | '\\' => pure '\\'
  | 'u' => codePoint 4
  | 'U' => codePoint 8
  | _ => failure

def isBasic (c : Char) : Bool := isPrintable c && c ≠ '"' && c ≠ '\\'

def isLiteral (c : Char) : Bool := isPrintable c && c ≠ '\''

def escape : Parser Char := char '\\' *> escaped

def basicText : Parser (List Char) := do
  char '"'
  let s ← many (satisfy isBasic <|> escape)
  char '"'
  return s

def literalText : Parser (List Char) := do
  char '\''
  let s ← run isLiteral
  char '\''
  return s

/-- A backslash at the end of a line takes away what is blank up to the next character. -/
def continuation : Parser Unit := do
  char '\\'
  blanks
  newline
  let _ ← many (blanks *> newline)
  blanks

/-- The part of a long text that one step reads. -/
def basicPiece : Parser (List Char) :=
  (do return [← satisfy isBasic]) <|> (do newline; return ['\n']) <|>
    (do continuation; return []) <|> (do return [← escape])

def literalPiece : Parser (List Char) :=
  (do return [← satisfy isLiteral]) <|> (do newline; return ['\n'])

/-- One or two quotes that do not close the text, since a piece follows them. -/
def innerQuotes (quote : Char) (piece : Parser (List Char)) : Parser (List Char) := do
  let n ← (do char quote; char quote; pure 2) <|> (do char quote; pure 1)
  let p ← piece
  return List.replicate n quote ++ p

/-- The closing quotes with up to two more before them, which belong to the text. -/
def closing (quote : Char) : Parser (List Char) := do
  let q ← run (· = quote)
  if 3 ≤ q.length ∧ q.length ≤ 5 then pure (q.drop 3) else failure

def longText (quote : Char) (piece : Parser (List Char)) : Parser (List Char) := do
  char quote
  char quote
  char quote
  let _ ← option newline
  let s ← many (piece <|> innerQuotes quote piece)
  return s.flatten ++ (← closing quote)

/-- A text in quotes of any kind. -/
def text : Parser String := do
  let s ← longText '"' basicPiece <|> longText '\'' literalPiece <|> basicText <|> literalText
  return String.ofList s

def isBareKey (c : Char) : Bool := c.isAlphanum || c = '_' || c = '-'

def simpleKey : Parser String := do
  let s ← basicText <|> literalText <|> runOne isBareKey
  return String.ofList s

/-- Keys with points between them, and blanks around each. -/
def key : Parser (List String) := separated (blanks *> simpleKey <* blanks) (char '.')

end Rollcall.Toml
