import Rollcall.Text.Split

/-! Readers of parts of a text, which leave the rest of it or refuse it. A repeated reader stops where it is
refused or reads nothing. -/

namespace Rollcall.Toml

abbrev Parser := StateT (List Char) Option

namespace Parser

variable {α β : Type}

def satisfy (p : Char → Bool) : Parser Char
  | [] => none
  | c :: r => if p c then some (c, r) else none

def char (c : Char) : Parser Unit := do
  let _ ← satisfy (· = c)

def word (w : String) : Parser Unit := fun s =>
  if w.toList.isPrefixOf s then some ((), s.drop w.toList.length) else none

/-- The characters up to the first one that does not fit. -/
def run (p : Char → Bool) : Parser (List Char) := fun s => some (s.span p)

/-- At least one character that fits. -/
def runOne (p : Char → Bool) : Parser (List Char) := do
  let c ← satisfy p
  return c :: (← run p)

def option (p : Parser α) : Parser (Option α) := fun s =>
  match p s with
  | some (a, r) => some (some a, r)
  | none => some (none, s)

/-- What is read by `p` as often as it reads something. -/
def many (p : Parser α) (s : List Char) : Option (List α × List Char) :=
  match p s with
  | none => some ([], s)
  | some (a, r) =>
    if r.length < s.length then (many p r).map fun (l, t) => (a :: l, t) else some ([], s)
termination_by s.length

/-- One or more parts with separators between them. -/
def separated (p : Parser α) (sep : Parser Unit) : Parser (List α) := do
  let a ← p
  let l ← many do
    sep
    p
  return a :: l

def endOfText : Parser Unit := fun s => if s = [] then some ((), []) else none

def peek : Parser (Option Char) := fun s => some (s.head?, s)

def isBlank (c : Char) : Bool := c = ' ' || c = '\t'

def blanks : Parser Unit := do
  let _ ← run isBlank

def newline : Parser Unit := char '\n' <|> word "\r\n"

/-- A character that may stand in a comment: a tab, or one that is not a control character. -/
def isPrintable (c : Char) : Bool := c = '\t' || (32 ≤ c.toNat && c.toNat ≠ 127)

def comment : Parser Unit := do
  char '#'
  let _ ← run isPrintable

/-- What may follow a line's content. -/
def lineEnd : Parser Unit := do
  blanks
  let _ ← option comment
  newline <|> endOfText

/-- Blanks, comments and line ends. -/
def space : Parser Unit := do
  let _ ← many do
    blanks
    let _ ← option comment
    newline
  blanks

end Parser

end Rollcall.Toml
