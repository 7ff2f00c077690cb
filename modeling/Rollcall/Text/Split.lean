/-! Cutting a text at separators: at every one, at the first, at the last, and into lines. -/

namespace Rollcall.Text

/-- The pieces between the separators, one more than there are separators. -/
def splitOn (sep : Char) : List Char → List (List Char)
  | [] => [[]]
  | c :: r =>
    if c = sep then [] :: splitOn sep r
    else match splitOn sep r with
      | [] => [[c]]
      | p :: ps => (c :: p) :: ps

/-- The texts before and after the first separator. -/
def splitFirst? (sep : Char) : List Char → Option (List Char × List Char)
  | [] => none
  | c :: r =>
    if c = sep then some ([], r)
    else (splitFirst? sep r).map fun (a, b) => (c :: a, b)

/-- The texts before and after the last separator. -/
def splitLast? (sep : Char) : List Char → Option (List Char × List Char)
  | [] => none
  | c :: r =>
    match splitLast? sep r with
    | some (a, b) => some (c :: a, b)
    | none => if c = sep then some ([], r) else none

def startsWith (pre s : List Char) : Bool := pre.isPrefixOf s

/-- What precedes `post` in a text that ends with it. -/
def dropSuffix? (post s : List Char) : Option (List Char) :=
  if post.isSuffixOf s then some (s.take (s.length - post.length)) else none

/-- A line without the carriage return that belongs to its line feed. -/
def dropReturn (s : List Char) : List Char := (dropSuffix? ['\r'] s).getD s

/-- The lines of a text. A line feed ends a line, together with a carriage return before it; what
follows the last line feed is a line unless it is empty, and keeps its carriage returns. -/
def lines (s : List Char) : List (List Char) :=
  let ps := splitOn '\n' s
  ps.dropLast.map dropReturn ++ (ps.getLast?.toList.filter (!·.isEmpty))

/-- Pieces written with `sep` between them. -/
def joinWith (sep : List Char) : List (List Char) → List Char
  | [] => []
  | [p] => p
  | p :: q :: r => p ++ sep ++ joinWith sep (q :: r)

/-- Whether `part` occurs in `s`. -/
def occurs (part : List Char) : List Char → Bool
  | [] => part.isEmpty
  | c :: r => part.isPrefixOf (c :: r) || occurs part r

end Rollcall.Text
