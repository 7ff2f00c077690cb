import Rollcall.Toml.Moment
import Rollcall.Toml.Number
import Rollcall.Toml.Text
import Rollcall.Toml.Value

/-! Documents. Pairs of keys and values belong to the table of the last heading before them. A table is
defined once: by its heading, or by keys with points, or as a value. Tables on the way to another one
come into being by themselves and may still be defined by a heading. -/

namespace Rollcall.Toml

open Toml.Parser

/-- What a table holds while it is being read. -/
inductive Item where
  | value (v : Value)
  /-- A table that no heading has defined is implicit; one that came from a key with points is dotted. -/
  | table (isImplicit isDotted : Bool) (entries : List (String × Item))
  /-- Tables under a heading in double brackets. -/
  | tables (l : List (List (String × Item)))

abbrev Entries := List (String × Item)

namespace Entries

def replace (es : Entries) (k : String) (i : Item) : Entries :=
  es.map fun e => if e.1 = k then (k, i) else e

/-- Changes the table at the end of a path. The tables on the way are made if they are missing; keys with
points do not lead through tables that are defined already. -/
def update (dotted : Bool) (f : Bool → Entries → Option Entries) :
    List String → Bool → Entries → Option Entries
  | [], isDotted, es => f isDotted es
  | k :: r, _, es =>
    match es.lookup k with
    | none => do return es ++ [(k, .table true dotted (← update dotted f r dotted []))]
    | some (.value _) => none
    | some (.tables l) => do
      let last ← l.getLast?
      return es.replace k (.tables (l.dropLast ++ [← update dotted f r false last]))
    | some (.table isImplicit isDotted inner) =>
      if dotted && !isImplicit then none
      else do return es.replace k (.table isImplicit isDotted (← update dotted f r isDotted inner))

/-- Adds a pair under a path of keys, of which the last one is new. -/
def addPair (es : Entries) (path : List String) (v : Value) : Option Entries := do
  let k ← path.getLast?
  update true (fun isDotted es =>
    if isDotted = path.dropLast.isEmpty || (es.lookup k).isSome then none
    else some (es ++ [(k, .value v)])) path.dropLast false es

/-- Defines the table of a heading. One that was there already on the way to another moves to the end. -/
def addTable (es : Entries) (path : List String) : Option Entries := do
  let k ← path.getLast?
  update false (fun _ es => match es.lookup k with
    | none => some (es ++ [(k, .table false false [])])
    | some (.table true false inner) => some (es.filter (·.1 ≠ k) ++ [(k, .table false false inner)])
    | some _ => none) path.dropLast false es

/-- Adds a table under a heading in double brackets. -/
def addToTables (es : Entries) (path : List String) : Option Entries := do
  let k ← path.getLast?
  update false (fun _ es => match es.lookup k with
    | none => some (es ++ [(k, .tables [[]])])
    | some (.tables l) => some (es.replace k (.tables (l ++ [[]])))
    | some _ => none) path.dropLast false es

end Entries

mutual

def Item.read : Item → Value
  | .value v => v
  | .table _ _ es => .table (entryValues es)
  | .tables l => .list (tableValues l)

def entryValues : List (String × Item) → List (String × Value)
  | [] => []
  | (k, i) :: r => (k, i.read) :: entryValues r

def tableValues : List (List (String × Item)) → List Value
  | [] => []
  | es :: r => .table (entryValues es) :: tableValues r

end

/-- Values nest less deeply than this, and keys have fewer parts. -/
def depthLimit : Nat := 80

def limitedKey : Parser (List String) := do
  let k ← key
  if k.length < depthLimit then pure k else failure

def boolean : Parser Bool := (do word "true"; pure true) <|> (do word "false"; pure false)

def scalar : Parser Value :=
  (.text <$> text) <|> (.boolean <$> boolean) <|> (.moment <$> moment) <|> (.float <$> float) <|>
    (.integer <$> integer)

/-- Values in brackets; a comma may follow the last one. -/
def list (element : Parser Value) : Parser (List Value) :=
  (do
    char '['
    space
    char ']'
    return []) <|> do
    char '['
    let l ← separated (space *> element <* space) (char ',')
    let _ ← option (char ',')
    space
    char ']'
    return l

def pair (element : Parser Value) : Parser (List String × Value) := do
  let k ← limitedKey
  char '='
  blanks
  return (k, ← element)

/-- Pairs in braces, on one line. -/
def inlineTable (element : Parser Value) : Parser (List (String × Value)) := do
  char '\x7b'
  blanks
  let pairs ← (do char '\x7d'; pure []) <|>
    (separated (pair element <* blanks) (char ',') <* char '\x7d')
  let es ← fun s => (pairs.foldlM (fun es p => Entries.addPair es p.1 p.2) []).map (·, s)
  return entryValues es

/-- A value with lists and tables nested as deeply as said. -/
def value : Nat → Parser Value
  | 0 => scalar
  | depth + 1 =>
    scalar <|> (.list <$> list (value depth)) <|> (.table <$> inlineTable (value depth))

inductive Line where
  | heading (path : List String)
  | listHeading (path : List String)
  | pair (path : List String) (v : Value)

def line : Parser (Option Line) := do
  blanks
  let l ← option (
    (do word "[["; let k ← limitedKey; word "]]"; pure (Line.listHeading k)) <|>
    (do char '['; let k ← limitedKey; char ']'; pure (Line.heading k)) <|>
    (do let (k, v) ← pair (value (depthLimit - 1)); pure (Line.pair k v)))
  lineEnd
  return l

/-- The entries of the document so far, and the path of the last heading. -/
structure Draft where
  entries : Entries := []
  path : List String := []

def Draft.add (d : Draft) : Line → Option Draft
  | .heading p => do return ⟨← d.entries.addTable p, p⟩
  | .listHeading p => do return ⟨← d.entries.addToTables p, p⟩
  | .pair p v => do
    return { d with entries := ← Entries.update false (fun _ es => es.addPair p v) d.path false d.entries }

/-- The entries of a document, or nothing if the text is none. -/
def read? (s : String) : Option (List (String × Value)) := do
  let s := match s.toList with
    | '\ufeff' :: r => r
    | r => r
  let (lines, rest) ← many line s
  if rest ≠ [] then none
  let d ← (lines.filterMap id).foldlM Draft.add {}
  return entryValues d.entries

end Rollcall.Toml
