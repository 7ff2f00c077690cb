import Rollcall.Config.Setting
import Rollcall.Toml.Parser

/-! Paths into settings, such as `a.b[0]`: names of entries, and places in lists, which count from the end
if they are negative. What stands on the way and is no table or no list becomes one, and a list becomes
as long as it has to be. -/

namespace Rollcall.Setting

open Toml.Parser

inductive Step where
  | entry (name : String)
  | place (i : Int)
  deriving DecidableEq

def isNameCharacter (c : Char) : Bool := c.isAlphanum || c = '_' || c = '-' || c = ' '

def entryStep : Toml.Parser Step := do
  return .entry (String.ofList (← runOne isNameCharacter))

def placeStep : Toml.Parser Step := do
  blanks
  let minus ← option (char '-')
  let n : Int := Decimal.value (← runOne Char.isDigit)
  blanks
  let i := if minus.isSome then -n else n
  if Decimal.fitsSigned i then pure (.place i) else failure

def steps : Toml.Parser (List Step) := do
  let first ← entryStep
  let rest ← many ((char '.' *> entryStep) <|> (char '[' *> placeStep <* char ']'))
  return first :: rest

/-- The path that a text is; a text that is none is the name of one entry. -/
def path (s : String) : List Step :=
  match steps s.toList with
  | some (p, []) => p
  | _ => [.entry s]

def entries : Setting → List (String × Setting)
  | .table es => es
  | _ => []

def elements : Setting → List Setting
  | .list l => l
  | _ => []

def replaceEntry (es : List (String × Setting)) (k : String) (v : Setting) : List (String × Setting) :=
  if (es.lookup k).isSome then es.map fun e => if e.1 = k then (k, v) else e else es ++ [(k, v)]

mutual

/-- The setting with a value under a key. A table is merged with what is there. -/
def put (root : Setting) (k : String) : Setting → Setting
  | .table inner =>
    .table (replaceEntry root.entries (lowered k)
      (putAll ((root.entries.lookup (lowered k)).getD (.table [])) inner))
  | v => .table (replaceEntry root.entries (lowered k) v)

def putAll (root : Setting) : List (String × Setting) → Setting
  | [] => root
  | (k, v) :: r => putAll (put root k v) r

end

/-- The list, as much longer at one end as a place in it needs. -/
def widened (l : List Setting) (i : Int) : List Setting :=
  List.replicate (-i - l.length).toNat .nothing ++ l ++ List.replicate (i + 1 - l.length).toNat .nothing

/-- A place as counted from the beginning. -/
def index (l : List Setting) (i : Int) : Nat := (if i < 0 then l.length + i else i).toNat

/-- The setting with a value at the end of a path. -/
def putAt (root : Setting) : List Step → Setting → Setting
  | [], v => v
  | [.entry k], v => put root k v
  | .entry k :: r, v =>
    .table (replaceEntry root.entries (lowered k)
      (putAt ((root.entries.lookup (lowered k)).getD .nothing) r v))
  | .place i :: r, v =>
    let l := widened root.elements i
    .list (l.modify (index l i) fun e => putAt e r v)

end Rollcall.Setting
