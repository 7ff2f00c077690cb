import Rollcall.Config.Path
import Rollcall.Toml.Document

/-! Settings come from a file and, over that, from variables of the environment. A variable
`UPTIME__A__B` stands for `a.b`. Keys are the same in upper and lower case. Tables are merged, and all
else replaces what was there. -/

namespace Rollcall.Setting

/-- The key that makes a table a moment if it comes first. -/
def momentKey : String := "$__toml_private_datetime"

mutual

/-- What a value in a document sets. Moments are text. Nothing else in a table that is one is looked at. -/
def ofValue? : Toml.Value → Option Setting
  | .boolean b => some (.boolean b)
  | .integer n => some (.integer n)
  | .float x => some (.float x)
  | .text s | .moment s => some (.text s)
  | .list l => (ofValues? l).map .list
  | .table [] => some (.table [])
  | .table ((k, v) :: r) =>
    if k = momentKey then match v with
      | .text s => (Toml.momentOfText? s).map .text
      | _ => none
    else do return .table ((k, ← ofValue? v) :: (← ofEntries? r))

def ofValues? : List Toml.Value → Option (List Setting)
  | [] => some []
  | v :: r => do return (← ofValue? v) :: (← ofValues? r)

def ofEntries? : List (String × Toml.Value) → Option (List (String × Setting))
  | [] => some []
  | (k, v) :: r => do return (k, ← ofValue? v) :: (← ofEntries? r)

end

/-- The settings of a document. -/
def ofDocument? (es : List (String × Toml.Value)) : Option (List (String × Setting)) := do
  match ← ofValue? (.table es) with
  | .table es => some es
  | _ => none

def layer (root : Setting) (l : List (String × Setting)) : Setting :=
  l.foldl (fun root e => putAt root (path e.1) e.2) root

def variablePrefix : String := "uptime__"

/-- Points in place of double underscores. -/
def dotted : List Char → List Char
  | '_' :: '_' :: r => '.' :: dotted r
  | c :: r => c :: dotted r
  | [] => []

/-- A variable's text as what it looks like. -/
def ofVariable (s : String) : Setting :=
  if lowered s = "true" then .boolean true
  else if lowered s = "false" then .boolean false
  else match Decimal.signed? s.toList with
    | some n => .integer n
    | none => match Binary64.read? s.toList with
      | some x => .float x
      | none => .text s

/-- The setting that a variable overrides, if it has the prefix. -/
def override? (e : String × String) : Option (String × Setting) :=
  let k := (lowered e.1).toList
  if Text.startsWith variablePrefix.toList k then
    some (String.ofList (dotted (k.drop variablePrefix.length)), ofVariable e.2)
  else none

/-- The text of a file without the mark that may stand at its start. -/
def fileText? (data : ByteArray) : Option String := do
  let s ← String.fromUTF8? data
  match s.toList with
  | '\ufeff' :: r => some (String.ofList r)
  | _ => some s

/-- All settings of a file and of the environment over it. -/
def load? (file : Option ByteArray) (environment : List (String × String)) : Option Setting := do
  let entries ← ofDocument? (← Toml.read? (← fileText? (← file)))
  return layer (layer (.table []) entries) (environment.filterMap override?)

end Rollcall.Setting
