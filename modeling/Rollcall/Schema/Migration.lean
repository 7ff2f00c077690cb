import Rollcall.FileTree
import Rollcall.Schema.Statement
import Rollcall.Storage.Error

/-! A migration is one change of a schema and its inverse. Its two scripts are kept under names that give
the version, a name and the direction, and are paired again by version alone. -/

namespace Rollcall

inductive Direction where
  | up
  | down
  deriving DecidableEq

def Direction.name : Direction → String
  | .up => "up"
  | .down => "down"

structure Migration where
  version : Int
  name : String
  up : String
  down : String
  deriving DecidableEq

inductive MigrationError where
  | io
  | invalidFileName (name : String)
  | missingScript (version : Int) (direction : Direction)
  | duplicate (version : Int) (direction : Direction)
  | dirty (version : Int)
  | step (version : Int) (e : Exhausted DatabaseError)
  | history (e : Exhausted DatabaseError)
  deriving DecidableEq

def MigrationError.message : MigrationError → String
  | .io => "Failed to read migrations"
  | .invalidFileName n => "Invalid migration file name: " ++ n
  | .missingScript v d => "Migration " ++ Decimal.int v ++ " is missing its " ++ d.name ++ " script"
  | .duplicate v d => "Duplicate " ++ d.name ++ " script for migration " ++ Decimal.int v
  | .dirty v =>
    "Schema is dirty at version " ++ Decimal.int v ++ ", a previous migration did not complete"
  | .step v e => "Migration " ++ Decimal.int v ++ " failed: " ++ e.message (·.message)
  | .history e => "Failed to access migration history: " ++ e.message (·.message)

namespace Migration

/-- A migration of which not all scripts are known yet. -/
structure Draft where
  name : String
  up : Option String := none
  down : Option String := none

namespace Draft

def script? (d : Draft) : Direction → Option String
  | .up => d.up
  | .down => d.down

def withScript (d : Draft) (dir : Direction) (text : String) : Draft :=
  match dir with
  | .up => { d with up := some text }
  | .down => { d with down := some text }

def finish (version : Int) (d : Draft) : Except MigrationError Migration :=
  match d.up, d.down with
  | none, _ => .error (.missingScript version .up)
  | _, none => .error (.missingScript version .down)
  | some u, some w => .ok ⟨version, d.name, u, w⟩

end Draft

/-- The direction at the end of a script's name, and what precedes it. -/
def direction? (s : List Char) : Option (List Char × Direction) :=
  match Text.dropSuffix? ".up".toList s with
  | some r => some (r, .up)
  | none => (Text.dropSuffix? ".down".toList s).map (·, .down)

/-- The version, the name and the direction in a script's name. -/
def readName? (s : String) : Option (Int × String × Direction) := do
  let (base, d) ← direction? s.toList
  let (v, name) ← Text.splitFirst? '_' base
  let v ← Decimal.signed? v
  pure (v, String.ofList name, d)

abbrev Drafts := Ledger Int Draft

/-- The first script of a version gives the name. -/
def addScript (ds : Drafts) (script : String × String) : Except MigrationError Drafts :=
  match readName? script.1 with
  | none => .error (.invalidFileName script.1)
  | some (v, name, dir) =>
    let d := (ds.get? v).getD { name }
    if (d.script? dir).isSome then .error (.duplicate v dir)
    else .ok (ds.insert v (d.withScript dir script.2))

/-- The migrations whose scripts these are, by version. -/
def ofScripts (scripts : List (String × String)) : Except MigrationError (List Migration) := do
  let ds ← scripts.foldlM addScript (.empty : Drafts)
  ds.entries.mapM fun (v, d) => d.finish v

/-- The scripts among the files of a directory, in the order of their names. -/
def readScripts (entries : List (String × Node)) (d : Dialect) :
    Except MigrationError (List (String × String)) :=
  (entries.filterMap fun (name, n) => match n with
    | .directory => none
    | .file data =>
      (Text.dropSuffix? ('.' :: d.extension.toList) name.toList).map (String.ofList ·, data)).mapM
    fun (stem, data) => match String.fromUTF8? data with
      | some text => .ok (stem, text)
      | none => .error .io

def ofDirectory (t : FileTree) (cwd : Location) (path : String) (d : Dialect) :
    Except MigrationError (List Migration) := do
  match t.directory? cwd path with
  | none => throw .io
  | some l => ofScripts (← readScripts (t.children l) d)

end Migration

end Rollcall
