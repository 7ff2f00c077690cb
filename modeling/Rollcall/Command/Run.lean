import Rollcall.Analysis.Run
import Rollcall.Command.Line
import Rollcall.Config.Service
import Rollcall.Storage.Error

/-! What a command comes to on a tree of files, where no other machine can be reached. Migrations and the
service need one, or an address to listen on, so they end in failure after their configuration was read. -/

namespace Rollcall

namespace FileTree

/-- What stands behind the last point of a name, unless the point is its first character. -/
def extension? (name : String) : Option String :=
  match Text.splitLast? '.' name.toList with
  | some (a, b) => if a = [] then none else some (String.ofList b)
  | none => none

def configExtension : String := "toml"

/-- The path with the extension behind its last name, if it ends in a name. -/
def withConfigExtension (path : String) : Option String :=
  let names := ((parts path).reverse.dropWhile isHere).reverse
  if names.getLast? = some ".." then none else some ("/".intercalate names ++ "." ++ configExtension)

/-- A configuration file by its path, or by its path without the extension. -/
def configFile? (t : FileTree) (cwd : Location) (path : String) : Option ByteArray :=
  match t.fileAt? cwd path with
  | some d =>
    if ((parts path).getLast?.bind extension?) = some configExtension then some d else none
  | none => (withConfigExtension path).bind (t.fileAt? cwd)

end FileTree

namespace Command

structure Outcome where
  code : UInt32
  stdout : String := ""
  /-- Why the command failed. -/
  problem : Option String := none
  tree : FileTree
  /-- The files that were written. -/
  written : List String := []

/-- The code of a command that fails. -/
def failureCode : UInt32 := 1

/-- The code of a call that is not understood. -/
def misuseCode : UInt32 := 2

/-- The code of a command that breaks off. -/
def abortCode : UInt32 := 101

def fail (t : FileTree) (problem : String) : Outcome :=
  { code := failureCode, problem := some problem, tree := t }

def loadProblem (config : String) (e : ConfigError) : String :=
  "Failed to load configuration from " ++ config ++ ": " ++ e.message

/-- Why the service does not start. -/
def serviceProblem (c : ServiceConfig) : String :=
  match c.storage with
  | .filesystem _ => "Failed to listen on " ++ c.listen.write
  | s => "Failed to set up the storage backend: " ++ (StorageError.connect s.name).message

/-- Why a store is not migrated. -/
def migrationProblem (c : MigrationCommand) (s : Config.StorageAccess) : String :=
  match s with
  | .keyspaces _ => (StorageError.connect s.name).message
  | .postgres _ =>
    if c = .drop then "Dropping tables is only supported for the keyspaces backend"
    else (StorageError.connect s.name).message
  | s => "The " ++ s.name ++ " backend has no schema to migrate"

/-- A command on the configuration of the service. -/
def runService (t : FileTree) (cwd : Location) (environment : List (String × String)) (config : String)
    (problem : ServiceConfig → String) : Outcome :=
  fail t (match ServiceConfig.load (t.configFile? cwd config) environment with
    | .error e => loadProblem config e
    | .ok c => problem c)

def runAnalysis (c : AnalyzerConfig) (t : FileTree) (cwd : Location) (now : Instant) : Outcome :=
  match c.report t cwd now with
  | .error .overflow => { fail t AnalysisError.overflow.message with code := abortCode }
  | .error e => fail t e.message
  | .ok r =>
    let p := r.publish c.output t cwd
    let problem := match p.outcome with
      | .ok _ => none
      | .error e => some e.message
    { code := if problem.isNone then 0 else failureCode
      stdout := p.stdout, problem := problem, tree := p.tree, written := c.output.path.toList }

def run (c : Command) (t : FileTree) (cwd : Location) (environment : List (String × String))
    (now : Instant) : Outcome :=
  match c with
  | .serve config => runService t cwd environment config serviceProblem
  | .migrate c config _ => runService t cwd environment config fun s => migrationProblem c s.storage
  | .analyze config =>
    match AnalyzerConfig.load (t.configFile? cwd config) environment with
    | .error e => fail t (loadProblem config e)
    | .ok c => runAnalysis c t cwd now

/-- Does what a call asks for. -/
def execute (arguments : List String) (t : FileTree) (cwd : Location)
    (environment : List (String × String)) (now : Instant) : Outcome :=
  match read arguments with
  | .misuse => { code := misuseCode, problem := some "The arguments are not understood", tree := t }
  | .text s => { code := 0, stdout := s, tree := t }
  | .command c => c.run t cwd environment now

end Command

end Rollcall
