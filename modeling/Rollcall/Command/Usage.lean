import Rollcall.Text.Split

/-! The commands of the program with their options, and the help that tells of them. -/

namespace Rollcall.Command

/-- An option with a value. -/
structure Flag where
  short : Char
  long : String
  value : String
  help : String
  required : Bool

/-- A command, which has options or commands below it. -/
inductive Usage where
  | node (name about : String) (flags : List Flag) (commands : List Usage)

namespace Usage

def name : Usage → String
  | .node n _ _ _ => n

def about : Usage → String
  | .node _ a _ _ => a

def flags : Usage → List Flag
  | .node _ _ f _ => f

def commands : Usage → List Usage
  | .node _ _ _ b => b

def find? (u : Usage) (name : String) : Option Usage := u.commands.find? fun v => v.name = name

end Usage

def configFlag (help : String) : Flag := ⟨'c', "config", "FILE", help, true⟩

def migrationFlags : List Flag :=
  [configFlag "Service configuration file, whose storage backend is migrated",
    ⟨'m', "migrations", "DIR",
      "Directory holding the \x60<version>_<name>.\x7bup,down\x7d.<ext>\x60 scripts", false⟩]

/-- The name under which the program is called. -/
def programName : String := "uptime"

def programVersion : String := "uptime-cli 0.3.0\n"

def helpName : String := "help"

def helpAbout : String := "Print this message or the help of the given subcommand(s)"

/-- The whole program. -/
def usage : Usage :=
  .node programName "Command-line entry point of the uptime ingestion service and analyzer" []
    [.node "serve" "Run the ingestion service" [configFlag "Service configuration file"] [],
      .node "migrate" "Apply or revert the schema of the keyspaces or postgres backend" []
        [.node "up" "Apply every pending migration" migrationFlags [],
          .node "down" "Revert every applied migration" migrationFlags [],
          .node "drop" "Drop every table of the keyspace, history included" migrationFlags []],
      .node "analyze" "Compute the uptime of every block producer over a period"
        [configFlag "Analyzer configuration file"] []]

/-- Two columns; the second one starts two blanks after the longest entry of the first. -/
def columns (l : List (String × String)) : List String :=
  let width := (l.map fun e => e.1.length).foldl max 0
  l.map fun (a, b) => "  " ++ a ++ String.ofList (List.replicate (width + 2 - a.length) ' ') ++ b

def Flag.text (f : Flag) : String := "--" ++ f.long ++ " <" ++ f.value ++ ">"

/-- How the command is called. -/
def callText (path : List String) (u : Usage) : String :=
  let optional := if u.flags.any (!·.required) then [("[OPTIONS]" : String)] else []
  let required := (u.flags.filter (·.required)).map Flag.text
  let command := if u.commands.isEmpty then [] else ["<COMMAND>"]
  " ".intercalate (path ++ optional ++ required ++ command)

def optionRows (isProgram : Bool) (u : Usage) : List (String × String) :=
  u.flags.map (fun f => ("-" ++ String.ofList [f.short] ++ ", " ++ f.text, f.help)) ++
    [("-h, --help", "Print help")] ++ if isProgram then [("-V, --version", "Print version")] else []

def commandRows (u : Usage) : List (String × String) :=
  u.commands.map (fun v => (v.name, v.about)) ++ [(helpName, helpAbout)]

/-- The help of a command that is called by that path. -/
def help (path : List String) (u : Usage) : String :=
  "\n".intercalate ([u.about, "", "Usage: " ++ callText path u, ""] ++
    (if u.commands.isEmpty then [] else "Commands:" :: columns (commandRows u) ++ [""]) ++
    "Options:" :: columns (optionRows (path = [programName]) u)) ++ "\n"

/-- The help of the command that gives help. -/
def helpOfHelp (path : List String) : String :=
  "\n".intercalate [helpAbout, "", "Usage: " ++ " ".intercalate path ++ " [COMMAND]...", "", "Arguments:",
    "  [COMMAND]...  Print help for the subcommand(s)"] ++ "\n"

end Rollcall.Command
