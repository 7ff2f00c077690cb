import Rollcall.Command.Usage

/-! Reading the arguments of a call. They are read from the left, and the first that is out of place or asks
for help decides. A flag takes one value, in the same argument or in the next one, and is given once. -/

namespace Rollcall

inductive MigrationCommand where
  | up | down | drop
  deriving DecidableEq

/-- What the program is asked to do. -/
inductive Command where
  | serve (config : String)
  | migrate (c : MigrationCommand) (config : String) (scripts : Option String)
  | analyze (config : String)
  deriving DecidableEq

namespace Command

/-- The path of the configuration. -/
def config : Command → String
  | .serve c | .migrate _ c _ | .analyze c => c

/-- What a call comes to before anything is done. -/
inductive Call where
  | command (c : Command)
  /-- Help or the version. -/
  | text (s : String)
  | misuse
  deriving DecidableEq

abbrev Values := List (String × String)

/-- The command of a path with the values of its flags, if none is missing. -/
def ofValues (path : List String) (vs : Values) : Call :=
  let config := vs.lookup "config"
  let migrate (c : MigrationCommand) : Call :=
    config.elim .misuse fun f => .command (.migrate c f (vs.lookup "migrations"))
  match path with
  | [_, "serve"] => config.elim .misuse fun f => .command (.serve f)
  | [_, "analyze"] => config.elim .misuse fun f => .command (.analyze f)
  | [_, "migrate", "up"] => migrate .up
  | [_, "migrate", "down"] => migrate .down
  | [_, "migrate", "drop"] => migrate .drop
  | _ => .misuse

/-- A value that can be filed: it is not empty, and the flag has none yet. -/
def addValue (vs : Values) (f : Flag) (v : String) : Option Values :=
  if v = "" ∨ (vs.lookup f.long).isSome then none else some (vs ++ [(f.long, v)])

/-- An argument that is a flag and not a value. -/
def isFlag (a : String) : Bool := a.toList.head? = some '-' && a ≠ "-"

/-- What one argument means at a command. -/
inductive Meaning where
  | help
  | version
  | value (f : Flag) (v : String)
  /-- A flag whose value is the next argument. -/
  | next (f : Flag)
  | unknown

/-- An argument that begins with two dashes. -/
def longMeaning (u : Usage) (isProgram : Bool) (s : List Char) : Meaning :=
  let (name, attached) := match Text.splitFirst? '=' s with
    | some (n, v) => (String.ofList n, some (String.ofList v))
    | none => (String.ofList s, none)
  if name = "help" ∧ attached = none then .help
  else if isProgram ∧ name = "version" ∧ attached = none then .version
  else match u.flags.find? fun f => f.long = name, attached with
    | some f, some v => .value f v
    | some f, none => .next f
    | none, _ => .unknown

/-- An argument that begins with one dash, of which the first letter decides. -/
def shortMeaning (u : Usage) (isProgram : Bool) : List Char → Meaning
  | [] => .unknown
  | c :: r =>
    if c = 'h' then .help
    else if isProgram ∧ c = 'V' then .version
    else match u.flags.find? fun f => f.short = c, r with
      | some f, [] => .next f
      | some f, '=' :: v => .value f (String.ofList v)
      | some f, v => .value f (String.ofList v)
      | none, _ => .unknown

def meaning (u : Usage) (isProgram : Bool) (a : String) : Meaning :=
  match a.toList with
  | '-' :: '-' :: r => longMeaning u isProgram r
  | _ :: r => shortMeaning u isProgram r
  | [] => .unknown

/-- The arguments of a command that has flags. -/
def readFlags (path : List String) (u : Usage) (vs : Values) : List String → Call
  | [] => ofValues path vs
  | a :: r =>
    if a = "--" then (if r = [] then ofValues path vs else .misuse)
    else if !isFlag a then .misuse
    else match meaning u false a, r with
      | .help, _ => .text (help path u)
      | .value f v, r => match addValue vs f v with
        | some vs => readFlags path u vs r
        | none => .misuse
      | .next f, v :: r =>
        if isFlag v then .misuse
        else match addValue vs f v with
          | some vs => readFlags path u vs r
          | none => .misuse
      | _, _ => .misuse

/-- The arguments that name a command of which help is wanted. -/
def readHelp (path : List String) (u : Usage) : List String → Call
  | [] => .text (help path u)
  | a :: r =>
    match u.find? a with
    | some v => readHelp (path ++ [a]) v r
    | none =>
      if a = helpName ∧ !u.commands.isEmpty ∧ r = [] then .text (helpOfHelp (path ++ [a])) else .misuse

/-- The arguments of a command that has commands below it, or flags. -/
def readAt (path : List String) (u : Usage) : List String → Call
  | [] => if u.commands.isEmpty then readFlags path u [] [] else .misuse
  | a :: r =>
    if u.commands.isEmpty then readFlags path u [] (a :: r)
    else if isFlag a then
      match meaning u (path = [programName]) a with
      | .help => .text (help path u)
      | .version => .text programVersion
      | _ => .misuse
    else match u.find? a with
      | some v => readAt (path ++ [a]) v r
      | none => if a = helpName then readHelp path u r else .misuse

/-- What a call with these arguments comes to. -/
def read (arguments : List String) : Call := readAt [programName] usage arguments

end Command

end Rollcall
