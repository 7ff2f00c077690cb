import Rollcall.Ledger
import Rollcall.Admission.Table

/-! The submitters that are let in, each with what the table says of it beside its key. -/

namespace Rollcall

/-- The cells of a submitter's row by column, the key's own column left out. -/
abbrev Whitelist := Ledger String (Ledger String String)

/-- Why no whitelist could be had. -/
inductive WhitelistError where
  | io
  | missingHeader
  | missingColumn (name : String)
  | source (reason : String)
  deriving DecidableEq

def WhitelistError.message : WhitelistError → String
  | .io => "Failed to read whitelist"
  | .missingHeader => "Whitelist has no header row"
  | .missingColumn c => "Whitelist has no column named '" ++ c ++ "'"
  | .source r => "Whitelist source failed: " ++ r

namespace Whitelist

/-- Tabs part the cells if the first line that is not blank has one, commas otherwise. -/
def delimiter? (table : List Char) : Option Char :=
  ((Text.lines table).find? fun l => !l.all Text.isBlank).map fun l =>
    if l.contains '\t' then '\t' else ','

/-- Files a record under its key. One without a key is left out. -/
def addRow (columns : List String) (key : Nat) (w : Whitelist) (row : List String) : Whitelist :=
  match row[key]? with
  | none => w
  | some k =>
    if k.isEmpty then w
    else w.insert k (.ofList ((columns.zip row).eraseIdx key))

/-- The whitelist of a table, whose first record names the columns, by the first column of that name. -/
def ofTable (table column : String) : Except WhitelistError Whitelist :=
  match delimiter? table.toList with
  | none => .error .missingHeader
  | some d =>
    let cells := (Table.rows d table.toList).map (·.map fun c => String.ofList (Text.trim c))
    let columns := cells.headD []
    match columns.findIdx? (· = column) with
    | none => .error (.missingColumn column)
    | some key => .ok (cells.tail.foldl (addRow columns key) .empty)

/-- The whitelist of a table in a file, if the file is there and holds text. -/
def ofFile (data : Option ByteArray) (column : String) : Except WhitelistError Whitelist :=
  match data.bind String.fromUTF8? with
  | none => .error .io
  | some table => ofTable table column

def ofKeys (keys : List String) : Whitelist := .ofList (keys.map (·, .empty))

end Whitelist

end Rollcall
