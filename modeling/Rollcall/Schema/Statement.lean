import Rollcall.Text.Decimal
import Rollcall.Text.Split

/-! The statements that the service sends to a database, beside the inserts of its own, and their texts.
What a statement of a migration script does to the tables that the service looks at is read off its
text. -/

namespace Rollcall

inductive Dialect where
  | cql
  | postgres
  deriving DecidableEq

/-- The ending of a script's file name. -/
def Dialect.extension : Dialect → String
  | .cql => "cql"
  | .postgres => "sql"

inductive Statement where
  | createHistory (table : String)
  | record (table : String) (version : Int) (dirty : Bool)
  | forget (table : String) (version : Int)
  | probe (keyspace table : String)
  | dropTable (keyspace table : String)
  | script (text : String)

namespace Statement

def historyTable : String := "schema_migrations"

def bool (b : Bool) : String := if b then "true" else "false"

def text (d : Dialect) : Statement → String
  | .createHistory t =>
    "CREATE TABLE IF NOT EXISTS " ++ t ++ " (version bigint PRIMARY KEY, dirty boolean" ++
      (match d with | .cql => ")" | .postgres => " NOT NULL)")
  | .record t v b =>
    "INSERT INTO " ++ t ++ " (version, dirty) VALUES (" ++ Decimal.int v ++ ", " ++ bool b ++ ")" ++
      (match d with
        | .cql => ""
        | .postgres => " ON CONFLICT (version) DO UPDATE SET dirty = EXCLUDED.dirty")
  | .forget t v => "DELETE FROM " ++ t ++ " WHERE version = " ++ Decimal.int v
  | .probe k t => "SELECT * FROM " ++ k ++ "." ++ t ++ " LIMIT 1"
  | .dropTable k t => "DROP TABLE " ++ k ++ "." ++ t
  | .script s => s

/-- What a statement does to the history and to the list of tables. -/
inductive Effect where
  | none
  | record (version : Int) (dirty : Bool)
  | forget (version : Int)
  | dropTable (table : String)

/-- The text behind the first occurrence of `part`. -/
def behind? (part : List Char) : List Char → Option (List Char)
  | [] => if part.isEmpty then some [] else .none
  | c :: r => if part.isPrefixOf (c :: r) then some ((c :: r).drop part.length) else behind? part r

def isSigned (c : Char) : Bool := c.isDigit || c = '-' || c = '+'

def effectOfText (s : List Char) : Effect :=
  if Text.occurs historyTable.toList s then
    match behind? "VALUES (".toList s with
    | some r =>
      match Decimal.signed? (r.takeWhile isSigned) with
      | some v => .record v (Text.startsWith ", true".toList (r.dropWhile isSigned))
      | .none => .none
    | .none =>
      match behind? "WHERE version = ".toList s with
      | some r =>
        match Decimal.signed? (r.takeWhile isSigned) with
        | some v => .forget v
        | .none => .none
      | .none => .none
  else if Text.startsWith "DROP TABLE ".toList s then
    match Text.splitFirst? '.' (s.drop 11) with
    | some (_, t) => .dropTable (String.ofList t)
    | .none => .none
  else .none

def effect : Statement → Effect
  | .createHistory _ | .probe _ _ => .none
  | .record _ v b => .record v b
  | .forget _ v => .forget v
  | .dropTable _ t => .dropTable t
  | .script s => effectOfText s.toList

end Statement

end Rollcall
