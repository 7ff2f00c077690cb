import Rollcall.Schema.Statement
import Rollcall.Storage.Error

/-! A database as the service sees it: what it holds, and an outcome for each call in turn, given from
outside. A call that fails has no effect. Each call is noted with its time on a clock that only
sleeping moves. -/

namespace Rollcall

/-- What is asked of the database. -/
inductive Query where
  | execute (s : Statement)
  | history (table : String)
  | tableNames (keyspace : String)
  /-- Rows of a wide-column store may come without their block. -/
  | insertSubmission (keyspace : Option String) (submitter : String) (withRawBlock : Option Bool)
  | insertBlock (keyspace hash : String)

namespace Query

def name : Query → String
  | .execute _ => "execute"
  | .history _ => "history"
  | .tableNames _ => "table_names"
  | .insertSubmission .. => "insert_submission"
  | .insertBlock .. => "insert_block"

/-- The query as text, for queries that are one. -/
def text? (d : Dialect) : Query → Option String
  | .execute s => some (s.text d)
  | .history t => some t
  | .tableNames k => some k
  | .insertSubmission .. | .insertBlock .. => none

end Query

structure Call where
  time : Nat
  query : Query
  works : Bool

structure Database where
  dialect : Dialect := .cql
  /-- What befalls each call in turn. -/
  outcome : Nat → Option DatabaseError := fun _ => none
  /-- Texts that fail wherever they occur, with the message of the failure. -/
  failOn : List (String × String) := []
  /-- The largest block that a row can hold. -/
  maxRow : Option Nat := none
  history : Ledger Int Bool := .empty
  tables : List String := []
  /-- The submissions and the blocks, in the order of insertion. -/
  rows : List Submission := []
  blocks : List Block := []
  now : Nat := 0
  made : Nat := 0
  /-- The calls so far, the last one first. -/
  calls : List Call := []

namespace Database

instance : Clocked Database := ⟨fun d db => { db with now := db.now + d }⟩

/-- What befalls a query before it has its effect. -/
def mishap (db : Database) (q : Query) : Option DatabaseError :=
  db.outcome db.made <|> (q.text? db.dialect).bind fun s =>
    (db.failOn.find? fun e => Text.occurs e.1.toList s.toList).map fun e => { message := e.2 }

def call {α : Type} (q : Query) (effect : Database → Except DatabaseError α × Database) :
    Act Database DatabaseError α := fun db =>
  let m := db.mishap q
  let db := { db with made := db.made + 1, calls := ⟨db.now, q, m.isNone⟩ :: db.calls }
  match m with
  | some e => (.error e, db)
  | none => effect db

def apply (db : Database) : Statement.Effect → Database
  | .none => db
  | .record v b => { db with history := db.history.insert v b }
  | .forget v => { db with history := db.history.erase v }
  | .dropTable t => { db with tables := db.tables.filter (· ≠ t) }

def execute (s : Statement) : Act Database DatabaseError Unit :=
  call (.execute s) fun db => (.ok (), db.apply s.effect)

/-- The rows of the history, by version. -/
def readHistory (table : String) : Act Database DatabaseError (List (Int × Bool)) :=
  call (.history table) fun db => (.ok db.history.entries, db)

def tableNames (keyspace : String) : Act Database DatabaseError (List String) :=
  call (.tableNames keyspace) fun db => (.ok db.tables, db)

/-- Adds a row to a table whose rows have a largest size. -/
def insertWide (keyspace : String) (s : Submission) (withRawBlock : Bool) :
    Act Database DatabaseError Unit :=
  call (.insertSubmission (some keyspace) s.submitter (some withRawBlock)) fun db =>
    let row := if withRawBlock then s else s.withoutRawBlock
    if db.maxRow.any (· < row.rawBlockSize) then
      (.error { message := "Invalid query: " ++ rowTooLarge }, db)
    else (.ok (), { db with rows := db.rows ++ [row] })

/-- Adds a row to a table that holds one for each submitter and day. -/
def insertUnique (s : Submission) : Act Database DatabaseError Unit :=
  call (.insertSubmission none s.submitter none) fun db =>
    if db.rows.any fun r => r.submitter = s.submitter ∧ r.date = s.date then
      (.error { message := "duplicate key", constraint := some uniqueSubmission }, db)
    else (.ok (), { db with rows := db.rows ++ [s] })

def insertBlock (keyspace : String) (b : Block) : Act Database DatabaseError Unit :=
  call (.insertBlock keyspace b.hash) fun db =>
    (.ok (), { db with blocks := db.blocks ++ [b] })

end Database

end Rollcall
