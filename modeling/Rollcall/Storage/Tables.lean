import Rollcall.Storage.Database

/-! Submissions as rows of tables: of a wide-column store, where a block may be too large for a row, and
of a relational one, which holds one submission for each submitter and day. -/

namespace Rollcall

/-- A wide-column store. -/
structure Keyspace where
  name : String
  /-- Blocks go into a table of their own. -/
  separateBlocks : Bool := false

namespace Keyspace

abbrev Step := Act Database StorageError

def retrying {α : Type} (b : Budget) (op : Act Database DatabaseError α) : Step α :=
  (b.retry op).mapError .database

/-- Inserts the submission, and without its block if the row would be too large; answers whether the
block was dropped. -/
def insertOrDegrade (k : Keyspace) (s : Submission) : Act Database DatabaseError Bool := do
  match ← (Database.insertWide k.name s true).outcome with
  | .ok () => pure false
  | .error e =>
    if e.isRowTooLarge then
      Database.insertWide k.name s false
      pure true
    else throw e

/-- The block first, so that no row is without the block that it names. -/
def insertApart (k : Keyspace) (s : Submission) : Step Nat := do
  match s.rawBlock with
  | some raw =>
    retrying .storage (Database.insertBlock k.name ⟨s.blockHash, raw⟩)
    retrying .storage (Database.insertWide k.name s.withoutRawBlock false)
    pure 2
  | none =>
    retrying .storage (Database.insertWide k.name s.withoutRawBlock false)
    pure 1

def save (k : Keyspace) (b : Batch) : Step SaveReport := do
  match b.assemble with
  | .error e => throw (.artifact e)
  | .ok s =>
    if k.separateBlocks then
      let n ← k.insertApart s
      pure { written := n }
    else
      let dropped ← retrying .storage (k.insertOrDegrade s)
      pure { written := 1, rawBlockDropped := dropped }

/-- Waits until each table answers. -/
def awaitTables (k : Keyspace) : List String → Step Unit
  | [] => pure ()
  | t :: r => do
    retrying .schemaWait (Database.execute (.probe k.name t))
    awaitTables k r

def dropEach (k : Keyspace) : List String → Act Database DatabaseError Unit
  | [] => pure ()
  | t :: r => do
    Database.execute (.dropTable k.name t)
    dropEach k r

/-- Drops the tables that the store lists, and answers which they were. -/
def dropListed (k : Keyspace) : Act Database DatabaseError (List String) := do
  let ts ← Database.tableNames k.name
  k.dropEach ts
  pure ts

/-- Drops all tables. A new attempt starts with a new list. -/
def dropTables (k : Keyspace) : Step (List String) :=
  retrying .storage k.dropListed

end Keyspace

namespace Relational

/-- Answers whether the submission was there already, which is no failure. -/
def insertOnce (s : Submission) : Act Database DatabaseError Bool := do
  match ← (Database.insertUnique s).outcome with
  | .ok () => pure false
  | .error e => if e.isDuplicate then pure true else throw e

def save (b : Batch) : Act Database StorageError SaveReport := do
  match b.assemble with
  | .error e => throw (.artifact e)
  | .ok s =>
    let known ← (Budget.storage.retry (insertOnce s)).mapError .database
    pure (if known then { alreadyRecorded := true } else { written := 1 })

end Relational

end Rollcall
