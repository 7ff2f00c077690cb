import Rollcall.Schema.Migration
import Rollcall.Schema.Script
import Rollcall.Storage.Database

/-! Bringing the schema of a database up to the last version, or back to none. The version is kept in
a history of one row, which is marked dirty while a migration is on its way: after a failure no run
proceeds until the row was mended by hand. -/

namespace Rollcall

structure Migrator where
  historyTable : String
  /-- By version. -/
  migrations : List Migration

namespace Migrator

abbrev Step := Act Database MigrationError

/-- A migrator whose history may stand in a namespace. -/
def new (inside : Option String) (ms : List Migration) : Migrator where
  historyTable := (inside.elim "" (· ++ ".")) ++ Statement.historyTable
  migrations := ms.mergeSort fun a b => a.version ≤ b.version

def createHistory (m : Migrator) : Step Unit :=
  (Budget.historyTable.retry (Database.execute (.createHistory m.historyTable))).mapError .history

/-- The highest version of a history. -/
def highest : List (Int × Bool) → Option (Int × Bool)
  | [] => none
  | r :: rs => match highest rs with
    | none => some r
    | some s => if r.1 ≤ s.1 then some s else some r

/-- The version at which the schema stands. -/
def currentVersion (m : Migrator) : Step (Option Int) := do
  let rows ← (Budget.storage.retry (Database.readHistory m.historyTable)).mapError .history
  match highest rows with
  | none => pure none
  | some (v, dirty) => if dirty then throw (.dirty v) else pure (some v)

/-- The statements that replace the row of one version by that of another. -/
def versionChange (m : Migrator) (old new : Option Int) (dirty : Bool) : List Statement :=
  (old.filter (some · ≠ new)).toList.map (.forget m.historyTable) ++
    new.toList.map (.record m.historyTable · dirty)

def executeEach (b : Budget) (wrap : Exhausted DatabaseError → MigrationError) :
    List Statement → Step Unit
  | [] => pure ()
  | s :: r => do
    (b.retry (Database.execute s)).mapError wrap
    executeEach b wrap r

def setVersion (m : Migrator) (old new : Option Int) (dirty : Bool) : Step Unit :=
  executeEach .storage .history (m.versionChange old new dirty)

def runScript (version : Int) (script : String) : Step Unit :=
  executeEach .migration (.step version) ((Script.statements script).map .script)

/-- Applies migrations one after the other, from the version `at?` on. -/
def applyEach (m : Migrator) (at? : Option Int) : List Migration → Step (List Int)
  | [] => pure []
  | x :: r => do
    m.setVersion at? (some x.version) true
    runScript x.version x.up
    m.setVersion (some x.version) (some x.version) false
    return x.version :: (← applyEach m (some x.version) r)

/-- What is left to apply. -/
def pending (m : Migrator) (current : Option Int) : List Migration :=
  m.migrations.filter fun x => current.all (· < x.version)

/-- Applies what is left and answers the versions applied. -/
def up (m : Migrator) : Step (List Int) := do
  m.createHistory
  let current ← m.currentVersion
  m.applyEach current (m.pending current)

/-- Reverts migrations one after the other, from the version `at?` down. -/
def revertEach (m : Migrator) (at? : Option Int) : List Migration → Step (List Int)
  | [] => pure []
  | x :: r => do
    let below := r.head?.map (·.version)
    m.setVersion at? (some x.version) true
    runScript x.version x.down
    m.setVersion (some x.version) below false
    return x.version :: (← revertEach m below r)

/-- What was applied, the highest version first. -/
def applied (m : Migrator) (current : Int) : List Migration :=
  m.migrations.reverse.filter fun x => x.version ≤ current

/-- Reverts what was applied and answers the versions reverted. -/
def down (m : Migrator) : Step (List Int) := do
  m.createHistory
  match ← m.currentVersion with
  | none => pure []
  | some current => m.revertEach (some current) (m.applied current)

end Migrator

end Rollcall
