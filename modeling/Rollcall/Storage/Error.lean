import Rollcall.Submission.Assembly
import Rollcall.Retry

/-! What a save can come to: a report, or the reason why nothing more was stored. -/

namespace Rollcall

/-- What a database answers when a row is too large. -/
def rowTooLarge : String := "The update would cause the row to exceed the maximum allowed size"

/-- The constraint that allows one submission for each submitter and day. -/
def uniqueSubmission : String := "uq_submissions_submitter_date"

structure DatabaseError where
  message : String
  constraint : Option String := none
  deriving DecidableEq

namespace DatabaseError

/-- The answer may stand inside a longer message. -/
def isRowTooLarge (e : DatabaseError) : Bool := Text.occurs rowTooLarge.toList e.message.toList

def isDuplicate (e : DatabaseError) : Bool := e.constraint = some uniqueSubmission

end DatabaseError

inductive StorageError where
  | artifact (e : ArtifactError)
  | outsideRoot (path : String)
  | connect (backend : String)
  | objectStore (attempts : Nat)
  | database (e : Exhausted DatabaseError)
  | io (path : String)
  deriving DecidableEq

namespace StorageError

/-- The batch is at fault, not the store. -/
def isMalformed : StorageError → Bool
  | .artifact _ | .outsideRoot _ => true
  | _ => false

def message : StorageError → String
  | .artifact e => e.message
  | .outsideRoot p => "Refusing to write outside of the storage root: " ++ p
  | .connect b => "Failed to connect to " ++ b
  | .objectStore n => "Object store write failed after " ++ Decimal.nat n ++ " attempts"
  | .database e => "Database write failed: " ++ e.message (·.message)
  | .io p => "Failed to write " ++ p

end StorageError

structure SaveReport where
  written : Nat := 0
  /-- Blocks above the size that a wide row can hold. -/
  oversizedBlocks : Nat := 0
  /-- The submission was stored without its block. -/
  rawBlockDropped : Bool := false
  /-- The submission was there before. -/
  alreadyRecorded : Bool := false
  deriving DecidableEq

end Rollcall
