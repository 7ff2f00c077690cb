import Rollcall.Ledger
import Rollcall.Time.Field
import Rollcall.Json.Reader
import Rollcall.Text.Split

/-! A submission is one sign of life of a node. It reaches the service as a batch of artifacts, each
with a path: the body of the submission, and the block that the node vouches for. -/

namespace Rollcall

instance bytesDecidableEq : DecidableEq ByteArray := fun a b =>
  if h : a.data = b.data then .isTrue (ByteArray.ext h) else .isFalse fun e => h (e ▸ rfl)

structure Submission where
  /-- The public key of the node. -/
  submitter : String := ""
  /-- The day under which the artifact is filed, as its path has it. -/
  date : String := ""
  /-- The time in the artifact's path. -/
  submittedAt : Instant := .epoch
  /-- The time that the node itself gives. -/
  createdAt : Instant := .epoch
  remoteAddr : String := ""
  peerId : String := ""
  blockHash : String := ""
  snarkWork : Option ByteArray := none
  rawBlock : Option ByteArray := none
  controlPort : Option UInt16 := none
  commit : Option String := none
  deriving DecidableEq

namespace Submission

def rawBlockSize (s : Submission) : Nat := s.rawBlock.elim 0 ByteArray.size

def withoutRawBlock (s : Submission) : Submission := { s with rawBlock := none }

end Submission

/-- Why an artifact is refused. -/
inductive ArtifactError where
  | invalidPath (path : String)
  | timestamp (value : String) (flaw : Time.Flaw)
  | body (fault : Json.Fault)
  | noValidSubmission
  deriving DecidableEq

/-- The reader of bodies words its own faults, so those have no text here. -/
def ArtifactError.message : ArtifactError → String
  | .invalidPath p => "Invalid artifact path: " ++ p
  | .timestamp v f => "Failed to parse submission time '" ++ v ++ "': " ++ f.message
  | .body _ => "Failed to decode submission body"
  | .noValidSubmission => "No valid submission in batch"

/-- Artifacts by path. -/
abbrev Batch := Ledger String ByteArray

namespace Batch

def underPrefix (b : Batch) (pre : String) : List (String × ByteArray) :=
  b.entries.filter fun e => Text.startsWith pre.toList e.1.toList

def totalBytes (b : Batch) : Nat := b.entries.foldl (fun n e => n + e.2.size) 0

end Batch

end Rollcall
