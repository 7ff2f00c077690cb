import Rollcall.Submission.Path
import Rollcall.Json.Shape
import Rollcall.Time.Rfc3339

/-! The body of a submission in JSON: an object with a member for each field, or the fields in their
order as an array. The day and the time of the submission are no fields: they come from its path. -/

namespace Rollcall

/-- The fields that a body has named so far. -/
structure BodyFields where
  submitter : Option String := none
  createdAt : Option Instant := none
  remoteAddr : Option String := none
  peerId : Option String := none
  blockHash : Option String := none
  snarkWork : Option (Option ByteArray) := none
  rawBlock : Option (Option ByteArray) := none
  controlPort : Option (Option UInt16) := none
  commit : Option (Option String) := none

namespace BodyFields

/-- A field that is not named has its default. -/
def toSubmission (f : BodyFields) : Submission where
  submitter := f.submitter.getD ""
  createdAt := f.createdAt.getD .epoch
  remoteAddr := f.remoteAddr.getD ""
  peerId := f.peerId.getD ""
  blockHash := f.blockHash.getD ""
  snarkWork := f.snarkWork.join
  rawBlock := f.rawBlock.join
  controlPort := f.controlPort.join
  commit := f.commit.join

open Json Json.Reader

def time : Reader Instant := textOf fun s => Time.readRfc3339? s.toList

def port : Reader (Option UInt16) :=
  optional (Nat.toUInt16 <$> naturalBelow 65536)

/-- A member of the object; one that is no field is passed over. -/
def member (key : String) (f : BodyFields) : Reader BodyFields :=
  match key with
  | "submitter" => do return { f with submitter := ← once f.submitter text }
  | "created_at" => do return { f with createdAt := ← once f.createdAt time }
  | "remote_addr" => do return { f with remoteAddr := ← once f.remoteAddr text }
  | "peer_id" => do return { f with peerId := ← once f.peerId text }
  | "block_hash" => do return { f with blockHash := ← once f.blockHash text }
  | "snark_work" => do return { f with snarkWork := ← once f.snarkWork optionalBytes }
  | "raw_block" => do return { f with rawBlock := ← once f.rawBlock optionalBytes }
  | "graphql_control_port" => do return { f with controlPort := ← once f.controlPort port }
  | "built_with_commit_sha" => do return { f with commit := ← once f.commit (optional text) }
  | _ => do
    colon
    skip
    return f

/-- The fields in their order, as many as there are. -/
def elements : Reader BodyFields := do
  let submitter ← element? true text
  let createdAt ← element? false time
  let remoteAddr ← element? false text
  let peerId ← element? false text
  let blockHash ← element? false text
  let snarkWork ← element? false optionalBytes
  let rawBlock ← element? false optionalBytes
  let controlPort ← element? false port
  let commit ← element? false (optional text)
  closeArray
  return { submitter, createdAt, remoteAddr, peerId, blockHash, snarkWork, rawBlock, controlPort, commit }

def reader : Reader BodyFields := do
  let c ← firstByte
  if c = 123 then drop; members member {}
  else if c = 91 then drop; elements
  else unfit c

end BodyFields

namespace Submission

def ofBody (data : ByteArray) : Except Json.Fault Submission :=
  (BodyFields.reader.all data.data.toList).map BodyFields.toSubmission

/-- A submission as it is filed: a fault of the path comes before one of the body. -/
def read (data : ByteArray) (path : String) : Except ArtifactError Submission := do
  let p ← SubmissionPath.read path
  match ofBody data with
  | .error f => .error (.body f)
  | .ok s => .ok { s with date := p.date, submittedAt := p.submittedAt }

/-- The members of the body; a field that may be absent is left out when it is. -/
def bodyMembers (s : Submission) : List (String × String) :=
  [("submitter", Json.text s.submitter),
    ("created_at", Json.text (String.ofList s.createdAt.write)),
    ("remote_addr", Json.text s.remoteAddr),
    ("peer_id", Json.text s.peerId),
    ("block_hash", Json.text s.blockHash)] ++
  (s.snarkWork.map fun b => ("snark_work", Json.text (Base64.encode b))).toList ++
  (s.rawBlock.map fun b => ("raw_block", Json.text (Base64.encode b))).toList ++
  (s.controlPort.map fun p => ("graphql_control_port", Decimal.nat p.toNat)).toList ++
  (s.commit.map fun c => ("built_with_commit_sha", Json.text c)).toList

/-- The body as an object without blanks. -/
def body (s : Submission) : String := Json.object s.bodyMembers

end Submission

end Rollcall
