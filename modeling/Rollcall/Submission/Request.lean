import Rollcall.Submission.Body

/-! A request carries a batch in JSON: an object whose one member `objects` holds the artifacts by path,
in base64, or that member alone as an array. -/

namespace Rollcall

namespace Batch

open Json Json.Reader

/-- One artifact; of equal paths the last one counts. -/
def artifact (path : String) (b : Batch) : Reader Batch := do
  colon
  return b.insert path (← bytes)

def artifacts : Reader Batch := do
  let c ← firstByte
  if c = 123 then drop; members artifact .empty else unfit c

def requestMember (key : String) (known : Option Batch) : Reader (Option Batch) :=
  match key with
  | "objects" => once known artifacts
  | _ => do
    colon
    skip
    return known

def required (b : Option Batch) : Reader Batch :=
  match b with
  | some b => pure b
  | none => fail .unfit

def request : Reader Batch := do
  let c ← firstByte
  if c = 123 then
    drop
    required (← members requestMember none)
  else if c = 91 then
    drop
    let b ← required (← element? true artifacts)
    closeArray
    return b
  else unfit c

def ofRequest (data : ByteArray) : Except Json.Fault Batch := request.all data.data.toList

def toRequest (b : Batch) : String :=
  Json.object [("objects", Json.object (b.entries.map fun e => (e.1, Json.text (Base64.encode e.2))))]

end Batch

end Rollcall
