import Rollcall.Service.Metrics
import Rollcall.Storage.Backend
import Rollcall.Submission.Request

/-! The service as it answers requests. A submission is assembled from its batch, passes the gate and is
saved; one that is not stored does not count against the quota of its submitter. -/

namespace Rollcall

/-- The largest body of a request in bytes. -/
def largestPayload : Nat := 50 * 1024 * 1024

structure Request where
  method : String
  /-- The path, with a query behind it if there is one. -/
  target : String
  body : ByteArray

inductive Reply where
  | banner
  | ok
  | unavailable
  /-- The body is no request. -/
  | unreadable (f : Json.Fault)
  | malformed (e : StorageError)
  | rejected (r : Rejection)
  | failed
  | tooLarge
  | notFound
  | wrongMethod
  deriving DecidableEq

namespace Reply

def status : Reply → Nat
  | .banner | .ok => 200
  | .unreadable _ | .malformed _ => 400
  | .rejected .notWhitelisted => 401
  | .notFound => 404
  | .wrongMethod => 405
  | .tooLarge => 413
  | .rejected .rateLimited => 429
  | .failed => 500
  | .unavailable => 503

def statusBody (s : String) : String := Json.object [("status", Json.text s)]

def errorBody (s : String) : String := Json.object [("error", Json.text s)]

def body : Reply → String
  | .banner => "delegation backend service"
  | .ok => statusBody "ok"
  | .unavailable => statusBody "unavailable"
  | .unreadable f => errorBody (ArtifactError.body f).message
  | .malformed e => errorBody e.message
  | .rejected r => errorBody r.message
  | .failed => errorBody "Failed to save submission"
  | .tooLarge => "Failed to buffer the request body: length limit exceeded"
  | .notFound | .wrongMethod => ""

end Reply

structure Service where
  backend : Backend
  gate : Gate
  metrics : Metrics := {}

namespace Service

/-- Turns a malformed submission away. -/
def refuse (s : Service) (r : Reply) : Reply × Service :=
  (r, { s with metrics := s.metrics.reject .malformed })

/-- Saves a batch that passed the gate at that time. -/
def save (s : Service) (now : Int) (submitter : String) (b : Batch) : Reply × Service :=
  let (result, backend) := s.backend.save b
  let s := { s with
    backend
    gate := match result with
      | .ok _ => s.gate
      | .error _ => s.gate.release submitter now
    metrics := { s.metrics with measuredSaves := s.metrics.measuredSaves + 1 } }
  match result with
  | .ok report => (.ok, { s with metrics := s.metrics.recordSave report })
  | .error e =>
    if e.isMalformed then s.refuse (.malformed e)
    else (.failed, { s with metrics := { s.metrics with saveFailures := s.metrics.saveFailures + 1 } })

/-- Lets a batch of a submitter through the gate. -/
def admitBatch (s : Service) (now : Int) (submitter : String) (b : Batch) : Reply × Service :=
  match s.gate.enter submitter now with
  | (.error r, gate) =>
    (.rejected r, { s with gate, metrics := s.metrics.reject (.ofRejection r) })
  | (.ok _, gate) => { s with gate }.save now submitter b

def submitBatch (s : Service) (now : Int) (b : Batch) : Reply × Service :=
  match b.assemble with
  | .error e => s.refuse (.malformed (.artifact e))
  | .ok x => s.admitBatch now x.submitter b

/-- Answers a submission that arrives at that time. -/
def submit (s : Service) (now : Int) (body : ByteArray) : Reply × Service :=
  let s := { s with metrics := { s.metrics with received := s.metrics.received + 1 } }
  match Batch.ofRequest body with
  | .error f => s.refuse (.unreadable f)
  | .ok b => s.submitBatch now b

def health (s : Service) : Reply := if s.gate.isReady then .ok else .unavailable

/-- A path without its query and without a fragment. -/
def pathOf (target : String) : String := String.ofList (target.toList.takeWhile fun c => c ≠ '?' ∧ c ≠ '#')

/-- Answers a request. What can be read can also be asked for without its body. -/
def answer (s : Service) (now : Int) (r : Request) : Reply × Service :=
  let read (reply : Reply) := (if r.method = "GET" ∨ r.method = "HEAD" then reply else .wrongMethod, s)
  match pathOf r.target with
  | "/" => read .banner
  | "/health" => read s.health
  | "/v1/submit" =>
    if r.method ≠ "POST" then (.wrongMethod, s)
    else if largestPayload < r.body.size then (.tooLarge, s)
    else s.submit now r.body
  | _ => (.notFound, s)

/-- The text of a reply as it is sent. -/
def sentBody (r : Request) (reply : Reply) : String := if r.method = "HEAD" then "" else reply.body

end Service

end Rollcall
