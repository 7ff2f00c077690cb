import Rollcall.Analysis.Identity
import Rollcall.Analysis.Period
import Rollcall.Analysis.Timeline
import Rollcall.Ledger
import Rollcall.Number.Fixed

/-! The uptime of each node over a period: how many of the expected submissions arrived on time. The submissions are
gone through once, in the order of time; a roll keeps how each node stands, and who came first. -/

namespace Rollcall

inductive AnalysisError where
  | period (e : PeriodError)
  | nothingExpected
  | objectStore
  | io
  /-- The analysis breaks off at a gap that leaves the calendar. Nothing answers this one: the program ends. -/
  | overflow
  deriving DecidableEq

def AnalysisError.message : AnalysisError → String
  | .period e => "Invalid period: " ++ e.message
  | .nothingExpected => "The period is too short for the sync period, no submission is expected"
  | .objectStore => "Storage access failed"
  | .io => "Failed to write the report"
  | .overflow => "`DateTime + TimeDelta` overflowed"

/-- The submissions that a node makes over the period if it never fails: so many in each whole hour. -/
def expectedCount (sync : UInt32) (p : Period) : Except AnalysisError Nat :=
  let n := if sync = 0 then 0 else 60 / sync.toNat * p.hours.toNat
  if n = 0 then .error .nothingExpected else .ok n

/-- At most a hundred. -/
def percent (hits expected : Nat) : Binary64 :=
  if expected = 0 then .zero
  else (((Binary64.ofNat hits).times (.ofNat 100)).dividedBy (.ofNat expected)).least (.ofNat 100)

def percentText (p : Binary64) : String := p.writeFixed 2

structure Uptime where
  identity : Identity
  hits : Nat
  expected : Nat
  deriving DecidableEq

namespace Uptime

def percent (u : Uptime) : Binary64 := Rollcall.percent u.hits u.expected

def text (u : Uptime) : String := percentText u.percent

end Uptime

/-- The nodes that have given a sign so far. -/
structure Roll where
  /-- In the order of their first signs. -/
  order : List Identity := []
  /-- How each one stands, by its identifier. -/
  timelines : Ledger String Timeline := .empty

namespace Roll

def timeline (r : Roll) (id : String) : Timeline := (r.timelines.get? id).getD .unseen

/-- The roll after one more sign of a node. -/
def record (sync : UInt32) (r : Roll) (i : Identity) (t : Instant) : Except AnalysisError Roll :=
  match (r.timeline i.id).next? sync t with
  | none => .error .overflow
  | some s => .ok {
      order := if r.timelines.contains i.id then r.order else r.order ++ [i]
      timelines := r.timelines.insert i.id s }

end Roll

structure Analysis where
  period : Period
  /-- Minutes between two expected submissions. -/
  sync : UInt32
  ignoreIps : Bool

namespace Analysis

/-- The submissions in the period by time; those of one time keep their order. -/
def inPeriod (a : Analysis) (l : List Submission) : List Submission :=
  (l.filter fun s => a.period.contains s.submittedAt).mergeSort fun s t =>
    s.submittedAt ≤ t.submittedAt

/-- The roll after all submissions in the period. -/
def roll (a : Analysis) (l : List Submission) : Except AnalysisError Roll :=
  (a.inPeriod l).foldlM (fun r s => r.record a.sync (Identity.of a.ignoreIps s) s.submittedAt) {}

/-- A row for each node, in the order of the first signs. -/
def rows (a : Analysis) (l : List Submission) : Except AnalysisError (List Uptime) := do
  let expected ← expectedCount a.sync a.period
  let r ← a.roll l
  return r.order.map fun i => { identity := i, hits := (r.timeline i.id).hits, expected }

/-- The percentage of one node, zero if it gave no sign. -/
def percentOf (a : Analysis) (i : Identity) (l : List Submission) : Except AnalysisError String := do
  let rows ← a.rows l
  return percentText (((rows.find? fun u => u.identity.id = i.id).map Uptime.percent).getD .zero)

end Analysis

end Rollcall
