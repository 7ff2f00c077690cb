import Rollcall.Admission.Gate
import Rollcall.Number.Power
import Rollcall.Storage.Error

/-! What the service counts about requests, and the text in which it tells. Counters never go down; they are told
within sixty-four bits. Durations are counted but not told. -/

namespace Rollcall

/-- Why a submission was turned away. -/
inductive RejectReason where
  | whitelist | rateLimit | malformed
  deriving DecidableEq

namespace RejectReason

def name : RejectReason → String
  | .whitelist => "whitelist"
  | .rateLimit => "rate_limit"
  | .malformed => "malformed"

def all : List RejectReason := [.whitelist, .rateLimit, .malformed]

def ofRejection : Rejection → RejectReason
  | .notWhitelisted => .whitelist
  | .rateLimited => .rateLimit

end RejectReason

structure Metrics where
  received : Nat := 0
  accepted : Nat := 0
  /-- Submissions turned away, by reason. -/
  rejected : RejectReason → Nat := fun _ => 0
  saveFailures : Nat := 0
  oversizedBlocks : Nat := 0
  degradedInserts : Nat := 0
  duplicateInserts : Nat := 0
  /-- Saves of which the duration was measured. -/
  measuredSaves : Nat := 0

namespace Metrics

def reject (m : Metrics) (r : RejectReason) : Metrics :=
  { m with rejected := fun s => m.rejected s + if s = r then 1 else 0 }

/-- Counts a batch that was stored. -/
def recordSave (m : Metrics) (r : SaveReport) : Metrics :=
  { m with
    accepted := m.accepted + 1
    oversizedBlocks := m.oversizedBlocks + r.oversizedBlocks
    degradedInserts := m.degradedInserts + if r.rawBlockDropped then 1 else 0
    duplicateInserts := m.duplicateInserts + if r.alreadyRecorded then 1 else 0 }

/-- A counter with its samples, each with what follows its name. -/
structure Family where
  name : String
  help : String
  kind : String := "counter"
  samples : List (String × Nat)

def counter (name help : String) (n : Nat) : Family := { name, help, samples := [("_total", n)] }

/-- The reasons that occurred, by name. -/
def rejectedSamples (m : Metrics) : List (String × Nat) :=
  ([.malformed, .rateLimit, .whitelist].filter fun r => 0 < m.rejected r).map fun r =>
    ("_total\x7breason=\"" ++ r.name ++ "\"\x7d", m.rejected r)

def families (m : Metrics) : List Family :=
  [counter "submissions_received" "Submission requests received" m.received,
    counter "submissions_accepted" "Submissions stored, including already recorded ones" m.accepted,
    { name := "submissions_rejected", help := "Submissions turned away, by reason",
      samples := m.rejectedSamples },
    counter "save_failures" "Submissions the storage backend failed to save" m.saveFailures,
    counter "oversized_blocks" "Raw blocks above the maximum block size" m.oversizedBlocks,
    counter "degraded_inserts" "Wide-column rows stored without their raw block" m.degradedInserts,
    counter "duplicate_inserts" "Relational inserts of a submission already recorded"
      m.duplicateInserts,
    { name := "save_duration_seconds", help := "Time spent saving a batch", kind := "histogram",
      samples := [("_count", m.measuredSaves)] }]

def Family.lines (f : Family) : List String :=
  let name := "uptime_" ++ f.name
  ["# HELP " ++ name ++ " " ++ f.help ++ ".", "# TYPE " ++ name ++ " " ++ f.kind] ++
    f.samples.map fun (label, n) => name ++ label ++ " " ++ Decimal.nat (n % twoTo 64)

/-- The lines of all counters. -/
def exposition (m : Metrics) : List String := m.families.flatMap Family.lines ++ ["# EOF"]

end Metrics

end Rollcall
