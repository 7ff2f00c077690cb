import Rollcall.Time.Instant

/-! The replay of one node's submissions in the order of time. The first one is a hit; each later one is a
hit if it comes strictly more than the expected gap, less a tolerance, after the hit before it. The replay breaks
off where that gap leaves the calendar. -/

namespace Rollcall

inductive Timeline where
  | unseen
  | tracking (lastHit : Instant) (hits : Nat)
  deriving DecidableEq

namespace Timeline

/-- The tolerance in minutes. -/
def tolerance : Int := 5

/-- The gap after a hit in nanoseconds, which may be negative. -/
def gap (sync : UInt32) : Int := ((sync.toNat : Int) - tolerance) * (60 * billion)

/-- The state after one more submission. There is none if the calendar does not have the end of the gap, whether
or not the submission is a hit. -/
def next? (sync : UInt32) (s : Timeline) (t : Instant) : Option Timeline :=
  match s with
  | unseen => some (tracking t 1)
  | tracking lastHit hits =>
    (lastHit.add? (gap sync)).map fun due => if due < t then tracking t (hits + 1) else s

def hits : Timeline → Nat
  | unseen => 0
  | tracking _ n => n

end Timeline

end Rollcall
