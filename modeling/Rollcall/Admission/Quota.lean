import Rollcall.Ledger

/-! How many attempts each submitter has left. An attempt counts from its instant on for the length of
the window; clocks of different requests may disagree, so instants may run backwards. -/

namespace Rollcall

structure Quota where
  limit : Nat
  /-- The length of the window in nanoseconds. -/
  window : Nat
  /-- The attempts of each submitter, in the order in which they were made. -/
  attempts : Ledger String (List Int) := .empty

namespace Quota

def hour : Nat := 3600 * 1000000000

def defaultLimit : Nat := 120

def ofLimit (limit : Nat) : Quota := { limit, window := hour }

/-- An attempt at `t` lies in the window that ends at `now`; one in the future does. -/
def counts (q : Quota) (now t : Int) : Bool := (now - t).toNat < q.window

def of (q : Quota) (who : String) : List Int := (q.attempts.get? who).getD []

/-- Drops the oldest attempts as long as they are out of the window. -/
def current (q : Quota) (who : String) (now : Int) : List Int :=
  (q.of who).dropWhile fun t => !q.counts now t

/-- Takes an attempt if the limit leaves room for it. A refused submitter is tracked all the same. -/
def record (q : Quota) (who : String) (now : Int) : Bool × Quota :=
  let l := q.current who now
  if q.limit ≤ l.length then (false, { q with attempts := q.attempts.insert who l })
  else (true, { q with attempts := q.attempts.insert who (l ++ [now]) })

/-- Takes back the latest attempt made at that instant. -/
def release (q : Quota) (who : String) (t : Int) : Bool × Quota :=
  match q.attempts.get? who with
  | none => (false, q)
  | some l =>
    if l.contains t then
      (true, { q with attempts := q.attempts.insert who (l.reverse.erase t).reverse })
    else (false, q)

def count (q : Quota) (who : String) (now : Int) : Nat :=
  ((q.of who).filter (q.counts now)).length

/-- Forgets the submitters whose last attempt is out of the window. -/
def prune (q : Quota) (now : Int) : Quota :=
  { q with attempts := q.attempts.filter fun e => e.2.getLast?.any (q.counts now) }

/-- The number of submitters that are remembered. -/
def tracked (q : Quota) : Nat := q.attempts.entries.length

end Quota

end Rollcall
