import Rollcall.Admission.Gate

/-! The whitelist is fetched anew at a steady pace, first as soon as the refresh starts. The outcomes of
the fetches are a sequence given from outside. -/

namespace Rollcall

/-- How long a whitelist stands until the next one is fetched, unless the settings say otherwise. -/
def defaultRefreshInterval : Nat := 600 * 1000000000

structure Refresh where
  interval : Nat
  fetches : Nat → Except WhitelistError Whitelist
  cell : WhitelistCell := {}
  /-- Fetches made so far. -/
  calls : Nat := 0
  now : Nat := 0

namespace Refresh

def tick (r : Refresh) : Refresh :=
  { r with cell := (r.cell.refresh (r.fetches r.calls)).2, calls := r.calls + 1 }

def ticks (r : Refresh) : Nat → Refresh
  | 0 => r
  | n + 1 => r.tick.ticks n

/-- The fetches due until `now`, one at the start and one after each whole interval. -/
def due (r : Refresh) : Nat := r.now / r.interval + 1

/-- Lets time pass, with the fetches that fall due. -/
def advance (r : Refresh) (d : Nat) : Refresh :=
  let r := { r with now := r.now + d }
  r.ticks (r.due - r.calls)

end Refresh

end Rollcall
