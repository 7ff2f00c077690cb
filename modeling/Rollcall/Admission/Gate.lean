import Rollcall.Admission.Quota
import Rollcall.Admission.Whitelist

/-! The gate that submissions pass: the whitelist first, if there is one, then the quota. Until a
whitelist has been loaded it lets nobody in. -/

namespace Rollcall

inductive Rejection where
  | notWhitelisted
  | rateLimited
  deriving DecidableEq

namespace Rejection

def message : Rejection → String
  | .notWhitelisted => "Submitter is not on the whitelist"
  | .rateLimited => "Too many submissions from this submitter in the last hour"

def label : Rejection → String
  | .notWhitelisted => "whitelist"
  | .rateLimited => "rate_limit"

end Rejection

/-- The whitelist in force, none before the first one is loaded. -/
structure WhitelistCell where
  snapshot : Option Whitelist := none

namespace WhitelistCell

def isLoaded (c : WhitelistCell) : Bool := c.snapshot.isSome

def load (c : WhitelistCell) : Whitelist := c.snapshot.getD .empty

def store (_ : WhitelistCell) (w : Whitelist) : WhitelistCell := ⟨some w⟩

/-- Stores what was fetched; a failed fetch leaves the cell alone. -/
def refresh (c : WhitelistCell) (fetched : Except WhitelistError Whitelist) :
    Except WhitelistError Nat × WhitelistCell :=
  match fetched with
  | .ok w => (.ok w.entries.length, c.store w)
  | .error e => (.error e, c)

end WhitelistCell

structure Gate where
  /-- Without a cell everybody is let in. -/
  whitelist : Option WhitelistCell := none
  quota : Quota

namespace Gate

def isReady (g : Gate) : Bool := g.whitelist.all WhitelistCell.isLoaded

def isListed (g : Gate) (who : String) : Bool := g.whitelist.all fun c => c.load.contains who

def enter (g : Gate) (who : String) (now : Int) : Except Rejection Unit × Gate :=
  if !g.isListed who then (.error .notWhitelisted, g)
  else
    let (taken, q) := g.quota.record who now
    (if taken then .ok () else .error .rateLimited, { g with quota := q })

def release (g : Gate) (who : String) (admittedAt : Int) : Gate :=
  { g with quota := (g.quota.release who admittedAt).2 }

end Gate

end Rollcall
