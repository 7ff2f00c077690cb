import Rollcall.Number.Power
import Rollcall.Text.Decimal

/-! Retrying an operation within a budget. The operation changes a world and may fail; between two calls
the world sleeps, twice as long each time. A budget always pays for one call. -/

namespace Rollcall

/-- What can let time pass, in nanoseconds. -/
class Clocked (σ : Type) where
  sleep : Nat → σ → σ

/-- A step in a world, which may fail and leaves its effects behind also when it fails. -/
abbrev Act (σ ε : Type) := ExceptT ε (StateM σ)

namespace Act

variable {σ ε ε' α : Type}

/-- The step as a function on worlds. -/
def of (f : σ → Except ε α × σ) : Act σ ε α := f

def runIn (x : Act σ ε α) (s : σ) : Except ε α × σ := x s

/-- The outcome of a step as a value. -/
def outcome (x : Act σ ε α) : Act σ ε' (Except ε α) := fun s => ((.ok (x s).1), (x s).2)

def mapError (f : ε → ε') (x : Act σ ε α) : Act σ ε' α := fun s => ((x s).1.mapError f, (x s).2)

end Act

/-- No delay is longer. -/
def longestDelay : Nat := twoTo 64 * 1000000000 - 1

/-- The delay after a delay. -/
def doubledDelay (d : Nat) : Nat := min (2 * d) longestDelay

/-- The first `n` delays of a backoff that starts with `d`. -/
def backoff (d : Nat) : Nat → List Nat
  | 0 => []
  | n + 1 => d :: backoff (doubledDelay d) n

structure Budget where
  maxAttempts : Nat
  initialDelay : Nat
  deriving DecidableEq, Repr

/-- The last error, once the budget is spent. -/
structure Exhausted (ε : Type) where
  attempts : Nat
  last : ε
  deriving DecidableEq

def Exhausted.message {ε : Type} (text : ε → String) (e : Exhausted ε) : String :=
  "Operation failed after " ++ Decimal.nat e.attempts ++ " attempts: " ++ text e.last

namespace Budget

/-- For writes on the way of a request. -/
def storage : Budget := ⟨3, 300000000⟩

/-- For the table that records migrations. -/
def historyTable : Budget := ⟨5, 1000000000⟩

/-- For one statement of a migration. -/
def migration : Budget := ⟨10, 1000000000⟩

/-- For a schema that another process is creating. -/
def schemaWait : Budget := ⟨15, 1000000000⟩

/-- The delays that the budget allows, at most `limit` of them. -/
def delays (b : Budget) (limit : Nat) : List Nat :=
  backoff b.initialDelay (min limit (b.maxAttempts - 1))

variable {σ ε α : Type} [Clocked σ]

/-- Calls number `attempt` and the `left` ones after it. -/
def retryFrom (op : Act σ ε α) : (left delay attempt : Nat) → Act σ (Exhausted ε) α
  | 0, _, attempt => op.mapError (⟨attempt, ·⟩)
  | left + 1, delay, attempt => fun s =>
    match op s with
    | (.ok a, s) => (.ok a, s)
    | (.error _, s) =>
      retryFrom op left (doubledDelay delay) (attempt + 1) (Clocked.sleep delay s)

def retry (b : Budget) (op : Act σ ε α) : Act σ (Exhausted ε) α :=
  retryFrom op (b.maxAttempts - 1) b.initialDelay 1

end Budget

end Rollcall
