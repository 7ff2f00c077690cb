import Rollcall.Retry

/-! A rehearsal of an operation: its outcomes come from a script, whose last entry repeats, and the
time of each call is noted on a clock that only sleeping moves. -/

namespace Rollcall

structure Rehearsal (ε α : Type) where
  script : List (Except ε α)
  now : Nat := 0
  /-- When the calls were made, the last one first. -/
  calls : List Nat := []

namespace Rehearsal

variable {ε α : Type}

instance : Clocked (Rehearsal ε α) := ⟨fun d r => { r with now := r.now + d }⟩

/-- The next outcome. An empty script has none, and `fallback` stands in. -/
def call (fallback : Except ε α) : Act (Rehearsal ε α) ε α := fun r =>
  (r.script.head?.getD fallback,
    { r with
      script := if r.script.length ≤ 1 then r.script else r.script.tail
      calls := r.now :: r.calls })

end Rehearsal

end Rollcall
