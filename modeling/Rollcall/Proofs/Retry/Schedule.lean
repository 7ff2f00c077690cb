import Mathlib.Algebra.GroupWithZero.Nat
import Mathlib.Data.List.Basic
import Rollcall.Proofs.Retry

/-! When a retried operation is called. Its outcomes are given in advance, one for each call however many there
may be, and only sleeping moves the clock; so the times of the calls say how long the world slept in between. No
number of calls is counted anywhere: they end with the delays that the budget pays for. -/

namespace Rollcall

/-- An operation with given outcomes, on a clock of its own. -/
structure Drill (ε α : Type) where
  /-- The outcome of each call in turn. -/
  outcome : Nat → Except ε α
  now : Nat := 0
  /-- When the calls were made. -/
  calls : List Nat := []
  /-- How long the world slept each time. -/
  sleeps : List Nat := []

namespace Budget

/-- The delay behind failure number `n + 1`. -/
def pause (b : Budget) (n : Nat) : Nat := min (b.initialDelay * 2 ^ n) longestDelay

/-- When the call behind `n` failures is due. -/
def callTime (b : Budget) (n : Nat) : Nat := ((List.range n).map b.pause).sum

variable {b : Budget}

theorem pause_zero (h : b.initialDelay ≤ longestDelay) : b.pause 0 = b.initialDelay := by
  rw [pause, Nat.pow_zero, Nat.mul_one, Nat.min_eq_left h]

theorem doubledDelay_pause (b : Budget) (n : Nat) : doubledDelay (b.pause n) = b.pause (n + 1) := by
  rw [doubledDelay, pause, pause, Nat.pow_succ, ← Nat.mul_assoc]
  omega

theorem callTime_succ (b : Budget) (n : Nat) : b.callTime (n + 1) = b.callTime n + b.pause n := by
  simp [callTime, List.range_succ]

end Budget

namespace Drill

variable {ε α : Type} {b : Budget} {outcome : Nat → Except ε α} {n : Nat}

instance : Clocked (Drill ε α) := ⟨fun d s => { s with now := s.now + d, sleeps := s.sleeps ++ [d] }⟩

def call : Act (Drill ε α) ε α := fun s =>
  (s.outcome s.calls.length, { s with calls := s.calls ++ [s.now] })

/-- The call behind `n` failures is due. -/
def due (b : Budget) (outcome : Nat → Except ε α) (n : Nat) : Drill ε α where
  outcome := outcome
  now := b.callTime n
  calls := (List.range n).map b.callTime
  sleeps := (List.range n).map b.pause

/-- The call behind `n` failures was made. -/
def made (b : Budget) (outcome : Nat → Except ε α) (n : Nat) : Drill ε α :=
  { due b outcome n with calls := (List.range (n + 1)).map b.callTime }

theorem call_due : call (due b outcome n) = (outcome n, made b outcome n) := by
  simp [call, due, made, List.range_succ]

theorem sleep_made : Clocked.sleep (b.pause n) (made b outcome n) = due b outcome (n + 1) := by
  simp [Clocked.sleep, made, due, Budget.callTime_succ, List.range_succ]

/-- Failures that start when a call is due end when a later one is. -/
theorem of_failures {l : List ε} {t : Drill ε α}
    (h : Budget.Failures call (b.pause n) (due b outcome n) l t) :
    t = due b outcome (n + l.length) ∧ ∀ i, n ≤ i → i < n + l.length → ∃ e, outcome i = .error e := by
  generalize hd : b.pause n = d at h
  generalize hs : due b outcome n = s at h
  induction h generalizing n with
  | none d s => exact ⟨hs.symm, fun i hle hlt => absurd hlt (Nat.not_lt.2 hle)⟩
  | @call d s t u e l hcall _ ih =>
    subst hd hs
    rw [call_due, Prod.mk.injEq] at hcall
    obtain ⟨he, rfl⟩ := hcall
    obtain ⟨rfl, hlater⟩ := ih (b.doubledDelay_pause n).symm sleep_made.symm
    refine ⟨by rw [List.length_cons, Nat.add_right_comm, Nat.add_assoc], fun i hle hlt => ?_⟩
    rcases Nat.eq_or_lt_of_le hle with rfl | hlt'
    · exact ⟨e, he⟩
    · exact hlater i hlt' (by rw [List.length_cons] at hlt; omega)

/-- The operation is called up to its first success or as often as the budget allows, once at least. The call
behind so many failures is made at the sum of their delays, each twice as long as the one before it up to the
longest; nothing sleeps behind the last call, whose outcome is that of the whole. -/
theorem retry_call (b : Budget) (hb : b.initialDelay ≤ longestDelay) (outcome : Nat → Except ε α) :
    ∃ n < max 1 b.maxAttempts, (∀ i < n, ∃ e, outcome i = .error e) ∧
      ((∃ a, outcome n = .ok a) ∨ n + 1 = max 1 b.maxAttempts) ∧
      b.retry call { outcome } =
        ((outcome n).mapError fun e => ⟨max 1 b.maxAttempts, e⟩,
          { outcome
            now := b.callTime n
            calls := (List.range (n + 1)).map b.callTime
            sleeps := (List.range n).map b.pause }) := by
  obtain ⟨l, t, hl, hle, hlast⟩ := b.exists_failures_of_retry call { outcome }
  rw [← Budget.pause_zero hb] at hl
  obtain ⟨rfl, hfail⟩ := of_failures (n := 0) hl
  rw [Nat.zero_add, call_due] at hlast
  refine ⟨l.length, by omega, fun i hi => hfail i (Nat.zero_le i) (by omega), ?_⟩
  rcases hlast with ⟨a, u, hcall, hretry⟩ | ⟨hspent, e, u, hcall, hretry⟩
  · obtain ⟨ha, rfl⟩ := Prod.mk.inj hcall
    refine ⟨.inl ⟨a, ha⟩, ?_⟩
    rw [hretry, ha]
    rfl
  · obtain ⟨he, rfl⟩ := Prod.mk.inj hcall
    have hattempts : 1 + (b.maxAttempts - 1) = max 1 b.maxAttempts := by omega
    refine ⟨.inr (by omega), ?_⟩
    rw [hretry, he, hattempts]
    rfl

/-- Two failures and a success within three attempts, with the longest delay there is. -/
theorem retry_call_longestDelay :
    let b : Budget := ⟨3, longestDelay⟩
    let outcome (n : Nat) : Except String Nat := if n < 2 then .error "down" else .ok 7
    b.initialDelay ≤ longestDelay ∧
      b.retry call { outcome } = (.ok 7,
        { outcome
          now := 2 * longestDelay
          calls := [0, longestDelay, 2 * longestDelay]
          sleeps := [longestDelay, longestDelay] }) := by
  intro b outcome
  obtain ⟨n, hn, -, hend, hretry⟩ := retry_call b (Nat.le_refl _) outcome
  have htwo : n = 2 := by
    have hlt : n < 3 := hn
    rcases hend with ⟨a, ha⟩ | hspent
    · by_contra hne
      have hfail : outcome n = .error "down" := if_pos (by omega)
      rw [hfail] at ha
      cases ha
    · exact Nat.succ.inj hspent
  have hnow : b.callTime 2 = 2 * longestDelay := by decide
  have hcalls : (List.range 3).map b.callTime = [0, longestDelay, 2 * longestDelay] := by decide
  have hsleeps : (List.range 2).map b.pause = [longestDelay, longestDelay] := by decide
  rw [htwo, hnow, hcalls, hsleeps] at hretry
  exact ⟨Nat.le_refl _, hretry⟩

end Drill

end Rollcall
