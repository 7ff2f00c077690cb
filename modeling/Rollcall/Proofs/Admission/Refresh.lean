import Mathlib.Data.List.Basic
import Rollcall.Admission.Refresh
import Rollcall.Proofs.Admission.Separation

/-! A gate whose whitelist is fetched anew for as long as it is in use. The refresh and the gate share one cell;
requests, readers and fetches come in any order and without end, and a fetch may fail in any way or bring an empty
table. Main statement: the whitelist in force is always the one that was fetched last, failures aside, and the gate
goes by it. -/

namespace Rollcall

/-- A refresh and the quota of the gate whose cell it keeps. -/
structure RefreshedGate where
  refresh : Refresh
  quota : Quota
  /-- The snapshots that readers have taken, in the order in which they took them. -/
  held : List Whitelist := []

namespace RefreshedGate

/-- The gate looks at the cell of the refresh. -/
def gate (w : RefreshedGate) : Gate := { whitelist := some w.refresh.cell, quota := w.quota }

/-- What may come next: the whitelist is fetched, a reader takes the snapshot in force, or the gate is used. -/
inductive Step where
  | tick
  | hold
  | request (who : String) (r : Gate.Request) (t : Int)
  | prune (t : Int)

def step (w : RefreshedGate) : Step → RefreshedGate
  | .tick => { w with refresh := w.refresh.tick }
  | .hold => { w with held := w.held ++ [w.refresh.cell.load] }
  | .request who r t => { w with quota := (w.gate.serve who t r).2.quota }
  | .prune t => { w with quota := (w.gate.prune t).quota }

def run (w : RefreshedGate) (l : List Step) : RefreshedGate := l.foldl step w

/-- Before the first fetch. -/
def start (interval : Nat) (fetches : Nat → Except WhitelistError Whitelist) (quota : Quota) : RefreshedGate where
  refresh := { interval, fetches }
  quota := quota

def Step.isTick : Step → Bool
  | tick => true
  | hold | request _ _ _ | prune _ => false

def ticks (l : List Step) : Nat := l.countP Step.isTick

/-- The whitelists among the outcomes of the first fetches, in the order of the fetches. -/
def fetched (fetches : Nat → Except WhitelistError Whitelist) (n : Nat) : List Whitelist :=
  (List.range n).filterMap fun i => (fetches i).toOption

variable {fetches : Nat → Except WhitelistError Whitelist} {n : Nat} {w : RefreshedGate}

theorem fetched_succ (fetches : Nat → Except WhitelistError Whitelist) (n : Nat) :
    fetched fetches (n + 1) = fetched fetches n ++ (fetches n).toOption.toList := by
  rw [fetched, List.range_succ, List.filterMap_append]
  cases h : (fetches n).toOption <;> simp [fetched, h]

theorem fetched_ne_nil_iff : fetched fetches n ≠ [] ↔ ∃ i < n, ∃ l, fetches i = .ok l := by
  have htable (i : Nat) : ((fetches i).toOption = none) ↔ ¬∃ l, fetches i = .ok l := by
    cases fetches i <;> simp [Except.toOption]
  simp [fetched, htable]

/-- As many fetches were made, and the last whitelist that they brought is in force. -/
structure Follows (fetches : Nat → Except WhitelistError Whitelist) (n : Nat) (w : RefreshedGate) : Prop where
  fetches_eq : w.refresh.fetches = fetches
  calls_eq : w.refresh.calls = n
  snapshot_eq : w.refresh.cell.snapshot = (fetched fetches n).getLast?

namespace Follows

theorem start (interval : Nat) (fetches : Nat → Except WhitelistError Whitelist) (quota : Quota) :
    Follows fetches 0 (start interval fetches quota) := ⟨rfl, rfl, rfl⟩

/-- A fetch that fails leaves the last whitelist in force, any other one takes its place. -/
theorem tick (h : Follows fetches n w) : Follows fetches (n + 1) (w.step .tick) := by
  refine ⟨h.fetches_eq, congrArg (· + 1) h.calls_eq, ?_⟩
  show (w.refresh.cell.refresh (w.refresh.fetches w.refresh.calls)).2.snapshot = _
  rw [h.fetches_eq, h.calls_eq, fetched_succ]
  cases hn : fetches n with
  | error e => simpa [WhitelistCell.refresh, Except.toOption] using h.snapshot_eq
  | ok l => simp [WhitelistCell.refresh, WhitelistCell.store, Except.toOption]

theorem step (h : Follows fetches n w) (s : Step) : Follows fetches (n + s.isTick.toNat) (w.step s) := by
  cases s with
  | tick => exact h.tick
  | hold | request | prune => exact ⟨h.fetches_eq, h.calls_eq, h.snapshot_eq⟩

theorem run (h : Follows fetches n w) (l : List Step) : Follows fetches (n + ticks l) (w.run l) := by
  induction l generalizing n w with
  | nil => exact h
  | cons s l ih =>
    have hcount : ticks (s :: l) = s.isTick.toNat + ticks l := by
      rw [ticks, List.countP_cons, Nat.add_comm]
      cases s.isTick <;> rfl
    rw [hcount, ← Nat.add_assoc]
    exact ih (h.step s)

theorem load_eq (h : Follows fetches n w) : w.refresh.cell.load = (fetched fetches n).getLastD .empty := by
  rw [WhitelistCell.load, h.snapshot_eq, List.getLastD_eq_getLast?]

theorem isLoaded_iff (h : Follows fetches n w) :
    w.refresh.cell.isLoaded = true ↔ ∃ i < n, ∃ l, fetches i = .ok l := by
  rw [WhitelistCell.isLoaded, h.snapshot_eq, List.getLast?_isSome, fetched_ne_nil_iff]

theorem isReady_iff (h : Follows fetches n w) : w.gate.isReady = true ↔ ∃ i < n, ∃ l, fetches i = .ok l :=
  h.isLoaded_iff

theorem isListed_eq (h : Follows fetches n w) (who : String) :
    w.gate.isListed who = ((fetched fetches n).getLastD .empty).contains who := by
  rw [← h.load_eq]
  rfl

end Follows

/-- Readers keep what they have taken. -/
theorem held_prefix_run (w : RefreshedGate) (l : List Step) : w.held <+: (w.run l).held := by
  induction l generalizing w with
  | nil => exact List.prefix_rfl
  | cons s l ih =>
    refine List.IsPrefix.trans ?_ (ih (w.step s))
    cases s with
    | hold => exact List.prefix_append _ _
    | tick | request | prune => exact List.prefix_rfl

theorem enter_eq_notWhitelisted_iff (g : Gate) (who : String) (t : Int) :
    (g.enter who t).1 = .error .notWhitelisted ↔ g.isListed who = false := by
  by_cases h : g.isListed who
  · rw [Gate.enter_of_listed t h, h]
    split <;> simp
  · rw [Gate.enter_of_not_listed t h]
    simpa using h

/-- Whatever the fetches bring and whatever comes between them, at every moment: as many fetches were made as fell
due, and the last whitelist among them is in force, none before the first. The gate is ready once there is one, and
stays so; a snapshot that was taken stays what it was when it was taken; and who is not in the whitelist in force
is told so, and nobody else is, with the quota left alone. -/
theorem follows_last_fetched (interval : Nat) (fetches : Nat → Except WhitelistError Whitelist) (quota : Quota)
    (l : List Step) :
    let w := (start interval fetches quota).run l
    let inForce := (fetched fetches (ticks l)).getLastD .empty
    w.refresh.calls = ticks l ∧ w.refresh.cell.load = inForce ∧
      (w.refresh.cell.isLoaded = true ↔ ∃ i < ticks l, ∃ table, fetches i = .ok table) ∧
      w.gate.isReady = w.refresh.cell.isLoaded ∧
      (∀ more, w.gate.isReady = true → (w.run more).gate.isReady = true) ∧
      (w.step .hold).held = w.held ++ [inForce] ∧ (∀ more, w.held <+: (w.run more).held) ∧
      ∀ who t, ((w.gate.enter who t).1 = .error .notWhitelisted ↔ inForce.contains who = false) ∧
        (inForce.contains who = false → (w.gate.enter who t).2.quota = w.quota) := by
  intro w inForce
  have hw : Follows fetches (ticks l) w := by
    have hrun := (Follows.start interval fetches quota).run l
    rwa [Nat.zero_add] at hrun
  refine ⟨hw.calls_eq, hw.load_eq, hw.isLoaded_iff, rfl, fun more hready => ?_, ?_, held_prefix_run w, fun who t =>
    ⟨?_, fun hout => ?_⟩⟩
  · obtain ⟨i, hi, table, htable⟩ := hw.isReady_iff.1 hready
    exact (hw.run more).isReady_iff.2 ⟨i, Nat.lt_add_right _ hi, table, htable⟩
  · exact congrArg (w.held ++ [·]) hw.load_eq
  · rw [enter_eq_notWhitelisted_iff, hw.isListed_eq]
  · have hlisted : ¬w.gate.isListed who := by
      rw [hw.isListed_eq, hout]
      exact Bool.false_ne_true
    rw [Gate.enter_of_not_listed t hlisted]
    rfl

end RefreshedGate

end Rollcall
