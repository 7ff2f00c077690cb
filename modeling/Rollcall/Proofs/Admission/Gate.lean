import Rollcall.Admission.Gate
import Rollcall.Proofs.Admission.Covers
import Rollcall.Proofs.Admission.Quota
import Rollcall.Proofs.List

/-! A gate used by many requests at once, in whatever order their steps fall: expired attempts are dropped
from the front, idle submitters as a whole, and what was not stored is taken back from the middle. Main
statement: whenever the gate is asked, it counts exactly the standing admissions in the window, and lets a
listed submitter in exactly if the limit leaves room for one more. -/

namespace Rollcall

open scoped List

namespace Quota

variable {q : Quota} {who : String} {now : Int} {standing : List Int}

theorem counts_eq {t : Int} (h : t ≤ now) : q.counts now t = decide (now - t < q.window) := by
  simp only [counts, decide_eq_decide]
  omega

theorem current_eq_filter (h : Covers q.window now (q.of who) standing) :
    q.current who now = (q.of who).filter fun t => now - t < q.window := by
  have hmono : ∀ a b : Int, a ≤ b → q.counts now a → q.counts now b := by
    intro a b hab ha
    simp only [counts, decide_eq_true_eq] at ha ⊢
    omega
  rw [current, dropWhile_eq_filter hmono h.sorted]
  exact List.filter_congr fun t ht => counts_eq (h.le_latest t ht)

theorem count_eq_filter (h : Covers q.window now (q.of who) standing) :
    q.count who now = ((q.of who).filter fun t => now - t < q.window).length := by
  rw [count, List.filter_congr fun t ht => counts_eq (h.le_latest t ht)]

theorem covers_current (h : Covers q.window now (q.of who) standing) :
    Covers q.window now (q.current who now) standing := by
  rw [current_eq_filter h]
  exact h.drop fun t _ ht => by simpa using ht

/-- A submitter whose last attempt is out of the window has none in it. -/
theorem covers_prune (x : String) (h : Covers q.window now (q.of x) standing) :
    Covers q.window now ((q.prune now).of x) standing := by
  rw [of_prune]
  split
  · exact h
  · rename_i hlast
    have hout : ∀ t ∈ q.of x, (window q : Int) ≤ now - t := by
      intro t ht
      obtain ⟨init, last, hl⟩ : ∃ init last, q.of x = init ++ [last] :=
        ⟨_, _, (List.dropLast_append_getLast (List.ne_nil_of_mem ht)).symm⟩
      have hle : t ≤ last := by
        have hs := h.sorted
        rw [hl] at hs ht
        rcases List.mem_append.1 ht with ht | ht
        · exact (List.pairwise_append.1 hs).2.2 t ht last (by simp)
        · exact Int.le_of_eq (List.mem_singleton.1 ht)
      have hexp : q.counts now last = false := by simpa [hl] using hlast
      rw [counts_eq (h.le_latest last (by simp [hl]))] at hexp
      have := of_decide_eq_false hexp
      omega
    have hnil : (q.of x).filter (fun _ => false) = [] := by simp
    rw [← hnil]
    exact h.drop fun t ht _ => hout t ht

end Quota

namespace Gate

variable {g : Gate} {who : String} (now : Int)

theorem enter_of_listed (h : g.isListed who) : g.enter who now =
    (if (g.quota.record who now).1 then .ok () else .error .rateLimited,
      { g with quota := (g.quota.record who now).2 }) := by
  simp [enter, h]

theorem enter_of_not_listed (h : ¬g.isListed who) : g.enter who now = (.error .notWhitelisted, g) := by
  simp [enter, h]

theorem isListed_of_enter_ok {now : Int} (h : (g.enter who now).1 = .ok ()) : g.isListed who := by
  by_contra hw
  rw [enter_of_not_listed now hw] at h
  contradiction

theorem whitelist_enter (g : Gate) (who : String) (now : Int) :
    (g.enter who now).2.whitelist = g.whitelist := by
  by_cases h : g.isListed who
  · rw [enter_of_listed now h]
  · rw [enter_of_not_listed now h]

end Gate

/-- A gate in use, with the admissions that were granted and have not been taken back. -/
structure WatchedGate where
  gate : Gate
  /-- Who was let in, and when. -/
  standing : List (String × Int)
  /-- The latest instant of an admission or a pruning. -/
  latest : Int

namespace WatchedGate

/-- Asks to be let in. -/
def enter (w : WatchedGate) (who : String) (t : Int) : WatchedGate where
  gate := (w.gate.enter who t).2
  standing := match (w.gate.enter who t).1 with
    | .ok _ => (who, t) :: w.standing
    | .error _ => w.standing
  latest := t

/-- Takes back an admission whose submission was not stored. -/
def release (w : WatchedGate) (who : String) (t : Int) : WatchedGate :=
  { w with gate := w.gate.release who t, standing := w.standing.erase (who, t) }

def prune (w : WatchedGate) (t : Int) : WatchedGate :=
  { w with gate := { w.gate with quota := w.gate.quota.prune t }, latest := t }

/-- Puts another whitelist in force. -/
def store (w : WatchedGate) (l : Whitelist) : WatchedGate :=
  { w with gate := { w.gate with whitelist := w.gate.whitelist.map (·.store l) } }

/-- The runs of a gate by any number of requests. Time never goes back between admissions and prunings; an
admission that stands may be taken back at any later point. -/
inductive Reachable (limit window : Nat) : WatchedGate → Prop where
  | start (whitelist : Option WhitelistCell) (now : Int) :
    Reachable limit window ⟨{ whitelist, quota := { limit, window } }, [], now⟩
  | enter {w : WatchedGate} (who : String) {t : Int} :
    Reachable limit window w → w.latest ≤ t → Reachable limit window (w.enter who t)
  | release {w : WatchedGate} {who : String} {t : Int} :
    Reachable limit window w → (who, t) ∈ w.standing → Reachable limit window (w.release who t)
  | prune {w : WatchedGate} {t : Int} :
    Reachable limit window w → w.latest ≤ t → Reachable limit window (w.prune t)
  | store {w : WatchedGate} (l : Whitelist) :
    Reachable limit window w → Reachable limit window (w.store l)

/-- The instants at which one submitter was let in. -/
def instantsOf (who : String) (l : List (String × Int)) : List Int :=
  (l.filter (·.1 = who)).map (·.2)

/-- The standing admissions of one submitter that lie less than the window before `now`. -/
def inWindow (w : WatchedGate) (window : Nat) (who : String) (now : Int) : List Int :=
  (instantsOf who w.standing).filter fun t => now - t < window

theorem instantsOf_cons (e : String × Int) (l : List (String × Int)) (who : String) :
    instantsOf who (e :: l) = if e.1 = who then e.2 :: instantsOf who l else instantsOf who l := by
  by_cases h : e.1 = who <;> simp [instantsOf, h]

theorem instantsOf_erase {e : String × Int} {l : List (String × Int)} (h : e ∈ l) (who : String) :
    instantsOf who l ~ instantsOf who (e :: l.erase e) :=
  ((List.perm_cons_erase h).filter _).map _

/-- The quota covers the standing admissions of every submitter. -/
structure Exact (limit window : Nat) (w : WatchedGate) : Prop where
  limit_eq : w.gate.quota.limit = limit
  window_eq : w.gate.quota.window = window
  covers : ∀ who, Covers window w.latest (w.gate.quota.of who) (instantsOf who w.standing)

namespace Exact

variable {limit window : Nat} {w : WatchedGate} {t : Int}

theorem start (whitelist : Option WhitelistCell) (now : Int) :
    Exact limit window ⟨{ whitelist, quota := { limit, window } }, [], now⟩ :=
  ⟨rfl, rfl, fun _ => .nil⟩

/-- A refusal leaves the standing admissions alone, an admission adds to them and to what is kept. -/
theorem enter (h : Exact limit window w) (ht : w.latest ≤ t) (who : String) :
    Exact limit window (w.enter who t) := by
  have hlater := fun x => (h.covers x).later ht
  by_cases hl : w.gate.isListed who
  · have hcur : Covers window t (w.gate.quota.current who t) (instantsOf who w.standing) :=
      h.window_eq ▸ Quota.covers_current (h.window_eq.symm ▸ hlater who)
    refine ⟨by simp [WatchedGate.enter, Gate.enter_of_listed t hl, h.limit_eq],
      by simp [WatchedGate.enter, Gate.enter_of_listed t hl, h.window_eq], fun x => ?_⟩
    simp only [WatchedGate.enter, Gate.enter_of_listed t hl, Quota.of_record]
    by_cases hx : x = who
    · subst hx
      by_cases hr : (w.gate.quota.record x t).1
      · simpa [hr, instantsOf_cons] using hcur.add
      · simpa [hr] using hcur
    · by_cases hr : (w.gate.quota.record who t).1
      · simpa [hr, hx, Ne.symm hx, instantsOf_cons] using hlater x
      · simpa [hr, hx] using hlater x
  · simp only [WatchedGate.enter, Gate.enter_of_not_listed t hl]
    exact ⟨h.limit_eq, h.window_eq, hlater⟩

theorem release (h : Exact limit window w) {who : String} (hm : (who, t) ∈ w.standing) :
    Exact limit window (w.release who t) := by
  refine ⟨by simp [WatchedGate.release, Gate.release, h.limit_eq],
    by simp [WatchedGate.release, Gate.release, h.window_eq], fun x => ?_⟩
  simp only [WatchedGate.release, Gate.release, Quota.of_release]
  have hperm := instantsOf_erase hm x
  rw [instantsOf_cons] at hperm
  by_cases hx : x = who
  · subst hx
    simpa using (h.covers x).takeBack (by simpa using hperm)
  · have hcov := h.covers x
    simp only [Ne.symm hx, if_false] at hperm
    simpa [hx] using hcov.congr hperm

theorem prune (h : Exact limit window w) (ht : w.latest ≤ t) : Exact limit window (w.prune t) :=
  ⟨h.limit_eq, h.window_eq, fun x =>
    h.window_eq ▸ Quota.covers_prune x (h.window_eq.symm ▸ (h.covers x).later ht)⟩

theorem store (h : Exact limit window w) (l : Whitelist) : Exact limit window (w.store l) :=
  ⟨h.limit_eq, h.window_eq, h.covers⟩

end Exact

theorem Reachable.exact {limit window : Nat} {w : WatchedGate} (h : Reachable limit window w) :
    Exact limit window w := by
  induction h with
  | start whitelist now => exact .start whitelist now
  | enter who _ ht ih => exact ih.enter ht who
  | release _ hm ih => exact ih.release hm
  | prune _ ht ih => exact ih.prune ht
  | store l _ ih => exact ih.store l

/-- The quota is exact in every run: it counts the standing admissions in the window, no more and no fewer,
and a listed submitter is let in exactly if they are fewer than the limit. -/
theorem quota_exact {limit window : Nat} {w : WatchedGate} (h : Reachable limit window w) (who : String)
    {now : Int} (hn : w.latest ≤ now) :
    w.gate.quota.count who now = (w.inWindow window who now).length ∧
      (w.gate.isListed who →
        ((w.gate.enter who now).1 = .ok () ↔ (w.inWindow window who now).length < limit)) := by
  have hex := h.exact
  obtain rfl := hex.limit_eq
  obtain rfl := hex.window_eq
  have hcov := (hex.covers who).later hn
  have hcount : w.gate.quota.count who now = (w.inWindow w.gate.quota.window who now).length := by
    rw [Quota.count_eq_filter hcov, inWindow, hcov.count_eq Int.le_rfl]
  refine ⟨hcount, fun hl => ?_⟩
  rw [Gate.enter_of_listed now hl, Quota.record_fst, Quota.current_eq_filter hcov,
    ← Quota.count_eq_filter hcov, hcount]
  simp only [decide_eq_true_eq]
  split <;> simp_all

/-- Two admissions of which the first is taken back: one counts, and there is room for one more. -/
theorem quota_exact_after_release :
    let start : WatchedGate := ⟨{ quota := { limit := 2, window := 10 } }, [], 0⟩
    let w := ((start.enter "a" 0).enter "a" 4).release "a" 0
    (Reachable 2 10 w ∧ w.latest ≤ 13 ∧ w.gate.isListed "a") ∧
      w.gate.quota.count "a" 13 = (w.inWindow 10 "a" 13).length ∧ w.inWindow 10 "a" 13 = [4] ∧
      (w.gate.enter "a" 13).1 = .ok () := by
  intro start w
  have hr : Reachable 2 10 w :=
    .release (.enter "a" (.enter "a" (.start none 0) (by decide)) (by decide)) (by decide)
  have hl : w.gate.isListed "a" := by decide
  obtain ⟨hcount, henter⟩ := quota_exact hr "a" (show w.latest ≤ 13 by decide)
  exact ⟨⟨hr, by decide, hl⟩, hcount, by decide, (henter hl).2 (by decide)⟩

end WatchedGate

end Rollcall
