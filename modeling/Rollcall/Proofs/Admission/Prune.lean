import Rollcall.Proofs.Admission.Quota

/-! What a pruning loses. It looks at the attempt of each submitter that was recorded last and takes it for the
latest one, but a request reads the clock before its turn comes, so attempts may be recorded in another order than
that of their instants. Main statement: a pruning changes a count exactly where an attempt that still counts was
recorded in front of one that no longer does; and if instants run backwards by no more than some delay, all counts
are right again once that delay has passed. -/

namespace Rollcall.Quota

variable {q : Quota} {who : String} {p now : Int}

theorem counts_of_le {t : Int} (h : p ≤ now) (ht : q.counts now t) : q.counts p t := by
  simp only [counts, decide_eq_true_eq] at ht ⊢
  omega

theorem count_eq_zero_iff : q.count who now = 0 ↔ ∀ t ∈ q.of who, ¬q.counts now t := by
  rw [count, List.length_eq_zero_iff, List.filter_eq_nil_iff]

/-- The attempt of a submitter that was recorded last counts at this instant. -/
def LastCounts (q : Quota) (who : String) (p : Int) : Prop := ∃ t ∈ (q.of who).getLast?, q.counts p t

theorem lastCounts_iff : q.LastCounts who p ↔ (q.of who).getLast?.any (q.counts p) = true := by
  unfold LastCounts
  cases (q.of who).getLast? <;> simp

theorem count_prune_of_lastCounts (h : q.LastCounts who p) (now : Int) :
    (q.prune p).count who now = q.count who now := by
  have hof : (q.prune p).of who = q.of who := by rw [of_prune, if_pos (lastCounts_iff.1 h)]
  unfold count
  rw [hof]
  rfl

theorem count_prune_of_not_lastCounts (h : ¬q.LastCounts who p) (now : Int) : (q.prune p).count who now = 0 := by
  have hof : (q.prune p).of who = [] := by rw [of_prune, if_neg (mt lastCounts_iff.2 h)]
  unfold count
  rw [hof]
  rfl

/-- Nothing is lost if the last attempt counts, or if none does any more. -/
theorem count_prune_eq_iff : (q.prune p).count who now = q.count who now ↔
    q.LastCounts who p ∨ ∀ t ∈ q.of who, ¬q.counts now t := by
  by_cases h : q.LastCounts who p
  · simp only [count_prune_of_lastCounts h now, h, true_or]
  · rw [count_prune_of_not_lastCounts h now, or_iff_right h, ← count_eq_zero_iff, eq_comm]

section Run

/-- What the requests of a service do to the quota: an attempt is recorded, or taken back. -/
inductive Step where
  | record (who : String) (t : Int)
  | release (who : String) (t : Int)

def step (q : Quota) : Step → Quota
  | .record who t => (q.record who t).2
  | .release who t => (q.release who t).2

def run (q : Quota) (l : List Step) : Quota := l.foldl step q

def Step.instant? (who : String) : Step → Option Int
  | .record x t => if x = who then some t else none
  | .release _ _ => none

/-- The instants at which a submitter asked, in the order in which the quota heard of them. -/
def instants (who : String) (l : List Step) : List Int := l.filterMap (Step.instant? who)

variable {l : List Step}

@[simp] theorem window_step (q : Quota) (s : Step) : (q.step s).window = q.window := by
  cases s with
  | record who t => exact q.record_window who t
  | release who t => exact q.release_window who t

@[simp] theorem window_run (q : Quota) (l : List Step) : (q.run l).window = q.window := by
  induction l generalizing q with
  | nil => rfl
  | cons s l ih => exact (ih (q.step s)).trans (q.window_step s)

/-- A step adds its own instant at the end, if any, and takes others away wherever they are. -/
theorem of_step_sublist (q : Quota) (s : Step) (who : String) :
    ((q.step s).of who).Sublist (q.of who ++ (s.instant? who).toList) := by
  cases s with
  | record x t =>
    show ((q.record x t).2.of who).Sublist _
    rw [of_record]
    by_cases hx : who = x
    · subst hx
      have hkept : (q.current who t).Sublist (q.of who) := List.dropWhile_sublist _
      cases (q.record who t).1 with
      | true => simpa [Step.instant?] using hkept.append_right [t]
      | false => simpa [Step.instant?] using hkept.trans (List.sublist_append_left _ [t])
    · simp [Step.instant?, hx, Ne.symm hx]
  | release x t =>
    show ((q.release x t).2.of who).Sublist _
    rw [of_release]
    by_cases hx : who = x
    · subst hx
      have hkept := (List.erase_sublist (a := t) (l := (q.of who).reverse)).reverse
      simpa [Step.instant?] using hkept
    · simp [Step.instant?, hx]

/-- What is kept was heard of, in this order. -/
theorem of_run_sublist (q : Quota) (l : List Step) (who : String) :
    ((q.run l).of who).Sublist (q.of who ++ instants who l) := by
  induction l generalizing q with
  | nil => simp [run, instants]
  | cons s l ih =>
    have hstep := (q.of_step_sublist s who).append_right (instants who l)
    have hinstants : instants who (s :: l) = (s.instant? who).toList ++ instants who l := by
      unfold instants
      cases h : s.instant? who <;> simp [h]
    rw [hinstants, ← List.append_assoc]
    exact (ih (q.step s)).trans hstep

end Run

/-- No instant lies behind a later one by more than the delay. -/
def Delayed (d : Nat) (l : List Int) : Prop := l.Pairwise fun s t : Int => s ≤ t + d

instance (d : Nat) (l : List Int) : Decidable (Delayed d l) :=
  inferInstanceAs (Decidable (l.Pairwise fun s t : Int => s ≤ t + d))

/-- Once the delay has passed, none of the attempts in front of one that does not count counts either. -/
theorem Delayed.not_counts {d : Nat} (h : Delayed d (q.of who)) (hp : ¬q.LastCounts who p) (hnow : p + d ≤ now) :
    ∀ t ∈ q.of who, ¬q.counts now t := by
  intro t ht
  obtain ⟨init, last, hl⟩ : ∃ init last, q.of who = init ++ [last] :=
    ⟨_, _, (List.dropLast_append_getLast (List.ne_nil_of_mem ht)).symm⟩
  have hlast : ¬q.counts p last := by simpa [LastCounts, hl] using hp
  have hle : t ≤ last + d := by
    rw [hl] at ht
    rcases List.mem_append.1 ht with hinit | hsame
    · unfold Delayed at h
      rw [hl, List.pairwise_append] at h
      exact h.2.2 t hinit last (List.mem_singleton.2 rfl)
    · rw [List.mem_singleton.1 hsame]
      omega
  simp only [counts, decide_eq_true_eq] at hlast ⊢
  omega

/-- A pruning keeps all counts from its instant on exactly if no submitter has an attempt that counts in front of a
last one that does not. In every run it keeps the counts from the moment on that the clocks of the requests are
certain to have passed its instant. -/
theorem prune_keeps_counts_iff (limit window : Nat) (l : List Step) (p : Int) :
    let q := run { limit, window } l
    ((∀ who now, p ≤ now → (q.prune p).count who now = q.count who now) ↔
      ∀ who, (∃ t ∈ q.of who, q.counts p t) → q.LastCounts who p) ∧
    ∀ (who : String) (d : Nat), Delayed d (instants who l) → ∀ now, p + d ≤ now →
      (q.prune p).count who now = q.count who now := by
  intro q
  refine ⟨⟨fun hkept who hsome => ?_, fun hlast who now hnow => ?_⟩, fun who d hd now hnow => ?_⟩
  · obtain ⟨t, ht, hcounts⟩ := hsome
    rcases count_prune_eq_iff.1 (hkept who p (Int.le_refl p)) with hlast | hnone
    · exact hlast
    · exact absurd hcounts (hnone t ht)
  · by_cases hl : q.LastCounts who p
    · exact count_prune_of_lastCounts hl now
    · refine count_prune_eq_iff.2 (.inr fun t ht hcounts => hl (hlast who ⟨t, ht, ?_⟩))
      exact counts_of_le hnow hcounts
  · have hof : Delayed d (q.of who) := hd.sublist (of_run_sublist _ l who)
    by_cases hl : q.LastCounts who p
    · exact count_prune_of_lastCounts hl now
    · exact count_prune_eq_iff.2 (.inr (hof.not_counts hl hnow))

section LateRequest

/-- Two requests of alice, of which the one that read the clock first comes second. -/
def lateRequest : List Step := [.record "alice" 10, .record "alice" 0]

/-- An attempt that counts is forgotten, since one that does not was recorded behind it. -/
theorem lateRequest_forgotten :
    let q := run (.ofLimit defaultLimit) lateRequest
    q.count "alice" hour = 1 ∧ (q.prune hour).count "alice" hour = 0 := by
  decide +kernel

theorem prune_keeps_counts_iff_lateRequest :
    let q := run { limit := 120, window := 3600 } lateRequest
    (Delayed 10 (instants "alice" lateRequest) ∧ (3600 : Int) + (10 : Nat) ≤ 3610) ∧
      (q.prune 3600).count "alice" 3610 = q.count "alice" 3610 ∧
      ¬∀ who now, 3600 ≤ now → (q.prune 3600).count who now = q.count who now := by
  intro q
  obtain ⟨hiff, hlater⟩ := prune_keeps_counts_iff 120 3600 lateRequest 3600
  have hd : Delayed 10 (instants "alice" lateRequest) := by decide
  have hnow : (3600 : Int) + (10 : Nat) ≤ 3610 := by decide
  have hfront : ∃ t ∈ q.of "alice", q.counts 3600 t := ⟨10, by decide, by decide⟩
  have hlast : ¬q.LastCounts "alice" 3600 := mt lastCounts_iff.1 (by decide)
  exact ⟨⟨hd, hnow⟩, hlater "alice" 10 hd 3610 hnow, fun h => hlast (hiff.1 h "alice" hfront)⟩

end LateRequest

end Rollcall.Quota
