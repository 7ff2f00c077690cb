import Rollcall.Proofs.Admission.Gate

/-! Submitters who share a gate do not notice each other. A request reads and changes the attempts of its own
submitter alone; pruning judges each submitter by their own attempts, and a new whitelist is the same for all.
So the answers that a submitter gets in a run are those of the run without the requests of all others, however
the clocks of the requests run. What is left open is what the number of remembered submitters tells. -/

namespace Rollcall

namespace Quota

variable {q p : Quota} {who x : String} {t : Int}

theorem release_fst (q : Quota) (who : String) (t : Int) :
    (q.release who t).1 = (q.of who).contains t := by
  simp only [release, of]
  split
  · rename_i h
    simp [h]
  · rename_i l h
    split
    · rename_i hc
      simp only [h, Option.getD_some, hc]
    · rename_i hc
      simp only [h, Option.getD_some, hc]

/-- Two quotas are the same to one submitter. -/
structure AgreeFor (who : String) (q p : Quota) : Prop where
  limit_eq : q.limit = p.limit
  window_eq : q.window = p.window
  of_eq : q.of who = p.of who

namespace AgreeFor

theorem refl (who : String) (q : Quota) : AgreeFor who q q := ⟨rfl, rfl, rfl⟩

theorem trans {r : Quota} (h : AgreeFor who q p) (h' : AgreeFor who p r) : AgreeFor who q r :=
  ⟨h.limit_eq.trans h'.limit_eq, h.window_eq.trans h'.window_eq, h.of_eq.trans h'.of_eq⟩

theorem counts_eq (h : AgreeFor who q p) : q.counts = p.counts := by
  funext now t
  simp only [counts, h.window_eq]

theorem current_eq (h : AgreeFor who q p) (now : Int) : q.current who now = p.current who now := by
  rw [current, current, h.of_eq, h.counts_eq]

theorem count_eq (h : AgreeFor who q p) (now : Int) : q.count who now = p.count who now := by
  rw [count, count, h.of_eq, h.counts_eq]

theorem record_fst_eq (h : AgreeFor who q p) (t : Int) : (q.record who t).1 = (p.record who t).1 := by
  rw [record_fst, record_fst, h.current_eq, h.limit_eq]

theorem release_fst_eq (h : AgreeFor who q p) (t : Int) : (q.release who t).1 = (p.release who t).1 := by
  rw [release_fst, release_fst, h.of_eq]

theorem record (h : AgreeFor who q p) (t : Int) : AgreeFor who (q.record who t).2 (p.record who t).2 := by
  refine ⟨by simp [h.limit_eq], by simp [h.window_eq], ?_⟩
  rw [of_record, of_record, h.current_eq, h.record_fst_eq]
  simp

theorem release (h : AgreeFor who q p) (t : Int) : AgreeFor who (q.release who t).2 (p.release who t).2 := by
  refine ⟨by simp [h.limit_eq], by simp [h.window_eq], ?_⟩
  rw [of_release, of_release, h.of_eq]

/-- Pruning goes by the submitter's last attempt. -/
theorem prune (h : AgreeFor who q p) (t : Int) : AgreeFor who (q.prune t) (p.prune t) := by
  refine ⟨by simp [h.limit_eq], by simp [h.window_eq], ?_⟩
  rw [of_prune, of_prune, h.of_eq, h.counts_eq]

theorem record_of_ne (q : Quota) (h : x ≠ who) (t : Int) : AgreeFor who (q.record x t).2 q := by
  refine ⟨by simp, by simp, ?_⟩
  rw [of_record, if_neg h.symm]

theorem release_of_ne (q : Quota) (h : x ≠ who) (t : Int) : AgreeFor who (q.release x t).2 q := by
  refine ⟨by simp, by simp, ?_⟩
  rw [of_release, if_neg h.symm]

end AgreeFor

end Quota

namespace Gate

section Run

/-- What is asked for one submitter: to be let in or to have an admission taken back, of the gate or of its
quota alone, and how many attempts count. -/
inductive Request where
  | enter | release | record | takeBack | count

inductive Answer where
  | entry (r : Except Rejection Unit)
  | released
  | verdict (b : Bool)
  | tally (n : Nat)

/-- The answer to a request, and the gate after it. -/
def serve (g : Gate) (who : String) (t : Int) : Request → Answer × Gate
  | .enter => (g.enter who t).map .entry id
  | .release => (.released, g.release who t)
  | .record => (g.quota.record who t).map .verdict fun q => { g with quota := q }
  | .takeBack => (g.quota.release who t).map .verdict fun q => { g with quota := q }
  | .count => (.tally (g.quota.count who t), g)

/-- The steps of a gate in use. The last two are for nobody in particular. -/
inductive Step where
  | request (who : String) (r : Request) (t : Int)
  | prune (t : Int)
  | store (l : Whitelist)

def Step.concerns (who : String) : Step → Bool
  | request x _ _ => x = who
  | prune _ | store _ => true

def prune (g : Gate) (t : Int) : Gate := { g with quota := g.quota.prune t }

def store (g : Gate) (l : Whitelist) : Gate := { g with whitelist := g.whitelist.map (·.store l) }

/-- The answers of a run, each with the submitter that it goes to. -/
def run (g : Gate) : List Step → List (String × Answer)
  | [] => []
  | .request who r t :: l => (who, (g.serve who t r).1) :: run (g.serve who t r).2 l
  | .prune t :: l => run (g.prune t) l
  | .store w :: l => run (g.store w) l

def answersTo (who : String) (l : List (String × Answer)) : List Answer :=
  (l.filter (·.1 = who)).map (·.2)

theorem answersTo_cons_self (who : String) (a : Answer) (l : List (String × Answer)) :
    answersTo who ((who, a) :: l) = a :: answersTo who l := by
  simp [answersTo]

theorem answersTo_cons_of_ne {who x : String} (h : x ≠ who) (a : Answer) (l : List (String × Answer)) :
    answersTo who ((x, a) :: l) = answersTo who l := by
  simp [answersTo, h]

end Run

variable {g k : Gate} {who x : String} {t : Int}

/-- Two gates are the same to one submitter. -/
structure AgreeFor (who : String) (g k : Gate) : Prop where
  whitelist_eq : g.whitelist = k.whitelist
  quota : g.quota.AgreeFor who k.quota

namespace AgreeFor

theorem refl (who : String) (g : Gate) : AgreeFor who g g := ⟨rfl, .refl who g.quota⟩

theorem trans {m : Gate} (h : AgreeFor who g k) (h' : AgreeFor who k m) : AgreeFor who g m :=
  ⟨h.whitelist_eq.trans h'.whitelist_eq, h.quota.trans h'.quota⟩

theorem isListed_eq (h : AgreeFor who g k) (x : String) : g.isListed x = k.isListed x := by
  rw [isListed, isListed, h.whitelist_eq]

theorem enter (h : AgreeFor who g k) (t : Int) :
    (g.enter who t).1 = (k.enter who t).1 ∧ AgreeFor who (g.enter who t).2 (k.enter who t).2 := by
  have hlisted := h.isListed_eq who
  by_cases hl : g.isListed who
  · rw [enter_of_listed t hl, enter_of_listed t (hlisted ▸ hl), h.quota.record_fst_eq]
    exact ⟨rfl, h.whitelist_eq, h.quota.record t⟩
  · rw [enter_of_not_listed t hl, enter_of_not_listed t (hlisted ▸ hl)]
    exact ⟨rfl, h⟩

/-- What is the same to a submitter decides the answer, and stays the same to them. -/
theorem serve (h : AgreeFor who g k) (t : Int) (r : Request) :
    (g.serve who t r).1 = (k.serve who t r).1 ∧ AgreeFor who (g.serve who t r).2 (k.serve who t r).2 := by
  cases r with
  | enter =>
    obtain ⟨hanswer, hafter⟩ := h.enter t
    exact ⟨congrArg Answer.entry hanswer, hafter⟩
  | release => exact ⟨rfl, h.whitelist_eq, h.quota.release t⟩
  | record => exact ⟨congrArg Answer.verdict (h.quota.record_fst_eq t), h.whitelist_eq, h.quota.record t⟩
  | takeBack => exact ⟨congrArg Answer.verdict (h.quota.release_fst_eq t), h.whitelist_eq, h.quota.release t⟩
  | count => exact ⟨congrArg Answer.tally (h.quota.count_eq t), h⟩

/-- A request of somebody else changes nothing for the submitter. -/
theorem serve_of_ne (g : Gate) (h : x ≠ who) (t : Int) (r : Request) : AgreeFor who (g.serve x t r).2 g := by
  cases r with
  | enter =>
    change AgreeFor who (g.enter x t).2 g
    by_cases hl : g.isListed x
    · rw [enter_of_listed t hl]
      exact ⟨rfl, .record_of_ne g.quota h t⟩
    · rw [enter_of_not_listed t hl]
      exact refl who g
  | release => exact ⟨rfl, .release_of_ne g.quota h t⟩
  | record => exact ⟨rfl, .record_of_ne g.quota h t⟩
  | takeBack => exact ⟨rfl, .release_of_ne g.quota h t⟩
  | count => exact refl who g

theorem prune (h : AgreeFor who g k) (t : Int) : AgreeFor who (g.prune t) (k.prune t) :=
  ⟨h.whitelist_eq, h.quota.prune t⟩

theorem store (h : AgreeFor who g k) (l : Whitelist) : AgreeFor who (g.store l) (k.store l) := by
  refine ⟨?_, h.quota⟩
  show g.whitelist.map _ = k.whitelist.map _
  rw [h.whitelist_eq]

/-- From gates that are the same to a submitter, a run and what is left of it without the requests of all others
give them the same answers. -/
theorem answersTo_run_eq (h : AgreeFor who g k) (l : List Step) :
    answersTo who (g.run l) = answersTo who (k.run (l.filter (Step.concerns who))) := by
  induction l generalizing g k with
  | nil => rfl
  | cons s l ih =>
    cases s with
    | request x r t =>
      by_cases hx : x = who
      · subst hx
        obtain ⟨hanswer, hafter⟩ := h.serve t r
        rw [List.filter_cons_of_pos (by simp [Step.concerns]), run, run, answersTo_cons_self,
          answersTo_cons_self, hanswer, ih hafter]
      · rw [List.filter_cons_of_neg (by simpa [Step.concerns] using hx), run, answersTo_cons_of_ne hx]
        exact ih ((serve_of_ne g hx t r).trans h)
    | prune t => exact ih (h.prune t)
    | store w => exact ih (h.store w)

end AgreeFor

/-- The answers to a submitter are those of the run without the requests of all others, from any gate and with
instants in any order. -/
theorem answersTo_run_own (g : Gate) (who : String) (l : List Step) :
    answersTo who (g.run l) = answersTo who (g.run (l.filter (Step.concerns who))) :=
  (AgreeFor.refl who g).answersTo_run_eq l

end Gate

end Rollcall
