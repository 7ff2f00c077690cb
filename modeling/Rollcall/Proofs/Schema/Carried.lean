import Rollcall.Proofs.Retry
import Rollcall.Schema.Migrator

/-! Steps that carry out a list of statements. Each statement is retried, so a step that fails has carried
out some first statements of its list and nothing else, and the history of the database is what these made
of it. Statements with what is done about their failures are errands, and all that a step of migrations does
to the database is to carry errands out. -/

namespace Rollcall

def Statement.Effect.onHistory (h : Ledger Int Bool) : Statement.Effect → Ledger Int Bool
  | .record v b => h.insert v b
  | .forget v => h.erase v
  | .none | .dropTable _ => h

/-- The history that a list of statements makes of one. -/
def replay (h : Ledger Int Bool) (l : List Statement) : Ledger Int Bool :=
  l.foldl (fun h s => s.effect.onHistory h) h

@[simp] theorem replay_nil (h : Ledger Int Bool) : replay h [] = h := rfl

@[simp] theorem replay_cons (h : Ledger Int Bool) (s : Statement) (l : List Statement) :
    replay h (s :: l) = replay (s.effect.onHistory h) l := rfl

theorem replay_append (h : Ledger Int Bool) (k l : List Statement) :
    replay h (k ++ l) = replay (replay h k) l :=
  List.foldl_append

/-- The statement that a call executed. -/
def Call.executed? (c : Call) : Option Statement :=
  match c.query with
  | .execute s => if c.works then some s else none
  | _ => none

namespace Database

/-- The statements that took effect so far, in their order. -/
def executed (db : Database) : List Statement := db.calls.reverse.filterMap Call.executed?

theorem history_apply (db : Database) (e : Statement.Effect) :
    (db.apply e).history = e.onHistory db.history := by
  cases e <;> rfl

theorem calls_apply (db : Database) (e : Statement.Effect) : (db.apply e).calls = db.calls := by
  cases e <;> rfl

/-- From the first database to the second exactly these statements took effect. -/
structure Ran (db : Database) (l : List Statement) (db' : Database) : Prop where
  executed : db'.executed = db.executed ++ l
  history : db'.history = replay db.history l

variable {db db₁ db₂ : Database} {l k : List Statement}

theorem Ran.refl (db : Database) : db.Ran [] db := ⟨by simp, rfl⟩

theorem Ran.trans (h : db.Ran l db₁) (h' : db₁.Ran k db₂) : db.Ran (l ++ k) db₂ :=
  ⟨by rw [h'.executed, h.executed, List.append_assoc], by rw [h'.history, h.history, replay_append]⟩

theorem Ran.sleep (h : db.Ran l db₁) (d : Nat) : db.Ran l (Clocked.sleep d db₁) := ⟨h.1, h.2⟩

/-- The statements of a run are those that were not yet executed before it. -/
theorem Ran.drop_eq (h : db.Ran l db₁) : db₁.executed.drop db.executed.length = l := by
  rw [h.executed, List.drop_left]

theorem executed_of_calls {c : Call} (h : db₁.calls = c :: db.calls) :
    db₁.executed = db.executed ++ c.executed?.toList := by
  rw [executed, h, List.reverse_cons, List.filterMap_append, ← executed]
  cases hc : c.executed? <;> simp [hc]

theorem ensures_execute (s : Statement) :
    (execute s).Ensures (db.Ran l) (fun _ => db.Ran (l ++ [s])) fun _ => db.Ran l := by
  intro db₁ h
  rcases hm : db₁.mishap (.execute s) with _ | e
  · simp only [execute, call, hm]
    refine ⟨?_, ?_⟩
    · rw [executed_of_calls (calls_apply _ _), h.executed, List.append_assoc]
      rfl
    · rw [history_apply, h.history, replay_append]
      rfl
  · simp only [execute, call, hm]
    exact ⟨by rw [executed_of_calls rfl, h.executed]; simp [Call.executed?], h.history⟩

theorem ensures_readHistory (t : String) :
    (readHistory t).Ensures (db.Ran l)
      (fun rows db' => rows = (replay db.history l).entries ∧ db.Ran l db') fun _ => db.Ran l := by
  intro db₁ h
  rcases hm : db₁.mishap (.history t) with _ | e
  · simp only [readHistory, call, hm]
    refine ⟨by rw [h.history], ?_, h.history⟩
    rw [executed_of_calls rfl, h.executed]
    simp [Call.executed?]
  · simp only [readHistory, call, hm]
    exact ⟨by rw [executed_of_calls rfl, h.executed]; simp [Call.executed?], h.history⟩

theorem ensures_retry_execute (b : Budget) (s : Statement) :
    (b.retry (execute s)).Ensures (db.Ran l) (fun _ => db.Ran (l ++ [s])) fun _ => db.Ran l :=
  (b.ensures_retry (ensures_execute s) fun d _ h => h.sleep d).mono (fun _ => id) (fun _ _ => id)
    fun _ _ h => h.2

theorem ensures_retry_readHistory (b : Budget) (t : String) :
    (b.retry (readHistory t)).Ensures (db.Ran l)
      (fun rows db' => rows = (replay db.history l).entries ∧ db.Ran l db') fun _ => db.Ran l :=
  (b.ensures_retry (ensures_readHistory t) fun d _ h => h.sleep d).mono (fun _ => id) (fun _ _ => id)
    fun _ _ h => h.2

end Database

/-- A statement, the budget for its failures and the error that they end in. -/
structure Errand where
  statement : Statement
  budget : Budget
  wrap : Exhausted DatabaseError → MigrationError

namespace Migrator

def carry : List Errand → Step Unit
  | [] => pure ()
  | e :: r => do
    (e.budget.retry (Database.execute e.statement)).mapError e.wrap
    carry r

theorem carry_append (k l : List Errand) : carry (k ++ l) = carry k >>= fun _ => carry l := by
  induction k with
  | nil => simp [carry]
  | cons e r ih => simp [carry, ih]

theorem executeEach_eq (b : Budget) (wrap : Exhausted DatabaseError → MigrationError)
    (l : List Statement) : executeEach b wrap l = carry (l.map (⟨·, b, wrap⟩)) := by
  induction l with
  | nil => rfl
  | cons s r ih => rw [executeEach, ih]; rfl

variable {α β : Type} {h : Ledger Int Bool} {x : Step α} {a : α} {plan rest : List Statement}

/-- From databases with the given history, the step executes the plan and answers `a`, or fails after it
executed what precedes some statement of the plan. -/
structure CarriesOut (h : Ledger Int Bool) (x : Step α) (plan : List Statement) (a : α) : Prop where
  ensures (db : Database) : db.history = h → x.Ensures (· = db) (fun b db' => b = a ∧ db.Ran plan db')
    fun _ db' => ∃ k s r, plan = k ++ s :: r ∧ db.Ran k db'

theorem CarriesOut.pure (a : α) : CarriesOut h (pure a : Step α) [] a := by
  refine ⟨?_⟩
  rintro db - _ rfl
  exact ⟨rfl, .refl _⟩

theorem CarriesOut.bind {f : α → Step β} {b : β} (hx : CarriesOut h x plan a)
    (hf : CarriesOut (replay h plan) (f a) rest b) : CarriesOut h (x >>= f) (plan ++ rest) b := by
  refine ⟨fun db hdb => ?_⟩
  have hfirst : x.Ensures (· = db) (fun c db' => c = a ∧ db.Ran plan db')
      fun _ db' => ∃ k s r, plan ++ rest = k ++ s :: r ∧ db.Ran k db' := by
    refine (hx.ensures db hdb).mono (fun _ => id) (fun _ _ => id) ?_
    rintro _ db' ⟨k, s, r, rfl, hr⟩
    exact ⟨k, s, r ++ rest, by simp, hr⟩
  refine hfirst.bind fun c => ?_
  rintro db₁ ⟨rfl, h₁⟩
  have hsecond := hf.ensures db₁ (by rw [h₁.history, hdb])
  rcases hy : f c db₁ with ⟨_ | _, db₂⟩
  · obtain ⟨k, s, r, rfl, hr⟩ := hsecond.of_error rfl hy
    exact ⟨plan ++ k, s, r, by simp, h₁.trans hr⟩
  · obtain ⟨rfl, hr⟩ := hsecond.of_ok rfl hy
    exact ⟨rfl, h₁.trans hr⟩

theorem CarriesOut.map (f : α → β) (hx : CarriesOut h x plan a) :
    CarriesOut h (x >>= fun a => Pure.pure (f a)) plan (f a) := by
  have := hx.bind (f := fun a => Pure.pure (f a)) (CarriesOut.pure (f a))
  rwa [List.append_nil] at this

theorem carriesOut_execute (b : Budget) (wrap : Exhausted DatabaseError → MigrationError)
    (s : Statement) :
    CarriesOut h ((b.retry (Database.execute s)).mapError wrap) [s] () := by
  refine ⟨fun db _ => ?_⟩
  refine .mapError ((@Database.ensures_retry_execute db [] b s).mono ?_ ?_ ?_)
  · rintro _ rfl
    exact .refl _
  · exact fun _ _ hr => ⟨rfl, hr⟩
  · exact fun _ _ hr => ⟨[], s, [], rfl, hr⟩

theorem carriesOut_carry (l : List Errand) : CarriesOut h (carry l) (l.map (·.statement)) () := by
  induction l generalizing h with
  | nil => exact .pure ()
  | cons e r ih => exact (carriesOut_execute e.budget e.wrap e.statement).bind ih

end Migrator

end Rollcall
