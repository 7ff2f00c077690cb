import Mathlib.Data.List.Basic
import Rollcall.Proofs.Schema.Run
import Rollcall.Proofs.Storage.Calls

/-! Runs of migrations over a session that fails now and then. A session lets queries through where each of
them is answered in the end, after fewer failures in a row than the budget of its kind allows. Over such a
session a run comes to the same result by the same statements as over one that never fails: every outage is
slept through where it occurs. -/

namespace Rollcall

/-- A query fails fewer times than this in a row without an effect on the run. -/
def Query.patience : Query → Nat
  | .execute (.createHistory _) => 5
  | .execute (.record ..) | .execute (.forget ..) | .history _ => 3
  | .execute (.script _) => 10
  | _ => 1

theorem Query.patience_pos (q : Query) : 0 < q.patience := by
  unfold patience
  split <;> decide

def Query.statement? : Query → Option Statement
  | .execute s => some s
  | _ => none

namespace Database

/-- The queries that were answered so far, in their order. -/
def answered (db : Database) : List Query := (db.calls.reverse.filter (·.works)).map (·.query)

theorem executed_eq (db : Database) : db.executed = db.answered.filterMap Query.statement? := by
  rw [executed, answered, List.filterMap_map, List.filterMap_filter]
  congr 1
  funext c
  simp only [Call.executed?, Query.statement?, Function.comp_apply]
  cases c.query <;> simp

/-- From the call of this number on, the outcomes let the queries through: each is answered after fewer
failures than its patience. -/
inductive LetsThrough (outcome : Nat → Option DatabaseError) : Nat → List Query → Prop
  | done (n : Nat) : LetsThrough outcome n []
  | answer {n k : Nat} {q : Query} {l : List Query} : k < q.patience → (∀ i < k, outcome (n + i) ≠ none) →
    outcome (n + k) = none → LetsThrough outcome (n + k + 1) l → LetsThrough outcome n (q :: l)

theorem letsThrough_cons {outcome : Nat → Option DatabaseError} {n : Nat} {q : Query} {l : List Query} :
    LetsThrough outcome n (q :: l) ↔ ∃ k < q.patience, (∀ i < k, outcome (n + i) ≠ none) ∧
      outcome (n + k) = none ∧ LetsThrough outcome (n + k + 1) l := by
  constructor
  · rintro (_ | ⟨hk, hfail, hnone, hl⟩)
    exact ⟨_, hk, hfail, hnone, hl⟩
  · rintro ⟨k, hk, hfail, hnone, hl⟩
    exact .answer hk hfail hnone hl

instance decidableLetsThrough (outcome : Nat → Option DatabaseError) :
    (n : Nat) → (l : List Query) → Decidable (LetsThrough outcome n l)
  | n, [] => .isTrue (.done n)
  | _, _ :: l =>
    have (n : Nat) := decidableLetsThrough outcome n l
    decidable_of_iff' _ letsThrough_cons

/-- The queries were answered, and changed the history as their statements do. -/
structure Served (db : Database) (l : List Query) (db' : Database) : Prop where
  answered : db'.answered = db.answered ++ l
  history : db'.history = replay db.history (l.filterMap Query.statement?)
  outcome : db'.outcome = db.outcome
  failOn : db'.failOn = db.failOn

variable {db db₁ db₂ : Database} {l k : List Query}

theorem Served.refl (db : Database) : db.Served [] db := ⟨by simp, rfl, rfl, rfl⟩

theorem Served.trans (h : db.Served l db₁) (h' : db₁.Served k db₂) : db.Served (l ++ k) db₂ where
  answered := by rw [h'.answered, h.answered, List.append_assoc]
  history := by rw [h'.history, h.history, List.filterMap_append, replay_append]
  outcome := h'.outcome.trans h.outcome
  failOn := h'.failOn.trans h.failOn

theorem Served.ran (h : db.Served l db₁) : db.Ran (l.filterMap Query.statement?) db₁ :=
  ⟨by rw [executed_eq, executed_eq, h.answered, List.filterMap_append], h.history⟩

/-- The session lets the queries through from here on. -/
structure Lets (db : Database) (l : List Query) : Prop where
  failOn : db.failOn = []
  letsThrough : LetsThrough db.outcome db.made l

/-- The database behind a session of which each call fares as given. -/
def withSession (db : Database) (outcome : Nat → Option DatabaseError) : Database :=
  { db with outcome := outcome, failOn := [] }

/-- No call fails. -/
structure Calm (db : Database) : Prop where
  failOn : db.failOn = []
  outcome : ∀ n, db.outcome n = none

theorem Calm.lets (h : db.Calm) (l : List Query) : db.Lets l := by
  refine ⟨h.failOn, ?_⟩
  generalize db.made = n
  induction l generalizing n with
  | nil => exact .done n
  | cons q l ih =>
    exact .answer q.patience_pos (fun i hi => absurd hi (Nat.not_lt_zero i)) (h.outcome n) (ih (n + 1))

theorem Served.calm (h : db.Served l db₁) (hdb : db.Calm) : db₁.Calm :=
  ⟨h.failOn.trans hdb.failOn, fun n => by rw [h.outcome, hdb.outcome]⟩

theorem answered_noted (db : Database) (q : Query) (works : Bool) :
    (db.noted q works).answered = db.answered ++ if works then [q] else [] := by
  cases works <;> simp [answered, noted]

theorem served_noted_false (db : Database) (q : Query) : db.Served [] (db.noted q false) :=
  ⟨db.answered_noted q false, rfl, rfl, rfl⟩

theorem served_execute (db : Database) (s : Statement) :
    db.Served [.execute s] ((db.noted (.execute s) true).apply s.effect) := by
  refine ⟨?_, history_apply _ _, ?_, ?_⟩
  · rw [answered, calls_apply]
    exact db.answered_noted (.execute s) true
  all_goals cases s.effect <;> rfl

theorem served_history (db : Database) (t : String) : db.Served [.history t] (db.noted (.history t) true) :=
  ⟨db.answered_noted (.history t) true, rfl, rfl, rfl⟩

theorem Lets.apply (h : db.Lets l) (e : Statement.Effect) : (db.apply e).Lets l := by
  cases e <;> exact ⟨h.failOn, h.letsThrough⟩

theorem Served.sleep (h : db.Served l db₁) (d : Nat) : db.Served l (Clocked.sleep d db₁) :=
  ⟨h.answered, h.history, h.outcome, h.failOn⟩

section Call

variable {α : Type} {q : Query} {effect : Database → Except DatabaseError α × Database}

theorem mishap_of_failOn (h : db.failOn = []) (q : Query) : db.mishap q = db.outcome db.made := by
  simp [mishap, h]

theorem exists_failures_call (h : db.failOn = []) {n : Nat}
    (hn : ∀ i < n, db.outcome (db.made + i) ≠ none) (delay : Nat) :
    ∃ es db', Budget.Failures (call q effect) delay db es db' ∧ es.length = n ∧ db.Served [] db' ∧
      db'.made = db.made + n := by
  induction n generalizing db delay with
  | zero => exact ⟨[], db, .none delay db, rfl, .refl db, rfl⟩
  | succ n ih =>
    obtain ⟨e, he⟩ := Option.ne_none_iff_exists'.1 (hn 0 (Nat.succ_pos n))
    have hfirst : db.mishap q = some e := (mishap_of_failOn h q).trans he
    have hnext : db.Served [] (Clocked.sleep delay (db.noted q false)) := (db.served_noted_false q).sleep delay
    obtain ⟨es, db', hes, hlen, hserved, hmade⟩ := @ih (Clocked.sleep delay (db.noted q false)) h
      (fun i hi => by
        have := hn (i + 1) (Nat.succ_lt_succ hi)
        rwa [Nat.add_comm i 1, ← Nat.add_assoc] at this) (doubledDelay delay)
    refine ⟨e :: es, db', .call (call_of_some hfirst) hes, by rw [List.length_cons, hlen], hnext.trans hserved, ?_⟩
    rw [hmade, Nat.add_comm n 1, ← Nat.add_assoc]
    rfl

/-- A query that is let through within the budget is answered from a database in which nothing else
happened. -/
theorem exists_retry_call_eq {b : Budget} (hb : q.patience ≤ b.maxAttempts) (h : db.Lets (q :: l))
    (effect : Database → Except DatabaseError α × Database) :
    ∃ db₁ : Database, db.Served [] db₁ ∧ (db₁.noted q true).Lets l ∧
      ∀ a db', effect (db₁.noted q true) = (.ok a, db') → b.retry (call q effect) db = (.ok a, db') := by
  obtain ⟨n, hn, hfail, hnone, hrest⟩ := letsThrough_cons.1 h.letsThrough
  obtain ⟨es, db₁, hes, rfl, hserved, hmade⟩ := exists_failures_call h.failOn hfail b.initialDelay
  have hfree : db₁.failOn = [] := hserved.failOn.trans h.failOn
  refine ⟨db₁, hserved, ⟨hfree, ?_⟩, fun a db' ha => ?_⟩
  · show LetsThrough db₁.outcome (db₁.made + 1) l
    rwa [hserved.outcome, hmade]
  · refine hes.retry_of_ok (Nat.lt_of_lt_of_le hn hb) ?_
    rw [call_of_none (by rw [mishap_of_failOn hfree, hserved.outcome, hmade, hnone]), ha]

end Call

end Database

/-- The budget of an errand lasts for its statement. -/
def Errand.Ample (e : Errand) : Prop := (Query.execute e.statement).patience ≤ e.budget.maxAttempts

namespace Migrator

variable {α β : Type} {h : Ledger Int Bool} {x : Step α} {qs qs' : List Query}

/-- Over a session that lets the queries through, the step puts exactly these to a database with the given
history, and ends with `r`. -/
def Delivers (h : Ledger Int Bool) (x : Step α) (qs : List Query) (r : Except MigrationError α) : Prop :=
  ∀ (db : Database) (rest : List Query), db.history = h → db.Lets (qs ++ rest) →
    ∃ db', x db = (r, db') ∧ db.Served qs db' ∧ db'.Lets rest

theorem Delivers.pure (a : α) : Delivers h (pure a) [] (.ok a) :=
  fun db _ _ hl => ⟨db, rfl, .refl db, hl⟩

theorem Delivers.throw (e : MigrationError) : Delivers h (throw e : Step α) [] (.error e) :=
  fun db _ _ hl => ⟨db, rfl, .refl db, hl⟩

theorem Delivers.bind {f : α → Step β} {a : α} {r : Except MigrationError β} (hx : Delivers h x qs (.ok a))
    (hf : Delivers (replay h (qs.filterMap Query.statement?)) (f a) qs' r) :
    Delivers h (x >>= f) (qs ++ qs') r := by
  intro db rest hdb hl
  rw [List.append_assoc] at hl
  obtain ⟨db₁, hx₁, hs₁, hl₁⟩ := hx db (qs' ++ rest) hdb hl
  obtain ⟨db₂, hx₂, hs₂, hl₂⟩ := hf db₁ rest (by rw [hs₁.history, hdb]) hl₁
  exact ⟨db₂, by rw [Act.bind_of_ok hx₁, hx₂], hs₁.trans hs₂, hl₂⟩

theorem Delivers.bind_error {f : α → Step β} {e : MigrationError} (hx : Delivers h x qs (.error e)) :
    Delivers h (x >>= f) qs (.error e) := by
  intro db rest hdb hl
  obtain ⟨db₁, hx₁, hs₁, hl₁⟩ := hx db rest hdb hl
  exact ⟨db₁, Act.bind_of_error hx₁, hs₁, hl₁⟩

theorem delivers_execute {b : Budget} {s : Statement} (hb : (Query.execute s).patience ≤ b.maxAttempts)
    (wrap : Exhausted DatabaseError → MigrationError) :
    Delivers h ((b.retry (Database.execute s)).mapError wrap) [.execute s] (.ok ()) := by
  intro db rest hdb hl
  obtain ⟨db₁, hs₁, hl₁, hretry⟩ := Database.exists_retry_call_eq hb hl fun db => (.ok (), db.apply s.effect)
  exact ⟨_, Act.mapError_of_ok (hretry () _ rfl) wrap, hs₁.trans (db₁.served_execute s), hl₁.apply s.effect⟩

theorem delivers_readHistory (m : Migrator) :
    Delivers h ((Budget.storage.retry (Database.readHistory m.historyTable)).mapError .history)
      [.history m.historyTable] (.ok h.entries) := by
  intro db rest hdb hl
  have hb : (Query.history m.historyTable).patience ≤ Budget.storage.maxAttempts := Nat.le_refl 3
  obtain ⟨db₁, hs₁, hl₁, hretry⟩ := Database.exists_retry_call_eq hb hl fun db => (.ok db.history.entries, db)
  refine ⟨_, Act.mapError_of_ok (hretry h.entries _ ?_) _, hs₁.trans (db₁.served_history _), hl₁⟩
  rw [← hdb, ← show db₁.history = db.history from hs₁.history]
  rfl

theorem delivers_carry {l : List Errand} (hl : ∀ e ∈ l, e.Ample) :
    Delivers h (carry l) ((l.map (·.statement)).map .execute) (.ok ()) := by
  induction l generalizing h with
  | nil => exact .pure ()
  | cons e r ih =>
    exact (delivers_execute (hl e List.mem_cons_self) e.wrap).bind (ih fun t ht => hl t (List.mem_cons_of_mem _ ht))

theorem ample_of_mem_errands {m : Migrator} {s : Stage} {e : Errand} (he : e ∈ s.errands m) : e.Ample := by
  have hmove {old new : Option Int} {d : Bool} (h : e ∈ (m.versionChange old new d).map (⟨·, .storage, .history⟩)) :
      e.Ample := by
    obtain ⟨t, ht, rfl⟩ := List.mem_map.1 h
    simp only [versionChange, List.mem_append, List.mem_map] at ht
    rcases ht with ⟨v, -, rfl⟩ | ⟨v, -, rfl⟩
    · exact Nat.le_refl 3
    · exact Nat.le_refl 3
  simp only [Stage.errands, List.mem_append] at he
  rcases he with he | he | he
  · exact hmove he
  · obtain ⟨t, -, rfl⟩ := List.mem_map.1 he
    exact Nat.le_refl 10
  · exact hmove he

/-- The queries of a run that starts at a version. -/
def queries (m : Migrator) (d : Direction) (current : Option Int) : List Query :=
  .execute (.createHistory m.historyTable) :: .history m.historyTable ::
    ((m.way d current).flatMap (Stage.statements m)).map .execute

theorem delivers_onward (m : Migrator) (d : Direction) (current : Option Int) :
    Delivers h (m.onward d current) (((m.way d current).flatMap (Stage.statements m)).map .execute)
      (.ok ((m.passed d current).map (·.version))) := by
  have hcarry : Delivers h (carry ((m.way d current).flatMap (Stage.errands m)))
      ((((m.way d current).flatMap (Stage.errands m)).map (·.statement)).map .execute) (.ok ()) := by
    refine delivers_carry fun e he => ?_
    obtain ⟨s, -, hs⟩ := List.mem_flatMap.1 he
    exact ample_of_mem_errands hs
  have hrun := hcarry.bind (f := fun _ => Pure.pure ((m.passed d current).map (·.version))) (.pure _)
  rwa [List.append_nil, ← onward_eq, map_flatMap_errands] at hrun

theorem delivers_createHistory (m : Migrator) :
    Delivers h m.createHistory [.execute (.createHistory m.historyTable)] (.ok ()) := by
  have hb : (Query.execute (.createHistory m.historyTable)).patience ≤ Budget.historyTable.maxAttempts :=
    Nat.le_refl 5
  exact delivers_execute hb _

theorem delivers_currentVersion (m : Migrator) {current : Option Int}
    (hh : highest h.entries = current.map (·, false)) :
    Delivers h m.currentVersion [.history m.historyTable] (.ok current) := by
  refine (@delivers_readHistory h m).bind ?_
  rw [hh]
  cases current with
  | none => exact .pure none
  | some v => exact .pure (some v)

theorem delivers_currentVersion_dirty (m : Migrator) {v : Int} (hh : highest h.entries = some (v, true)) :
    Delivers h m.currentVersion [.history m.historyTable] (.error (.dirty v)) := by
  refine m.delivers_readHistory.bind ?_
  rw [hh]
  exact .throw (.dirty v)

/-- From a history that is not dirty, a run goes all its way. -/
theorem delivers_run {m : Migrator} {d : Direction} {current : Option Int}
    (hh : highest h.entries = current.map (·, false)) :
    Delivers h (m.run d) (m.queries d current) (.ok ((m.passed d current).map (·.version))) := by
  rw [run_eq]
  exact m.delivers_createHistory.bind ((m.delivers_currentVersion hh).bind (m.delivers_onward d current))

/-- From a dirty history, a run stops at the version. -/
theorem delivers_run_dirty {m : Migrator} {d : Direction} {v : Int} (hh : highest h.entries = some (v, true)) :
    Delivers h (m.run d) [.execute (.createHistory m.historyTable), .history m.historyTable]
      (.error (.dirty v)) := by
  rw [run_eq]
  exact m.delivers_createHistory.bind (m.delivers_currentVersion_dirty hh).bind_error

theorem exists_delivers_run (m : Migrator) (d : Direction) (h : Ledger Int Bool) :
    ∃ qs r, Delivers h (m.run d) qs r := by
  rcases hh : highest h.entries with _ | ⟨v, _ | _⟩
  · exact ⟨_, _, @delivers_run h m d none hh⟩
  · exact ⟨_, _, @delivers_run h m d (some v) hh⟩
  · exact ⟨_, _, delivers_run_dirty hh⟩

/-- A session that lets through what a run asks of one that never fails is as good for the run: it ends with
the same result and history, by the same statements. -/
theorem run_eq_of_letsThrough (m : Migrator) (d : Direction) (db : Database)
    {outcome : Nat → Option DatabaseError}
    (hlets : Database.LetsThrough outcome db.made
      (((m.run d).runIn (db.withSession fun _ => none)).2.answered.drop db.answered.length)) :
    let calm := (m.run d).runIn (db.withSession fun _ => none)
    let flaky := (m.run d).runIn (db.withSession outcome)
    flaky.1 = calm.1 ∧ flaky.2.executed = calm.2.executed ∧ flaky.2.history = calm.2.history := by
  intro calm flaky
  obtain ⟨qs, r, hrun⟩ := m.exists_delivers_run d db.history
  have hnever : (db.withSession fun _ => none).Calm := ⟨rfl, fun _ => rfl⟩
  obtain ⟨db₁, h₁, hs₁, -⟩ := hrun (db.withSession fun _ => none) [] rfl (hnever.lets _)
  have hcalm : calm = (r, db₁) := h₁
  change Database.LetsThrough outcome db.made (calm.2.answered.drop db.answered.length) at hlets
  have hqs : db₁.answered.drop db.answered.length = qs := by
    rw [hs₁.answered]
    exact List.drop_left
  rw [hcalm, hqs] at hlets
  obtain ⟨db₂, h₂, hs₂, -⟩ := hrun (db.withSession outcome) [] rfl ⟨rfl, by rwa [List.append_nil]⟩
  have hflaky : flaky = (r, db₂) := h₂
  rw [hcalm, hflaky]
  refine ⟨rfl, ?_, ?_⟩
  · rw [hs₂.ran.executed, hs₁.ran.executed]
    rfl
  · rw [hs₂.history, hs₁.history]
    rfl

section LastMoment

/-- A database without a history. -/
def blank : Database := {}

def firstTable : Migrator :=
  ⟨Statement.historyTable, [⟨1, "first", "CREATE TABLE a;", "DROP TABLE a;"⟩]⟩

/-- Each query of the run is answered at the last moment, after 4, 2, 2, 9 and 2 failures, and then the
session is lost. -/
def lastMoment (n : Nat) : Option DatabaseError :=
  if n ∈ [4, 7, 10, 20, 23] then none else some { message := "connection lost" }

theorem run_eq_of_letsThrough_lastMoment :
    Database.LetsThrough lastMoment blank.made
      (((firstTable.run .up).runIn (blank.withSession fun _ => none)).2.answered.drop blank.answered.length) ∧
    let calm := (firstTable.run .up).runIn (blank.withSession fun _ => none)
    let flaky := (firstTable.run .up).runIn (blank.withSession lastMoment)
    flaky.1 = calm.1 ∧ flaky.2.executed = calm.2.executed ∧ flaky.2.history = calm.2.history := by
  have hlets : Database.LetsThrough lastMoment blank.made
      (((firstTable.run .up).runIn (blank.withSession fun _ => none)).2.answered.drop blank.answered.length) := by
    decide +kernel
  exact ⟨hlets, run_eq_of_letsThrough firstTable .up blank hlets⟩

end LastMoment

end Migrator

end Rollcall
