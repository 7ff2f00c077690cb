import Rollcall.Proofs.Schema.Stage

/-! The stages of a run in each direction, and that a run from a clean history carries them out. An order is
a run by a migrator of its own, so that runs with different migrations can follow each other. -/

namespace Rollcall

def Migration.script (x : Migration) : Direction → String
  | .up => x.up
  | .down => x.down

/-- The script in this direction does not write to the history itself. -/
def Migration.Spares (d : Direction) (x : Migration) : Prop :=
  ∀ t ∈ Script.statements (x.script d), (Statement.script t).effect.sparesHistory

instance (d : Direction) (x : Migration) : Decidable (x.Spares d) :=
  inferInstanceAs (Decidable (∀ t ∈ Script.statements (x.script d), _))

namespace Migrator

def run (m : Migrator) : Direction → Step (List Int)
  | .up => m.up
  | .down => m.down

/-- The version to which the stage of a migration leads, when these migrations are still to come. -/
def next : Direction → Migration → List Migration → Option Int
  | .up, x, _ => some x.version
  | .down, _, r => r.head?.map (·.version)

/-- The stages that lead through migrations from a version on. -/
def stages (d : Direction) : Option Int → List Migration → List Stage
  | _, [] => []
  | at?, x :: r => ⟨at?, x.version, x.script d, next d x r⟩ :: stages d (next d x r) r

/-- The migrations that a run goes through from a version. -/
def passed (m : Migrator) : Direction → Option Int → List Migration
  | .up, current => m.pending current
  | .down, current => current.elim [] m.applied

/-- What a run does once it knows the version at which the schema stands. -/
def onward (m : Migrator) : Direction → Option Int → Step (List Int)
  | .up, current => m.applyEach current (m.passed .up current)
  | .down, current => m.revertEach current (m.passed .down current)

def way (m : Migrator) (d : Direction) (current : Option Int) : List Stage :=
  stages d current (m.passed d current)

variable {h : Ledger Int Bool} {m : Migrator}

theorem applyEach_eq (m : Migrator) (at? : Option Int) (l : List Migration) :
    m.applyEach at? l =
      carry ((stages .up at? l).flatMap (Stage.errands m)) >>= fun _ => pure (l.map (·.version)) := by
  induction l generalizing at? with
  | nil => rfl
  | cons x r ih =>
    simp [applyEach, ih, setVersion, runScript, executeEach_eq, stages, next, Migration.script,
      Stage.errands, carry_append, Function.comp_def]

theorem revertEach_eq (m : Migrator) (at? : Option Int) (l : List Migration) :
    m.revertEach at? l =
      carry ((stages .down at? l).flatMap (Stage.errands m)) >>= fun _ => pure (l.map (·.version)) := by
  induction l generalizing at? with
  | nil => rfl
  | cons x r ih =>
    simp [revertEach, ih, setVersion, runScript, executeEach_eq, stages, next, Migration.script,
      Stage.errands, carry_append, Function.comp_def]

/-- Once it knows its start, a run carries out the errands of its way and answers the versions on it. -/
theorem onward_eq (m : Migrator) (d : Direction) (current : Option Int) :
    m.onward d current = carry ((m.way d current).flatMap (Stage.errands m)) >>= fun _ =>
      pure ((m.passed d current).map (·.version)) := by
  cases d with
  | up => exact m.applyEach_eq current (m.passed .up current)
  | down => exact m.revertEach_eq current (m.passed .down current)

theorem map_flatMap_errands (m : Migrator) (l : List Stage) :
    (l.flatMap (Stage.errands m)).map (·.statement) = l.flatMap (Stage.statements m) := by
  simp only [List.map_flatMap, Stage.map_errands]

theorem carriesOut_onward (m : Migrator) (d : Direction) (current : Option Int) :
    CarriesOut h (m.onward d current) ((m.way d current).flatMap (Stage.statements m))
      ((m.passed d current).map (·.version)) := by
  have hcarry := (@carriesOut_carry h ((m.way d current).flatMap (Stage.errands m))).map fun _ =>
    (m.passed d current).map (·.version)
  rwa [← onward_eq, map_flatMap_errands] at hcarry

theorem run_eq (m : Migrator) (d : Direction) :
    m.run d = m.createHistory >>= fun _ => m.currentVersion >>= m.onward d := by
  cases d with
  | up => rfl
  | down =>
    rw [run, down]
    congr 1
    funext _
    congr 1
    funext current
    cases current <;> rfl

section Way

variable {d : Direction} {at? : Option Int} {l : List Migration} {s : Stage}

theorem version_stages (d : Direction) (at? : Option Int) (l : List Migration) :
    (stages d at? l).map (·.version) = l.map (·.version) := by
  induction l generalizing at? with
  | nil => rfl
  | cons x r ih => simp [stages, ih]

theorem version_way (m : Migrator) (d : Direction) (current : Option Int) :
    (m.way d current).map (·.version) = (m.passed d current).map (·.version) :=
  version_stages d current _

theorem linked_stages (d : Direction) (at? : Option Int) (l : List Migration) :
    ∃ b, Stage.Linked at? (stages d at? l) b := by
  induction l generalizing at? with
  | nil => exact ⟨at?, rfl⟩
  | cons x r ih =>
    obtain ⟨b, hb⟩ := ih (next d x r)
    exact ⟨b, rfl, hb⟩

/-- From the version of the first of its migrations, a descent leads to none. -/
theorem linked_stages_down (l : List Migration) :
    Stage.Linked (l.head?.map (·.version)) (stages .down (l.head?.map (·.version)) l) none := by
  induction l with
  | nil => rfl
  | cons x r ih => exact ⟨rfl, ih⟩

theorem after_of_mem_stages_up (hs : s ∈ stages .up at? l) : s.after = some s.version := by
  induction l generalizing at? with
  | nil => simp [stages] at hs
  | cons x r ih =>
    rcases List.mem_cons.1 hs with rfl | hr
    · rfl
    · exact ih hr

theorem before_of_mem_stages_down (hs : s ∈ stages .down (l.head?.map (·.version)) l) :
    s.before = some s.version := by
  induction l with
  | nil => simp [stages] at hs
  | cons x r ih =>
    rcases List.mem_cons.1 hs with rfl | hr
    · rfl
    · exact ih hr

theorem exists_of_mem_stages (hs : s ∈ stages d at? l) :
    ∃ x ∈ l, s.version = x.version ∧ s.script = x.script d := by
  induction l generalizing at? with
  | nil => simp [stages] at hs
  | cons x r ih =>
    rcases List.mem_cons.1 hs with rfl | hr
    · exact ⟨x, by simp, rfl, rfl⟩
    · obtain ⟨y, hy, hsy⟩ := ih hr
      exact ⟨y, by simp [hy], hsy⟩

theorem passed_subset (m : Migrator) (d : Direction) (current : Option Int) :
    m.passed d current ⊆ m.migrations := by
  cases d with
  | up => exact fun _ hx => (List.mem_filter.1 hx).1
  | down =>
    cases current with
    | none => simp [passed]
    | some v =>
      intro x hx
      simp only [passed, Option.elim, applied, List.mem_filter, List.mem_reverse] at hx
      exact hx.1

/-- A stage goes through a migration of the migrator. -/
theorem exists_of_mem_way {current : Option Int} (hs : s ∈ m.way d current) :
    ∃ x ∈ m.migrations, s.version = x.version ∧ s.script = x.script d := by
  obtain ⟨x, hx, h⟩ := exists_of_mem_stages hs
  exact ⟨x, m.passed_subset d current hx, h⟩

theorem tame_of_mem_way {current : Option Int} (h : ∀ x ∈ m.migrations, x.Spares d)
    (hs : s ∈ m.way d current) : s.Tame := by
  obtain ⟨x, hx, -, hscript⟩ := exists_of_mem_way hs
  intro t ht
  exact h x hx t (hscript ▸ ht)

end Way

theorem highest_row (v : Option Int) (d : Bool) : highest (row v d) = v.map (·, d) := by
  cases v <;> rfl

variable {db : Database} {l : List Statement}

theorem ensures_createHistory (m : Migrator) :
    m.createHistory.Ensures (db.Ran l) (fun _ => db.Ran (l ++ [.createHistory m.historyTable]))
      fun _ => db.Ran l :=
  .mapError (Database.ensures_retry_execute _ _)

theorem ensures_currentVersion (m : Migrator) {current : Option Int}
    (hh : (replay db.history l).entries = row current false) :
    m.currentVersion.Ensures (db.Ran l) (fun v db' => v = current ∧ db.Ran l db')
      fun _ => db.Ran l := by
  have hread := @Database.ensures_retry_readHistory db l .storage m.historyTable
  refine Act.Ensures.bind (.mapError hread) fun rows => ?_
  rintro db' ⟨rfl, hr⟩
  rw [hh, highest_row]
  cases current with
  | none => exact ⟨rfl, hr⟩
  | some v => exact ⟨rfl, hr⟩

/-- A run from a clean history carries out its way, or stops before, at or within it. -/
theorem ensures_run (m : Migrator) (d : Direction) {current : Option Int}
    (hh : db.history.entries = row current false) :
    (m.run d).Ensures (· = db)
      (fun a db' => a = (m.passed d current).map (·.version) ∧
        db.Ran (.createHistory m.historyTable :: (m.way d current).flatMap (Stage.statements m)) db')
      fun _ db' => db.Ran [] db' ∨ ∃ k, db.Ran (.createHistory m.historyTable :: k) db' ∧
        (k = [] ∨ ∃ s r, (m.way d current).flatMap (Stage.statements m) = k ++ s :: r) := by
  rw [run_eq]
  refine Act.Ensures.bind (m.ensures_createHistory.mono ?_ (fun _ _ h => h) fun _ _ => .inl) fun _ => ?_
  · rintro _ rfl
    exact .refl _
  have hread := @ensures_currentVersion db [.createHistory m.historyTable] m current hh
  refine Act.Ensures.bind (hread.mono (fun _ h => h) (fun _ _ h => h) ?_) ?_
  · exact fun _ _ hr => .inr ⟨[], hr, .inl rfl⟩
  rintro v db₁ ⟨rfl, h₁⟩
  have hon := (m.carriesOut_onward d v).ensures db₁ rfl
  rcases hx : m.onward d v db₁ with ⟨_ | _, db₂⟩
  · obtain ⟨k, s, r, hk, hr⟩ := hon.of_error rfl hx
    exact .inr ⟨k, h₁.trans hr, .inr ⟨s, r, hk⟩⟩
  · obtain ⟨rfl, hr⟩ := hon.of_ok rfl hx
    exact ⟨rfl, h₁.trans hr⟩

/-- What a migrator is asked to do, and with which migrations. -/
structure Order where
  direction : Direction
  migrations : List Migration

namespace Order

def run (inside : Option String) (o : Order) : Step (List Int) :=
  (new inside o.migrations).run o.direction

/-- The scripts that the order can come to leave the history alone. -/
def Spares (o : Order) : Prop := ∀ x ∈ o.migrations, x.Spares o.direction

instance (o : Order) : Decidable o.Spares := inferInstanceAs (Decidable (∀ x ∈ o.migrations, _))

end Order

end Migrator

end Rollcall
