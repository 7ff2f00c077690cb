import Rollcall.Proofs.Schema.Run
import Rollcall.Proofs.Storage.Calls

/-! The history as a lock. Migrators with any migrations are run one after the other over one history, in
either direction, and the session may fail wherever it likes. There is never more than one row, because each
stage takes away the row of the one before; so the row that a run looks at is all there is, and once it is
dirty every later run does no more than look at it. Scripts must leave the history alone: one that writes a
row of its own makes a second one. -/

namespace Rollcall

/-- The history has one row or none, before and after each of the statements. -/
def SingleThroughout (h : Ledger Int Bool) (l : List Statement) : Prop :=
  ∀ k, k <+: l → (replay h k).entries.length ≤ 1

theorem SingleThroughout.of_prefix {h : Ledger Int Bool} {k l : List Statement} (hl : SingleThroughout h l)
    (hk : k <+: l) : SingleThroughout h k :=
  fun q hq => hl q (hq.trans hk)

theorem SingleThroughout.append {h : Ledger Int Bool} {k l : List Statement} (hk : SingleThroughout h k)
    (hl : SingleThroughout (replay h k) l) : SingleThroughout h (k ++ l) := by
  rintro q ⟨r, hr⟩
  rcases List.append_eq_append_iff.1 hr with ⟨t, rfl, -⟩ | ⟨t, rfl, rfl⟩
  · exact hk q (List.prefix_append q t)
  · rw [replay_append]
    exact hl t (List.prefix_append t r)

/-- Statements that leave the history alone leave it single. -/
theorem SingleThroughout.of_spares {h : Ledger Int Bool} {l : List Statement} (hh : h.entries.length ≤ 1)
    (hl : ∀ s ∈ l, s.effect.sparesHistory) : SingleThroughout h l := by
  intro k hk
  rw [replay_of_spares fun s hs => hl s (hk.subset hs)]
  exact hh

theorem Migrator.length_row_le (v : Option Int) (d : Bool) : (Migrator.row v d).length ≤ 1 := by
  cases v <;> simp [Migrator.row]

namespace Stage

variable {m : Migrator} {s : Stage} {h : Ledger Int Bool}

theorem Within.length_le {q : List Statement} {rows : List (Int × Bool)} (h : Within m s q rows) :
    rows.length ≤ 1 := by
  cases h with
  | start => exact Migrator.length_row_le s.before false
  | moved | marked | ended => simp

theorem single_statements (hs : s.Tame) (hh : h.entries = Migrator.row s.before false) :
    SingleThroughout h (s.statements m) := by
  rintro q ⟨r, hr⟩
  cases r with
  | nil =>
    rw [List.append_nil] at hr
    rw [hr, entries_statements hs hh]
    exact Migrator.length_row_le s.after false
  | cons t r => exact (within_of_statements_eq hs hh hr.symm).length_le

theorem single_flatMap {l : List Stage} {a b : Option Int} (hl : Linked a l b) (ht : ∀ s ∈ l, s.Tame)
    (hh : h.entries = Migrator.row a false) : SingleThroughout h (l.flatMap (statements m)) := by
  induction l generalizing a h with
  | nil => exact .of_spares (hh ▸ Migrator.length_row_le a false) (by simp)
  | cons s r ih =>
    obtain ⟨rfl, hr⟩ := hl
    have hs : s.Tame := ht s (by simp)
    exact (single_statements hs hh).append (ih hr (fun t hm => ht t (by simp [hm])) (entries_statements hs hh))

end Stage

namespace Migrator

section Run

variable {m : Migrator} {d : Direction} {db : Database} {current : Option Int} {v : Int}

/-- A run from a clean history keeps it single throughout, wherever it stops. -/
theorem exists_ran_single (ht : ∀ x ∈ m.migrations, x.Spares d)
    (hh : db.history.entries = row current false) :
    ∃ l, db.Ran l ((m.run d).runIn db).2 ∧ SingleThroughout db.history l := by
  obtain ⟨b, hb⟩ := linked_stages d current (m.passed d current)
  have hway : SingleThroughout db.history ((m.way d current).flatMap (Stage.statements m)) :=
    Stage.single_flatMap hb (fun s hs => tame_of_mem_way ht hs) hh
  have hcreate : SingleThroughout db.history [.createHistory m.historyTable] :=
    .of_spares (hh ▸ length_row_le current false) (by simp [Statement.effect, Statement.Effect.sparesHistory])
  have hall := hcreate.append hway
  rcases hrun : (m.run d).runIn db with ⟨e | a, db'⟩
  · rcases (m.ensures_run d hh).of_error rfl hrun with hr | ⟨k, hr, hk⟩
    · exact ⟨[], hr, hall.of_prefix List.nil_prefix⟩
    · refine ⟨_, hr, hall.of_prefix ?_⟩
      rcases hk with rfl | ⟨s, r, hk⟩
      · exact List.prefix_append _ _
      · rw [hk]
        exact ⟨s :: r, by simp⟩
  · exact ⟨_, ((m.ensures_run d hh).of_ok rfl hrun).2, hall⟩

/-- The call sees to it that there is a history, or reads it. -/
def Looks (m : Migrator) (c : Call) : Prop :=
  c.query = .execute (.createHistory m.historyTable) ∨ c.query = .history m.historyTable

/-- As many calls as the error reports were made in the end, and failed. -/
def Spent (e : Exhausted DatabaseError) (l : List Call) : Prop :=
  e.attempts ≤ l.length ∧ ∀ c ∈ l.take e.attempts, c.works = false

theorem spent_of_allFailed {q : Query} {e : Exhausted DatabaseError} {failed : List Call}
    (hf : Database.AllFailed q failed) (he : failed.length = e.attempts) (l : List Call) :
    Spent e (failed ++ l) := by
  refine ⟨by rw [List.length_append, he]; exact Nat.le_add_right _ _, fun c hc => ?_⟩
  rw [← he, List.take_left] at hc
  exact (hf c hc).2

/-- A run did no more than look at the history, which is dirty at this version, and said so; or the store was
out of reach until it gave up looking. -/
structure Refused (m : Migrator) (v : Int) (db : Database) (r : Except MigrationError (List Int) × Database) :
    Prop where
  history : r.2.history = db.history
  calls : ∃ new, db.Made new r.2 ∧ (∀ c ∈ new, m.Looks c) ∧
    (r.1 = .error (.dirty v) ∨
      ∃ e, r.1 = .error (.history e) ∧ (e.attempts = 5 ∨ e.attempts = 3) ∧ Spent e new)

theorem createHistory_looks (m : Migrator) (db : Database) :
    ∃ new db₁, db.Made new db₁ ∧ db₁.history = db.history ∧ (∀ c ∈ new, m.Looks c) ∧
      (m.createHistory db = (.ok (), db₁) ∨
        ∃ e, m.createHistory db = (.error (.history e), db₁) ∧ e.attempts = 5 ∧ Spent e new) := by
  have hran := @ensures_createHistory db [] m
  obtain ⟨failed, hfailed, hcreate⟩ :=
    Database.exists_made_of_retry .historyTable (Database.asks_execute (.createHistory m.historyTable)) db
  rcases hcreate with ⟨_, db₁, t, hok, hmade⟩ | ⟨e, db₁, herr, hmade, hlen, hfive⟩
  · have h₁ : m.createHistory db = (.ok (), db₁) := Act.mapError_of_ok hok _
    refine ⟨_, db₁, hmade, (hran.of_ok (.refl db) h₁).history, fun c hc => .inl ?_, .inl h₁⟩
    rcases List.mem_cons.1 hc with rfl | hc
    · rfl
    · exact (hfailed c hc).1
  · have h₁ : m.createHistory db = (.error (.history e), db₁) := Act.mapError_of_error herr _
    refine ⟨failed, db₁, hmade, (hran.of_error (.refl db) h₁).history, fun c hc => .inl (hfailed c hc).1, ?_⟩
    exact .inr ⟨e, h₁, hfive, by simpa using spent_of_allFailed hfailed hlen []⟩

theorem currentVersion_looks (m : Migrator) (hh : db.history.entries = [(v, true)]) :
    ∃ new db₁, db.Made new db₁ ∧ db₁.history = db.history ∧ (∀ c ∈ new, m.Looks c) ∧
      (m.currentVersion db = (.error (.dirty v), db₁) ∨
        ∃ e, m.currentVersion db = (.error (.history e), db₁) ∧ e.attempts = 3 ∧
          ∀ l, Spent e (new ++ l)) := by
  have hran := @Database.ensures_retry_readHistory db [] .storage m.historyTable
  obtain ⟨failed, hfailed, hread⟩ :=
    Database.exists_made_of_retry .storage (Database.asks_readHistory m.historyTable) db
  rcases hread with ⟨rows, db₁, t, hok, hmade⟩ | ⟨e, db₁, herr, hmade, hlen, hthree⟩
  · obtain ⟨rfl, hr⟩ := hran.of_ok (.refl db) hok
    refine ⟨_, db₁, hmade, hr.history, fun c hc => .inr ?_, .inl ?_⟩
    · rcases List.mem_cons.1 hc with rfl | hc
      · rfl
      · exact (hfailed c hc).1
    · rw [currentVersion, Act.bind_of_ok (Act.mapError_of_ok hok _), replay_nil, hh]
      rfl
  · refine ⟨failed, db₁, hmade, (hran.of_error (.refl db) herr).history, fun c hc => .inr (hfailed c hc).1, ?_⟩
    have h₁ : m.currentVersion db = (.error (.history e), db₁) := Act.bind_of_error (Act.mapError_of_error herr _)
    exact .inr ⟨e, h₁, hthree, spent_of_allFailed hfailed hlen⟩

theorem refused_of_dirty (m : Migrator) (d : Direction) (hh : db.history.entries = [(v, true)]) :
    Refused m v db ((m.run d).runIn db) := by
  rw [run_eq, Act.runIn]
  obtain ⟨new, db₁, hmade, hsame, hlooks, hok | ⟨e, herr, hfive, hspent⟩⟩ := m.createHistory_looks db
  · obtain ⟨new', db₂, hmade', hsame', hlooks', hread⟩ := m.currentVersion_looks (hsame ▸ hh)
    have hall : ∀ c ∈ new' ++ new, m.Looks c := fun c hc =>
      (List.mem_append.1 hc).elim (hlooks' c) (hlooks c)
    rw [Act.bind_of_ok hok]
    rcases hread with hdirty | ⟨e, herr, hthree, hspent⟩
    · rw [Act.bind_of_error hdirty]
      exact ⟨hsame'.trans hsame, _, hmade.trans hmade', hall, .inl rfl⟩
    · rw [Act.bind_of_error herr]
      exact ⟨hsame'.trans hsame, _, hmade.trans hmade', hall, .inr ⟨e, rfl, .inr hthree, hspent new⟩⟩
  · rw [Act.bind_of_error herr]
    exact ⟨hsame, new, hmade, hlooks, .inr ⟨e, rfl, .inl hfive, hspent⟩⟩

theorem Refused.exists_ran {r : Except MigrationError (List Int) × Database} (h : Refused m v db r)
    (hh : db.history.entries.length ≤ 1) : ∃ l, db.Ran l r.2 ∧ SingleThroughout db.history l := by
  obtain ⟨new, hmade, hlooks, -⟩ := h.calls
  have hspares : ∀ s ∈ new.reverse.filterMap Call.executed?, s.effect.sparesHistory := by
    intro s hs
    obtain ⟨c, hc, hcs⟩ := List.mem_filterMap.1 hs
    rcases hlooks c (List.mem_reverse.1 hc) with hq | hq
    · simp only [Call.executed?, hq] at hcs
      split at hcs
      · cases hcs
        rfl
      · contradiction
    · simp [Call.executed?, hq] at hcs
  refine ⟨_, ⟨?_, ?_⟩, .of_spares hh hspares⟩
  · rw [Database.executed, hmade, List.reverse_append, List.filterMap_append]
    rfl
  · rw [replay_of_spares hspares, h.history]

end Run

namespace Order

/-- The database after orders that were carried out one after the other, whatever became of each. -/
def runEach (inside : Option String) (l : List Order) (db : Database) : Database :=
  l.foldl (fun db o => ((o.run inside).runIn db).2) db

variable (inside : Option String) {o : Order} {l : List Order} {db : Database} {v : Int}

/-- A history of one row or none is clean or dirty. -/
theorem clean_or_dirty {rows : List (Int × Bool)} (h : rows.length ≤ 1) :
    (∃ current, rows = row current false) ∨ ∃ v, rows = [(v, true)] := by
  match rows, h with
  | [], _ => exact .inl ⟨none, rfl⟩
  | [(v, false)], _ => exact .inl ⟨some v, rfl⟩
  | [(v, true)], _ => exact .inr ⟨v, rfl⟩

theorem exists_ran_single_run (ho : o.Spares) (hh : db.history.entries.length ≤ 1) :
    ∃ k, db.Ran k ((o.run inside).runIn db).2 ∧ SingleThroughout db.history k := by
  rcases clean_or_dirty hh with ⟨current, hclean⟩ | ⟨v, hdirty⟩
  · exact exists_ran_single (fun x hx => ho x (List.mem_mergeSort.1 hx)) hclean
  · exact (refused_of_dirty _ _ hdirty).exists_ran hh

theorem exists_ran_single_runEach (hl : ∀ o ∈ l, o.Spares) (hh : db.history.entries.length ≤ 1) :
    ∃ k, db.Ran k (runEach inside l db) ∧ SingleThroughout db.history k := by
  induction l generalizing db with
  | nil => exact ⟨[], .refl db, .of_spares hh (by simp)⟩
  | cons o l ih =>
    obtain ⟨k, hk, hsingle⟩ := exists_ran_single_run inside (hl o List.mem_cons_self) hh
    have hnext : ((o.run inside).runIn db).2.history.entries.length ≤ 1 := by
      rw [hk.history]
      exact hsingle k (List.prefix_refl k)
    obtain ⟨k', hk', hsingle'⟩ := ih (fun o ho => hl o (List.mem_cons_of_mem _ ho)) hnext
    rw [hk.history] at hsingle'
    exact ⟨k ++ k', hk.trans hk', hsingle.append hsingle'⟩

/-- Nothing is undone about a dirty history. -/
theorem history_runEach_of_dirty (hh : db.history.entries = [(v, true)]) (l : List Order) :
    (runEach inside l db).history = db.history := by
  induction l generalizing db with
  | nil => rfl
  | cons o l ih =>
    have hsame : ((o.run inside).runIn db).2.history = db.history := (refused_of_dirty _ _ hh).history
    exact (ih (hsame ▸ hh)).trans hsame

/-- From an empty history on, there is never more than one row, whatever fails. Once there is a dirty one,
every later order is refused because of it, and it stays. -/
theorem history_locks {orders : List Order} (ho : ∀ o ∈ orders, o.Spares)
    {db : Database} (hh : db.history.entries = []) :
    let after := runEach inside orders db
    (∃ log, db.Ran log after ∧ SingleThroughout db.history log) ∧
      ∀ v, (v, true) ∈ after.history.entries → ∀ (later : List Order) (o : Order),
        let before := runEach inside later after
        before.history = after.history ∧
          Refused (new inside o.migrations) v before ((o.run inside).runIn before) := by
  intro after
  have hnone : db.history.entries.length ≤ 1 := by simp [hh]
  obtain ⟨log, hlog, hsingle⟩ := exists_ran_single_runEach inside ho hnone
  refine ⟨⟨log, hlog, hsingle⟩, fun v hv later o => ?_⟩
  have hrow : after.history.entries = [(v, true)] := by
    have hle : after.history.entries.length ≤ 1 := hlog.history ▸ hsingle log (List.prefix_refl log)
    rcases clean_or_dirty hle with ⟨current, hclean⟩ | ⟨w, hdirty⟩
    · cases current <;> simp [hclean, row] at hv
    · rw [hdirty] at hv ⊢
      rw [List.mem_singleton.1 hv]
  have hsame := history_runEach_of_dirty inside hrow later
  exact ⟨hsame, refused_of_dirty _ _ (hsame ▸ hrow)⟩

section Interrupted

def interrupted : Order :=
  ⟨.up, [⟨1, "first", "CREATE TABLE a;", "DROP TABLE a;"⟩,
    ⟨2, "second", "CREATE TABLE b;", "DROP TABLE b;"⟩]⟩

/-- A session that is lost before the script of the second migration. -/
def lostBetween : Database where
  outcome n := if n < 7 then none else some { message := "connection lost" }

theorem runEach_interrupted : runEach none [interrupted] lostBetween =
    (((⟨Statement.historyTable, interrupted.migrations⟩ : Migrator).run .up).runIn lostBetween).2 := by
  rw [runEach, List.foldl_cons, List.foldl_nil, run, new, List.mergeSort_of_pairwise (by decide)]
  rfl

theorem history_locks_interrupted :
    (∀ o ∈ [interrupted], o.Spares) ∧ lostBetween.history.entries = [] ∧
    let after := runEach none [interrupted] lostBetween
    (2, true) ∈ after.history.entries ∧
    (∃ log, lostBetween.Ran log after ∧ SingleThroughout lostBetween.history log) ∧
      ∀ v, (v, true) ∈ after.history.entries → ∀ (later : List Order) (o : Order),
        let before := runEach none later after
        before.history = after.history ∧
          Refused (new none o.migrations) v before ((o.run none).runIn before) := by
  have ho : ∀ o ∈ [interrupted], o.Spares := by decide
  have hdirty : (2, true) ∈ (runEach none [interrupted] lostBetween).history.entries := by
    rw [runEach_interrupted]
    decide +kernel
  exact ⟨ho, rfl, hdirty, history_locks none ho rfl⟩

/-- A migration that writes to the history itself. -/
def rowWriter : Order :=
  ⟨.up, [⟨1, "second_row", "INSERT INTO schema_migrations (version, dirty) VALUES (2, false);", ""⟩]⟩

theorem rowWriter_leaves_two :
    (rowWriter.migrations.map (·.version)).Nodup ∧ ({} : Database).history.entries = [] ∧
      (runEach none [rowWriter] {}).history.entries = [(1, false), (2, false)] := by
  refine ⟨by decide, rfl, ?_⟩
  rw [runEach, List.foldl_cons, List.foldl_nil, run, new, List.mergeSort_of_pairwise (by decide)]
  decide +kernel

end Interrupted

end Order

end Migrator

end Rollcall
