import Mathlib.Data.List.Basic
import Mathlib.Order.Bounds.Basic
import Rollcall.Proofs.Schema.Run

/-! Whether the history of a database tells which schema it has. The schema is read off the statements that
were executed: a migration belongs to it once its script upwards ran to the end, until its script downwards
did. A run that fails leaves a dirty row or the right one, but for one gap: a row is taken away before the
next one is written, and between the two the history tells of an empty schema. -/

namespace Rollcall

namespace Stage

/-- The log of the stages: these were marked, and their scripts ran to the end. -/
structure Logged (m : Migrator) (l : List Stage) (log : List Statement) : Prop where
  mem_of_mark : ∀ v, .record m.historyTable v true ∈ log → v ∈ l.map (·.version)
  opening : ∀ s ∈ l, s.opening m <:+: log

variable {m : Migrator} {k l : List Stage} {log q : List Statement} {s : Stage}

theorem Logged.nil (hq : ∀ v, .record m.historyTable v true ∉ q) : Logged m [] q :=
  ⟨fun v hv => absurd hv (hq v), by simp⟩

theorem Logged.append (h : Logged m l log) (h' : Logged m k q) : Logged m (l ++ k) (log ++ q) where
  mem_of_mark := by
    intro v hv
    rw [List.map_append, List.mem_append]
    exact (List.mem_append.1 hv).imp (h.mem_of_mark v) (h'.mem_of_mark v)
  opening := by
    intro s hs
    rcases List.mem_append.1 hs with hs | hs
    · exact (h.opening s hs).trans (List.prefix_append _ _).isInfix
    · exact (h'.opening s hs).trans (List.suffix_append _ _).isInfix

theorem Logged.concat (h : Logged m l log) (hq : ∀ v, .record m.historyTable v true ∉ q) :
    Logged m l (log ++ q) := by
  have := h.append (.nil hq)
  rwa [List.append_nil] at this

theorem Logged.cons {t : Statement} (h : Logged m l log)
    (ht : ∀ v, t ≠ .record m.historyTable v true) : Logged m l (t :: log) :=
  (Logged.nil (q := [t]) (by simpa [eq_comm] using ht)).append h

theorem Logged.of_script (hq : ∀ v, .record m.historyTable v true ∉ q) :
    Logged m [s] (m.versionChange s.before (some s.version) true ++
      ((Script.statements s.script).map .script ++ q)) where
  mem_of_mark := by
    intro v hv
    simp only [Migrator.versionChange, List.mem_append, List.mem_map, reduceCtorEq, and_false,
      exists_false, false_or, hq v, or_false] at hv
    simpa [eq_comm] using hv
  opening := by
    simp only [List.mem_singleton, forall_eq]
    exact ⟨(s.before.filter (some · ≠ some s.version)).toList.map (.forget m.historyTable), q, by
      simp [Stage.opening, Migrator.versionChange]⟩

theorem logged_statements : Logged m [s] (s.statements m) :=
  .of_script (by cases h : s.after <;> simp [Migrator.versionChange])

theorem logged_flatMap (l : List Stage) : Logged m l (l.flatMap (statements m)) := by
  induction l with
  | nil => exact .nil (by simp)
  | cons s r ih => exact logged_statements.append ih

/-- Stages that lead to a version end with the row of that version. -/
theorem exists_flatMap_eq_concat {a : Option Int} {v : Int} (h : Linked a l (some v)) (hl : l ≠ []) :
    ∃ k, l.flatMap (statements m) = k ++ [.record m.historyTable v false] := by
  induction l generalizing a with
  | nil => contradiction
  | cons s r ih =>
    rcases r with _ | ⟨t, r⟩
    · have hs : s.after = some v := h.2
      simp [statements, hs, Migrator.versionChange, ← List.append_assoc]
    · obtain ⟨k, hk⟩ := ih h.2 (by simp)
      exact ⟨s.statements m ++ k, by rw [List.flatMap_cons, hk, List.append_assoc]⟩

end Stage

namespace Migrator

/-- The set has this greatest element, or is empty. -/
def Top : Option Int → Set Int → Prop
  | none, S => S = ∅
  | some v, S => IsGreatest S v

/-- The rows tell the schema: one is dirty, or the recorded version is the highest of the schema. -/
def Reports (rows : List (Int × Bool)) (S : Set Int) : Prop :=
  (∃ v, (v, true) ∈ rows) ∨ Top ((highest rows).map (·.1)) S

/-- All migrations up to a version. -/
def upTo (m : Migrator) (current : Option Int) : Set Int :=
  {v | ∃ x ∈ m.migrations, x.version = v ∧ ∃ w ∈ current, v ≤ w}

/-- The migrations whose scripts in a direction ran to the end: all the statements follow the mark. -/
def scriptsRun (m : Migrator) (d : Direction) (log : List Statement) : Set Int :=
  {v | ∃ x ∈ m.migrations, x.version = v ∧
    .record m.historyTable v true :: (Script.statements (x.script d)).map .script <:+: log}

/-- The schema that a run in a direction makes of one. -/
def schemaAfter (m : Migrator) (d : Direction) (S : Set Int) (log : List Statement) : Set Int :=
  match d with
  | .up => S ∪ m.scriptsRun .up log
  | .down => S \ m.scriptsRun .down log

theorem reports_row {v : Option Int} {S : Set Int} : Reports (row v false) S ↔ Top v S := by
  rw [Reports, highest_row, Option.map_map]
  cases v <;> simp [row]

theorem not_reports_nil {v : Int} {S : Set Int} (h : Top (some v) S) : ¬Reports [] S := by
  rintro (⟨w, hw⟩ | hS)
  · simp at hw
  · have hS : S = ∅ := hS
    exact (Set.nonempty_iff_ne_empty.1 (IsGreatest.nonempty h)) hS

theorem Top.unique {v w : Option Int} {S : Set Int} (hv : Top v S) (hw : Top w S) : v = w := by
  cases v with
  | none =>
    cases w with
    | none => rfl
    | some w => exact absurd hv (Set.nonempty_iff_ne_empty.1 (IsGreatest.nonempty hw))
  | some v =>
    cases w with
    | none => exact absurd hw (Set.nonempty_iff_ne_empty.1 (IsGreatest.nonempty hv))
    | some w => exact congrArg some (IsGreatest.unique hv hw)

/-- The migrations are in order, and the version at which the schema stands is that of one of them. -/
structure Ready (m : Migrator) (current : Option Int) : Prop where
  sorted : m.migrations.Pairwise fun x y => x.version < y.version
  known : ∀ v ∈ current, ∃ x ∈ m.migrations, x.version = v

section Sorted

variable {m : Migrator} {current : Option Int}

/-- Migrations of different versions are in strict order once they are sorted. -/
theorem pairwise_mergeSort_version {ms : List Migration} (hd : (ms.map (·.version)).Nodup) :
    (ms.mergeSort fun x y => x.version ≤ y.version).Pairwise fun x y => x.version < y.version :=
  (pairwise_mergeSort_key_of_pairwise Migration.version (List.pairwise_map.1 hd)).imp
    fun ⟨hle, hne⟩ => Int.lt_iff_le_and_ne.2 ⟨hle, fun heq => hne heq heq⟩

theorem pairwise_new {inside : Option String} {ms : List Migration} (hd : (ms.map (·.version)).Nodup) :
    (new inside ms).migrations.Pairwise fun x y => x.version < y.version :=
  pairwise_mergeSort_version hd

theorem pairwise_passed_up (h : m.Ready current) :
    ((m.passed .up current).map (·.version)).Pairwise (· < ·) :=
  List.pairwise_map.2 (h.sorted.filter _)

theorem lt_of_mem_passed_up {v w : Int} (hv : v ∈ m.upTo current)
    (hw : w ∈ (m.passed .up current).map (·.version)) : v < w := by
  obtain ⟨x, -, rfl, u, hu, hxu⟩ := hv
  obtain ⟨y, hy, rfl⟩ := List.mem_map.1 hw
  have : u < y.version := by
    simpa [Option.mem_def.1 hu] using (List.mem_filter.1 hy).2
  omega

theorem mem_passed_down {x : Migration} :
    x ∈ m.passed .down current ↔ x ∈ m.migrations ∧ ∃ w ∈ current, x.version ≤ w := by
  cases current <;> simp [passed, applied]

theorem pairwise_passed_down (h : m.Ready current) :
    ((m.passed .down current).map (·.version)).Pairwise (· > ·) := by
  cases current with
  | none => exact .nil
  | some v => exact List.pairwise_map.2 ((List.pairwise_reverse.2 h.sorted).filter _)

theorem mem_upTo {v : Int} :
    v ∈ m.upTo current ↔ v ∈ (m.passed .down current).map (·.version) := by
  simp only [upTo, Set.mem_ofPred_eq, List.mem_map, mem_passed_down]
  constructor
  · rintro ⟨x, hx, rfl, hw⟩
    exact ⟨x, ⟨hx, hw⟩, rfl⟩
  · rintro ⟨x, ⟨hx, hw⟩, rfl⟩
    exact ⟨x, hx, rfl, hw⟩

/-- The greatest of a descending list is its head. -/
theorem top_head {l : List Int} (hl : l.Pairwise (· > ·)) : Top l.head? {v | v ∈ l} := by
  cases l with
  | nil => simp [Top]
  | cons v r =>
    refine ⟨by simp, fun w hw => ?_⟩
    rcases List.mem_cons.1 hw with rfl | hw
    · exact le_rfl
    · exact le_of_lt ((List.pairwise_cons.1 hl).1 w hw)

theorem top_getLast {l : List Int} (hl : l.Pairwise (· < ·)) : Top l.getLast? {v | v ∈ l} := by
  have := top_head (l := l.reverse) (List.pairwise_reverse.2 hl)
  simpa using this

theorem top_upTo (h : m.Ready current) : Top current (m.upTo current) := by
  cases current with
  | none => simp [Top, upTo]
  | some v =>
    obtain ⟨x, hx, rfl⟩ := h.known v rfl
    refine ⟨⟨x, hx, rfl, x.version, rfl, le_rfl⟩, ?_⟩
    rintro w ⟨y, -, rfl, u, hu, hyu⟩
    rwa [← Option.some.inj hu] at hyu

theorem head_passed_down (h : m.Ready current) :
    (m.passed .down current).head?.map (·.version) = current := by
  have hset : {v | v ∈ (m.passed .down current).map (·.version)} = m.upTo current := by
    ext v
    exact mem_upTo.symm
  have hhead := top_head (pairwise_passed_down h)
  rw [hset, List.head?_map] at hhead
  exact hhead.unique (top_upTo h)

end Sorted

section Run

variable {m : Migrator} {current : Option Int} {d : Direction} {k rest : List Stage} {s : Stage}
  {log : List Statement}

theorem scriptsRun_eq (hk : ∀ s ∈ k, s ∈ m.way d current) (hlog : Stage.Logged m k log) :
    m.scriptsRun d log = {v | v ∈ k.map (·.version)} := by
  ext v
  constructor
  · rintro ⟨x, -, rfl, hx⟩
    exact hlog.mem_of_mark x.version (hx.subset (by simp))
  · intro hv
    obtain ⟨s, hs, rfl⟩ := List.mem_map.1 hv
    obtain ⟨x, hx, hsx, hscript⟩ := exists_of_mem_way (hk s hs)
    refine ⟨x, hx, hsx.symm, ?_⟩
    rw [hsx, ← hscript, ← hsx]
    exact hlog.opening s hs

/-- An ascent leads to the version of its last stage. -/
theorem eq_of_linked_ascent {a b : Option Int} (hk : ∀ s ∈ k, s.after = some s.version)
    (hl : Stage.Linked a k b) : b = (k.map (·.version)).getLast?.or a := by
  induction k generalizing a with
  | nil => simpa using hl.symm
  | cons s r ih =>
    have hr := ih (fun t ht => hk t (by simp [ht])) hl.2
    rw [hr, hk s (by simp), List.map_cons, List.getLast?_cons]
    cases (r.map (·.version)).getLast? <;> rfl

/-- A descent that leads to none starts at the version of its first stage. -/
theorem eq_of_linked_descent {a : Option Int} (hk : ∀ s ∈ k, s.before = some s.version)
    (hl : Stage.Linked a k none) : a = (k.map (·.version)).head? := by
  cases k with
  | nil => exact hl
  | cons s r => rw [← hl.1, hk s (by simp)]; rfl

variable (hr : m.Ready current)
include hr

theorem before_of_mem_way_down (hs : s ∈ m.way .down current) : s.before = some s.version := by
  refine before_of_mem_stages_down (l := m.passed .down current) ?_
  rw [head_passed_down hr]
  exact hs

theorem linked_way_down : Stage.Linked current (m.way .down current) none := by
  have := linked_stages_down (m.passed .down current)
  rwa [head_passed_down hr] at this

/-- Where some first stages were carried out, they lead to the highest version of the schema. -/
theorem top_schemaAfter {a : Option Int} (hway : m.way d current = k ++ rest)
    (hl : Stage.Linked current k a) (hlog : Stage.Logged m k log) :
    Top a (m.schemaAfter d (m.upTo current) log) := by
  have hmem : ∀ s ∈ k, s ∈ m.way d current := fun s hs => by simp [hway, hs]
  have hversion := m.version_way d current
  rw [hway, List.map_append] at hversion
  cases d with
  | up =>
    have hk := pairwise_passed_up hr
    rw [← hversion] at hk
    have htop := top_upTo hr
    have hlast := top_getLast (List.pairwise_append.1 hk).1
    rw [schemaAfter, scriptsRun_eq hmem hlog,
      eq_of_linked_ascent (fun s hs => after_of_mem_stages_up (hmem s hs)) hl]
    rcases hv : (k.map (·.version)).getLast? with _ | v
    · simpa [hv, List.getLast?_eq_none_iff.1 hv] using htop
    · rw [hv] at hlast ⊢
      refine ⟨.inr hlast.1, fun w hw => hw.elim (fun hw => le_of_lt ?_) fun hw => hlast.2 hw⟩
      refine lt_of_mem_passed_up hw ?_
      rw [← hversion]
      exact List.mem_append_left _ hlast.1
  | down =>
    have hk := pairwise_passed_down hr
    rw [← hversion] at hk
    obtain ⟨_, hka, hrest⟩ := Stage.linked_append.1 (hway ▸ linked_way_down hr)
    obtain rfl := hka.unique hl
    have hbefore : ∀ s ∈ rest, s.before = some s.version := fun s hs =>
      before_of_mem_way_down hr (by simp [hway, hs])
    have hset : m.upTo current \ {v | v ∈ k.map (·.version)} = {v | v ∈ rest.map (·.version)} := by
      ext v
      rw [Set.mem_sdiff, mem_upTo, ← hversion, List.mem_append]
      constructor
      · exact fun h => h.1.resolve_left h.2
      · intro h
        refine ⟨.inr h, fun hv => ?_⟩
        exact lt_irrefl v ((List.pairwise_append.1 hk).2.2 v hv v h)
    rw [schemaAfter, scriptsRun_eq hmem hlog, hset, eq_of_linked_descent hbefore hrest]
    exact top_head (List.pairwise_append.1 hk).2.1

/-- Only before the first stage there may be no row. -/
theorem eq_nil_of_linked_none (hway : m.way d current = k ++ s :: rest)
    (hl : Stage.Linked current k none) : k = [] := by
  cases d with
  | up =>
    have hmem : ∀ s ∈ k, s ∈ m.way .up current := fun s hs => by simp [hway, hs]
    have := eq_of_linked_ascent (fun s hs => after_of_mem_stages_up (hmem s hs)) hl
    have hnone := (Option.or_eq_none_iff.1 this.symm).1
    simpa using hnone
  | down =>
    obtain ⟨_, hka, hs, -⟩ := Stage.linked_append.1 (hway ▸ linked_way_down hr)
    obtain rfl := hka.unique hl
    have := before_of_mem_way_down hr (s := s) (by simp [hway])
    rw [hs] at this
    contradiction

end Run

section Failure

variable {m : Migrator} {l q : List Statement} {w : Int}

/-- The last statement took a row away. -/
def EndsForgetting (m : Migrator) (log : List Statement) : Prop :=
  ∃ v, log.getLast? = some (.forget m.historyTable v)

theorem endsForgetting_concat : EndsForgetting m (l ++ [.forget m.historyTable w]) :=
  ⟨w, by simp⟩

theorem not_endsForgetting (hq : q ≠ []) (h : ∀ v, .forget m.historyTable v ∉ q) :
    ¬EndsForgetting m (l ++ q) := by
  rintro ⟨v, hv⟩
  rw [List.getLast?_append_of_ne_nil _ hq] at hv
  exact h v (List.mem_of_getLast? hv)

variable {current : Option Int} {d : Direction} {h : Ledger Int Bool}

theorem not_endsForgetting_stages (hr : m.Ready current) {done rest : List Stage} {s : Stage}
    (hway : m.way d current = done ++ s :: rest) (hdone : Stage.Linked current done s.before) :
    ¬EndsForgetting m (.createHistory m.historyTable :: done.flatMap (Stage.statements m)) := by
  by_cases hne : done = []
  · subst hne
    exact not_endsForgetting (l := []) (by simp) (by simp)
  · rcases hv : s.before with _ | v
    · exact absurd (eq_nil_of_linked_none hr hway (hv ▸ hdone)) hne
    · obtain ⟨k, hk⟩ := Stage.exists_flatMap_eq_concat (m := m) (hv ▸ hdone) hne
      rw [hk, ← List.cons_append]
      exact not_endsForgetting (by simp) (by simp)

theorem not_endsForgetting_marked (l : List Statement) (old : Option Int) (v : Int) {script : List String}
    (hq : q <+: script.map .script) :
    ¬EndsForgetting m (l ++ (m.versionChange old (some v) true ++ q)) := by
  obtain ⟨k, hk⟩ := m.exists_versionChange_append_eq old v true q
  rw [hk, ← List.append_assoc]
  refine not_endsForgetting (by simp) fun w hw => ?_
  rcases List.mem_cons.1 hw with hw | hw
  · contradiction
  · obtain ⟨u, -, hu⟩ := List.mem_map.1 (hq.subset hw)
    contradiction

/-- Where the way was left, the history misreports the schema exactly behind a row taken away. -/
theorem reports_iff_of_cut (hr : m.Ready current) (ht : ∀ s ∈ m.way d current, s.Tame)
    (hh : h.entries = row current false) {k r : List Statement} {t : Statement}
    (hk : (m.way d current).flatMap (Stage.statements m) = k ++ t :: r) :
    Reports (replay h k).entries
        (m.schemaAfter d (m.upTo current) (.createHistory m.historyTable :: k)) ↔
      ¬EndsForgetting m (.createHistory m.historyTable :: k) := by
  obtain ⟨done, s, rest, q, _, hway, rfl, hs⟩ := exists_of_flatMap_eq_append_cons hk
  obtain ⟨b, hb⟩ := linked_stages d current (m.passed d current)
  rw [← way, hway] at hb
  rw [hway] at ht
  obtain ⟨_, hdone, rfl, -⟩ := Stage.linked_append.1 hb
  have hrow := Stage.entries_flatMap (m := m) hdone (fun s hs => ht s (by simp [hs])) hh
  have hin := Stage.within_of_statements_eq (ht s (by simp)) hrow hs
  have hlog : Stage.Logged m done
      (.createHistory m.historyTable :: done.flatMap (Stage.statements m)) :=
    (Stage.logged_flatMap done).cons (by simp)
  rw [← replay_append] at hin
  generalize (replay h (done.flatMap (Stage.statements m) ++ q)).entries = rows at hin
  cases hin with
  | start =>
    rw [List.append_nil]
    exact iff_of_true (reports_row.2 (top_schemaAfter hr hway hdone hlog))
      (not_endsForgetting_stages hr hway hdone)
  | @moved v hv _ =>
    have hlog' := hlog.concat (q := [.forget m.historyTable v]) (by simp)
    have htop := top_schemaAfter hr hway (hv ▸ hdone) hlog'
    refine iff_of_false (not_reports_nil htop) (not_not_intro ?_)
    rw [← List.cons_append]
    exact endsForgetting_concat
  | @marked q hq =>
    refine iff_of_true (.inl ⟨s.version, by simp⟩) ?_
    rw [← List.cons_append]
    exact not_endsForgetting_marked _ s.before s.version hq
  | @ended v hv _ =>
    have hlog' := hlog.append (Stage.Logged.of_script (s := s)
      (q := [.forget m.historyTable s.version]) (by simp))
    have hdone' : Stage.Linked current (done ++ [s]) (some v) :=
      Stage.linked_append.2 ⟨s.before, hdone, rfl, hv⟩
    have htop := top_schemaAfter hr (by simpa using hway) hdone' hlog'
    refine iff_of_false (not_reports_nil htop) (not_not_intro ?_)
    rw [← List.append_assoc, ← List.append_assoc, ← List.cons_append]
    exact endsForgetting_concat

/-- A run of sorted migrations leaves a history that tells the schema, but where it failed behind a row
taken away. -/
theorem reports_iff_of_run (hready : m.Ready current) (ht : ∀ s ∈ m.way d current, s.Tame)
    {db db' : Database} (hh : db.history.entries = row current false)
    {r : Except MigrationError (List Int)} (hrun : m.run d db = (r, db')) :
    Reports db'.history.entries
        (m.schemaAfter d (m.upTo current) (db'.executed.drop db.executed.length)) ↔
      ¬((∃ e, r = .error e) ∧ EndsForgetting m (db'.executed.drop db.executed.length)) := by
  have hnone {log : List Statement} (hlog : Stage.Logged m [] log) :
      Reports db.history.entries (m.schemaAfter d (m.upTo current) log) := by
    rw [hh]
    exact reports_row.2 (top_schemaAfter hready (List.nil_append _).symm rfl hlog)
  cases r with
  | error e =>
    rw [and_iff_right ⟨e, rfl⟩]
    rcases (m.ensures_run d hh).of_error rfl hrun with hr | ⟨k, hr, rfl | ⟨s, r, hk⟩⟩
    · rw [hr.drop_eq, hr.history]
      exact iff_of_true (hnone (.nil (by simp))) (by simp [EndsForgetting])
    · rw [hr.drop_eq, hr.history]
      exact iff_of_true (hnone (.nil (by simp))) (not_endsForgetting (l := []) (by simp) (by simp))
    · rw [hr.drop_eq, hr.history]
      exact reports_iff_of_cut hready ht hh hk
  | ok a =>
    obtain ⟨-, hr⟩ := (m.ensures_run d hh).of_ok rfl hrun
    obtain ⟨b, hb⟩ := linked_stages d current (m.passed d current)
    have hrow := Stage.entries_flatMap (m := m) hb ht hh
    have hlog := (Stage.logged_flatMap (m := m) (m.way d current)).cons
      (t := .createHistory m.historyTable) (by simp)
    have htop := top_schemaAfter hready (List.append_nil _).symm hb hlog
    rw [hr.drop_eq, hr.history]
    refine iff_of_true ?_ (by simp)
    rw [← reports_row, ← hrow] at htop
    exact htop

end Failure

/-- After a run from a history that tells the schema, the history tells it wrong exactly where the run
failed between taking a row away and writing the next one. -/
theorem misreports_iff (inside : Option String) {ms : List Migration}
    (hd : (ms.map (·.version)).Nodup) (d : Direction)
    (ht : ∀ x ∈ ms, ∀ t ∈ Script.statements (x.script d), (Statement.script t).effect.sparesHistory)
    {db : Database} {current : Option Int} (hrow : db.history.entries = row current false)
    (hc : ∀ v ∈ current, ∃ x ∈ ms, x.version = v) :
    let m := new inside ms
    let after := (m.run d).runIn db
    let log := after.2.executed.drop db.executed.length
    ¬Reports after.2.history.entries (m.schemaAfter d (m.upTo current) log) ↔
      (∃ e, after.1 = .error e) ∧ EndsForgetting m log := by
  have hmem : ∀ x, x ∈ (new inside ms).migrations ↔ x ∈ ms := fun x => List.mem_mergeSort
  have hc' : ∀ v ∈ current, ∃ x ∈ (new inside ms).migrations, x.version = v := by
    simpa only [hmem] using hc
  have htame : ∀ s ∈ (new inside ms).way d current, s.Tame := by
    intro s hs t hts
    obtain ⟨x, hx, -, hscript⟩ := exists_of_mem_way hs
    exact ht x ((hmem x).1 hx) t (hscript ▸ hts)
  exact not_iff_comm.1 (reports_iff_of_run ⟨pairwise_new hd, hc'⟩ htame hrow rfl).symm

section TwoTables

/-- Two migrations, the first of which was applied. -/
def twoTables : List Migration :=
  [⟨1, "first", "CREATE TABLE a;", "DROP TABLE a;"⟩, ⟨2, "second", "CREATE TABLE b;", "DROP TABLE b;"⟩]

/-- A session that is lost after the row of the first migration was taken away. -/
def lostSession : Database where
  outcome n := if n < 3 then none else some { message := "connection lost" }
  history := .ofList [(1, false)]

theorem new_twoTables : new none twoTables = ⟨Statement.historyTable, twoTables⟩ := by
  rw [new, List.mergeSort_of_pairwise (by decide)]
  rfl

theorem misreports_iff_lostSession :
    (twoTables.map (·.version)).Nodup ∧
    (∀ x ∈ twoTables, ∀ t ∈ Script.statements (x.script .up),
      (Statement.script t).effect.sparesHistory) ∧
    lostSession.history.entries = row (some 1) false ∧
    (∀ v ∈ some (1 : Int), ∃ x ∈ twoTables, x.version = v) ∧
    let m := new none twoTables
    let after := (m.run .up).runIn lostSession
    let log := after.2.executed.drop lostSession.executed.length
    (¬Reports after.2.history.entries (m.schemaAfter .up (m.upTo (some 1)) log) ↔
      (∃ e, after.1 = .error e) ∧ EndsForgetting m log) := by
  have hd : (twoTables.map (·.version)).Nodup := by decide
  have ht : ∀ x ∈ twoTables, ∀ t ∈ Script.statements (x.script .up),
      (Statement.script t).effect.sparesHistory := by decide
  have hrow : lostSession.history.entries = row (some 1) false := by decide
  have hc : ∀ v ∈ some (1 : Int), ∃ x ∈ twoTables, x.version = v := by
    rintro v ⟨⟩
    exact ⟨_, List.mem_cons_self, rfl⟩
  exact ⟨hd, ht, hrow, hc, misreports_iff none hd .up ht hrow hc⟩

/-- The history of the lost session is empty, while its first migration stands. -/
theorem lostSession_misreports :
    lostSession.history.entries = row (some 1) false ∧
    let m := new none twoTables
    let after := (m.run .up).runIn lostSession
    let log := after.2.executed.drop lostSession.executed.length
    after.2.history.entries = [] ∧ 1 ∈ m.schemaAfter .up (m.upTo (some 1)) log ∧
      ¬Reports after.2.history.entries (m.schemaAfter .up (m.upTo (some 1)) log) := by
  refine ⟨by decide, ?_⟩
  rw [new_twoTables]
  intro m after log
  have hempty : after.2.history.entries = [] := by decide
  have hone : 1 ∈ m.schemaAfter .up (m.upTo (some 1)) log :=
    .inl ⟨_, List.mem_cons_self, rfl, 1, rfl, le_rfl⟩
  refine ⟨hempty, hone, ?_⟩
  rw [hempty]
  rintro (⟨v, hv⟩ | hnone)
  · simp at hv
  · rw [show m.schemaAfter .up (m.upTo (some 1)) log = ∅ from hnone] at hone
    exact hone

end TwoTables

end Migrator

end Rollcall
