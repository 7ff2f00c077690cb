import Mathlib.Data.List.Sort
import Rollcall.Proofs.Schema.History
import Rollcall.Proofs.Schema.Outage

/-! Runs that follow each other over a session that never fails. Where a run left off, the next one goes on: it
takes the migrations above the last version upwards, and all up to it downwards. So an ascent may be cut in
two anywhere, and a descent undoes it. -/

namespace Rollcall

def Statement.script? : Statement → Option String
  | .script s => some s
  | _ => none

theorem Stage.filterMap_statements (m : Migrator) (s : Stage) :
    (s.statements m).filterMap Statement.script? = Script.statements s.script := by
  have hmove (old new : Option Int) (d : Bool) :
      (m.versionChange old new d).filterMap Statement.script? = [] := by
    simp [Migrator.versionChange, Statement.script?]
  simp [statements, hmove, Statement.script?, Function.comp_def]

namespace Migrator

/-- The statements of the scripts of migrations in one direction. -/
def scripts (d : Direction) (l : List Migration) : List String :=
  l.flatMap fun x => Script.statements (x.script d)

theorem scripts_append (d : Direction) (k l : List Migration) :
    scripts d (k ++ l) = scripts d k ++ scripts d l :=
  List.flatMap_append

theorem scripts_cons (d : Direction) (x : Migration) (l : List Migration) :
    scripts d (x :: l) = Script.statements (x.script d) ++ scripts d l :=
  List.flatMap_cons

theorem filterMap_stages (m : Migrator) (d : Direction) (at? : Option Int) (l : List Migration) :
    ((stages d at? l).flatMap (Stage.statements m)).filterMap Statement.script? = scripts d l := by
  induction l generalizing at? with
  | nil => rfl
  | cons x r ih => simp [stages, scripts, Stage.filterMap_statements, ih]

/-- The session never fails, and the history says that the schema stands at this version. -/
structure StandsAt (db : Database) (v : Option Int) : Prop where
  calm : db.Calm
  rows : db.history.entries = row v false

theorem filterMap_queries (m : Migrator) (d : Direction) (v : Option Int) :
    (m.queries d v).filterMap Query.statement? =
      .createHistory m.historyTable :: (m.way d v).flatMap (Stage.statements m) := by
  have hexecute (l : List Statement) : (l.map Query.execute).filterMap Query.statement? = l := by
    simp [Query.statement?, Function.comp_def]
  exact congrArg (.createHistory m.historyTable :: ·) (hexecute ((m.way d v).flatMap (Stage.statements m)))

/-- A run goes all its way. -/
theorem StandsAt.exists_run_eq {m : Migrator} {d : Direction} {db : Database} {v w : Option Int}
    (hdb : StandsAt db v) (hs : ∀ x ∈ m.migrations, x.Spares d) (hl : Stage.Linked v (m.way d v) w) :
    ∃ db', m.run d db = (.ok ((m.passed d v).map (·.version)), db') ∧ StandsAt db' w ∧
      (db'.executed.drop db.executed.length).filterMap Statement.script? = scripts d (m.passed d v) := by
  have hclean : highest db.history.entries = v.map (·, false) := by rw [hdb.rows, highest_row]
  obtain ⟨db', hrun, hserved, -⟩ := delivers_run hclean db [] rfl (hdb.calm.lets _)
  have hran : db.Ran (.createHistory m.historyTable :: (m.way d v).flatMap (Stage.statements m)) db' :=
    m.filterMap_queries d v ▸ hserved.ran
  refine ⟨db', hrun, ⟨hserved.calm hdb.calm, ?_⟩, ?_⟩
  · rw [hran.history]
    exact Stage.entries_flatMap hl (fun s hs' => tame_of_mem_way hs hs') hdb.rows
  · rw [hran.drop_eq]
    exact m.filterMap_stages d v (m.passed d v)

/-- The migrations are in the order of their versions. -/
abbrev Ascending (l : List Migration) : Prop := l.Pairwise fun x y => x.version < y.version

/-- The version of the last migration. -/
def lastVersion (l : List Migration) : Option Int := (l.map (·.version)).getLast?

section Parts

variable {m : Migrator} {k l : List Migration}

theorem le_lastVersion (hk : Ascending k) {x : Migration} (hx : x ∈ k) :
    ∃ w ∈ lastVersion k, x.version ≤ w := by
  have hmem : x.version ∈ k.map (·.version) := List.mem_map_of_mem hx
  have htop : Top (lastVersion k) {v | v ∈ k.map (·.version)} := top_getLast (List.pairwise_map.2 hk)
  cases hw : lastVersion k with
  | none =>
    rw [List.getLast?_eq_none_iff.1 hw] at hmem
    contradiction
  | some w =>
    rw [hw] at htop
    exact ⟨w, rfl, htop.2 hmem⟩

theorem exists_of_mem_lastVersion {w : Int} (hw : w ∈ lastVersion k) : ∃ x ∈ k, x.version = w :=
  List.mem_map.1 (List.mem_of_getLast? hw)

variable (hm : m.migrations = k ++ l) (hsorted : Ascending (k ++ l))
include hm hsorted

/-- Upwards from the last version of some first migrations the others are left. -/
theorem passed_up_lastVersion : m.passed .up (lastVersion k) = l := by
  obtain ⟨hk, -, hkl⟩ := List.pairwise_append.1 hsorted
  have hbelow : k.filter (fun x => (lastVersion k).all (· < x.version)) = [] := by
    refine List.filter_eq_nil_iff.2 fun x hx => ?_
    obtain ⟨w, hw, hxw⟩ := le_lastVersion hk hx
    rw [Option.mem_def.1 hw]
    simpa using hxw
  have habove : l.filter (fun x => (lastVersion k).all (· < x.version)) = l := by
    refine List.filter_eq_self.2 fun y hy => ?_
    cases hw : lastVersion k with
    | none => rfl
    | some w =>
      obtain ⟨x, hx, rfl⟩ := exists_of_mem_lastVersion hw
      simpa using hkl x hx y hy
  rw [passed, pending, hm, List.filter_append, hbelow, habove, List.nil_append]

/-- Downwards from there they are passed themselves, the last one first. -/
theorem passed_down_lastVersion : m.passed .down (lastVersion k) = k.reverse := by
  obtain ⟨hk, -, hkl⟩ := List.pairwise_append.1 hsorted
  cases hw : lastVersion k with
  | none =>
    have hnil : k = [] := by simpa [lastVersion] using hw
    rw [hnil]
    rfl
  | some w =>
    obtain ⟨z, hz, hzw⟩ := exists_of_mem_lastVersion hw
    have habove : l.reverse.filter (fun x => x.version ≤ w) = [] := by
      refine List.filter_eq_nil_iff.2 fun y hy => ?_
      have := hkl z hz y (List.mem_reverse.1 hy)
      simp only [decide_eq_true_eq]
      omega
    have hbelow : k.reverse.filter (fun x => x.version ≤ w) = k.reverse := by
      refine List.filter_eq_self.2 fun x hx => ?_
      obtain ⟨u, hu, hxu⟩ := le_lastVersion hk (List.mem_reverse.1 hx)
      obtain rfl : w = u := Option.some.inj (hw.symm.trans hu)
      exact decide_eq_true hxu
    rw [passed, Option.elim, applied, hm, List.reverse_append, List.filter_append, habove, hbelow,
      List.nil_append]

theorem linked_way_up_lastVersion :
    Stage.Linked (lastVersion k) (m.way .up (lastVersion k)) (lastVersion (k ++ l)) := by
  obtain ⟨b, hb⟩ := linked_stages .up (lastVersion k) (m.passed .up (lastVersion k))
  have hend := eq_of_linked_ascent (fun s hs => after_of_mem_stages_up hs) hb
  rw [version_stages, passed_up_lastVersion hm hsorted] at hend
  have hlast : b = lastVersion (k ++ l) := by
    rw [hend, lastVersion, lastVersion, List.map_append, List.getLast?_append]
  exact hlast ▸ hb

theorem linked_way_down_lastVersion : Stage.Linked (lastVersion k) (m.way .down (lastVersion k)) none := by
  have hdown := linked_stages_down k.reverse
  rw [List.head?_reverse, ← List.getLast?_map] at hdown
  rw [way, passed_down_lastVersion hm hsorted]
  exact hdown

end Parts

/-- What is told of an order that was carried out: its answer, the statements of scripts that it executed, and
the rows that it left. -/
structure Report where
  answer : Except MigrationError (List Int)
  scripts : List String
  rows : List (Int × Bool)

def Order.report (inside : Option String) (o : Order) (db : Database) : Report :=
  let after := (o.run inside).runIn db
  ⟨after.1, (after.2.executed.drop db.executed.length).filterMap Statement.script?, after.2.history.entries⟩

/-- The reports of orders that are carried out one after the other. -/
def reports (inside : Option String) : List Order → Database → List Report
  | [], _ => []
  | o :: later, db => o.report inside db :: reports inside later ((o.run inside).runIn db).2

section Reports

variable {inside : Option String} {ms k l : List Migration} {db : Database}

theorem exists_reports_eq {o : Order} {v w : Option Int} (hdb : StandsAt db v) (ho : o.Spares)
    (hl : Stage.Linked v ((new inside o.migrations).way o.direction v) w) :
    ∃ db', StandsAt db' w ∧ ∀ later, reports inside (o :: later) db =
      ⟨.ok (((new inside o.migrations).passed o.direction v).map (·.version)),
        scripts o.direction ((new inside o.migrations).passed o.direction v), row w false⟩ ::
          reports inside later db' := by
  have hs : ∀ x ∈ (new inside o.migrations).migrations, x.Spares o.direction := fun x hx =>
    ho x (List.mem_mergeSort.1 hx)
  obtain ⟨db', hrun, hdb', hscripts⟩ := hdb.exists_run_eq hs hl
  have hin : (o.run inside).runIn db = (.ok _, db') := hrun
  refine ⟨db', hdb', fun later => ?_⟩
  rw [reports, Order.report, hin]
  simp only [hscripts, hdb'.rows]

section Parts

variable (hm : (new inside ms).migrations = k ++ l) (hsorted : Ascending (k ++ l)) (hdb : StandsAt db (lastVersion k))
include hm hsorted hdb

theorem exists_reports_up (hs : ∀ x ∈ ms, x.Spares .up) :
    ∃ db', StandsAt db' (lastVersion (k ++ l)) ∧ ∀ later, reports inside (⟨.up, ms⟩ :: later) db =
      ⟨.ok (l.map (·.version)), scripts .up l, row (lastVersion (k ++ l)) false⟩ ::
        reports inside later db' := by
  have hup := @exists_reports_eq inside db ⟨.up, ms⟩ _ _ hdb hs (linked_way_up_lastVersion hm hsorted)
  rwa [passed_up_lastVersion hm hsorted] at hup

theorem exists_reports_down (hs : ∀ x ∈ ms, x.Spares .down) :
    ∃ db', StandsAt db' none ∧ ∀ later, reports inside (⟨.down, ms⟩ :: later) db =
      ⟨.ok (k.reverse.map (·.version)), scripts .down k.reverse, []⟩ :: reports inside later db' := by
  have hdown := @exists_reports_eq inside db ⟨.down, ms⟩ _ _ hdb hs (linked_way_down_lastVersion hm hsorted)
  rwa [passed_down_lastVersion hm hsorted] at hdown

end Parts

section All

variable (hm : (new inside ms).migrations = l) (hsorted : Ascending l)
include hm hsorted

theorem exists_reports_up_all (hdb : StandsAt db none) (hs : ∀ x ∈ ms, x.Spares .up) :
    ∃ db', StandsAt db' (lastVersion l) ∧ ∀ later, reports inside (⟨.up, ms⟩ :: later) db =
      ⟨.ok (l.map (·.version)), scripts .up l, row (lastVersion l) false⟩ :: reports inside later db' :=
  @exists_reports_up inside ms [] l db hm hsorted hdb hs

/-- Once all migrations are applied there is nothing left to apply, and all are reverted, the last one first. -/
theorem reports_of_applied (hdb : StandsAt db (lastVersion l))
    (hs : ∀ x ∈ ms, x.Spares .up ∧ x.Spares .down) :
    reports inside [⟨.up, ms⟩, ⟨.down, ms⟩, ⟨.down, ms⟩] db = [⟨.ok [], [], row (lastVersion l) false⟩,
      ⟨.ok (l.reverse.map (·.version)), scripts .down l.reverse, []⟩, ⟨.ok [], [], []⟩] := by
  have hm' : (new inside ms).migrations = l ++ [] := by rw [hm, List.append_nil]
  have hsorted' : Ascending (l ++ []) := by rwa [List.append_nil]
  obtain ⟨db₁, h₁, hagain⟩ := exists_reports_up hm' hsorted' hdb fun x hx => (hs x hx).1
  rw [List.append_nil] at h₁ hagain
  obtain ⟨db₂, h₂, hback⟩ := exists_reports_down hm' hsorted' h₁ fun x hx => (hs x hx).2
  obtain ⟨db₃, -, hidle⟩ := @exists_reports_down inside ms [] l db₂ hm hsorted h₂ fun x hx => (hs x hx).2
  rw [hagain, hback, hidle]
  rfl

end All

end Reports

/-- Sorting gives the one ascending list of the migrations. -/
theorem new_migrations_eq (inside : Option String) {ms l : List Migration} (hp : l.Perm ms)
    (hl : Ascending l) : (new inside ms).migrations = l := by
  have hd : (ms.map (·.version)).Nodup :=
    (hp.map Migration.version).nodup_iff.1 (List.pairwise_map.2 (hl.imp ne_of_lt))
  refine List.Perm.eq_of_pairwise (fun x y _ _ hxy hyx => ?_) (pairwise_new hd) hl ?_
  · exact absurd hxy (lt_asymm hyx)
  · exact (List.mergeSort_perm ..).trans hp.symm

/-- Migrations are applied as well at once as in two parts, the lower one first. Then there is nothing left to
apply, and the way back is the reverse of the way there, down to a history without a row. -/
theorem reports_of_split (inside : Option String) {ms a b : List Migration} (hms : ms.Perm (a ++ b))
    (hd : (ms.map (·.version)).Nodup) (hab : ∀ x ∈ a, ∀ y ∈ b, x.version < y.version)
    (hs : ∀ x ∈ ms, x.Spares .up ∧ x.Spares .down)
    {db : Database} (hcalm : db.Calm) (hh : db.history.entries = []) :
    ∃ la lb, la.Perm a ∧ lb.Perm b ∧ Ascending (la ++ lb) ∧
      let top := row (lastVersion (la ++ lb)) false
      let later : List Order := [⟨.up, ms⟩, ⟨.down, ms⟩, ⟨.down, ms⟩]
      let after : List Report := [⟨.ok [], [], top⟩,
        ⟨.ok ((la ++ lb).reverse.map (·.version)), scripts .down (la ++ lb).reverse, []⟩, ⟨.ok [], [], []⟩]
      reports inside (⟨.up, a⟩ :: ⟨.up, ms⟩ :: later) db =
          ⟨.ok (la.map (·.version)), scripts .up la, row (lastVersion la) false⟩ ::
            ⟨.ok (lb.map (·.version)), scripts .up lb, top⟩ :: after ∧
        reports inside (⟨.up, ms⟩ :: later) db =
          ⟨.ok (la.map (·.version) ++ lb.map (·.version)), scripts .up la ++ scripts .up lb, top⟩ :: after := by
  have hparts : ((a ++ b).map (·.version)).Nodup := (hms.map Migration.version).nodup_iff.1 hd
  rw [List.map_append, List.nodup_append] at hparts
  have hla : (new inside a).migrations.Perm a := List.mergeSort_perm ..
  have hlb : (new inside b).migrations.Perm b := List.mergeSort_perm ..
  have hsorted : Ascending ((new inside a).migrations ++ (new inside b).migrations) := by
    refine List.pairwise_append.2 ⟨pairwise_new hparts.1, pairwise_new hparts.2.1, ?_⟩
    exact fun x hx y hy => hab x (hla.mem_iff.1 hx) y (hlb.mem_iff.1 hy)
  have hall := new_migrations_eq inside ((hla.append hlb).trans hms.symm) hsorted
  refine ⟨_, _, hla, hlb, hsorted, ?_⟩
  have hblank : StandsAt db none := ⟨hcalm, hh⟩
  have hup : ∀ x ∈ ms, x.Spares .up := fun x hx => (hs x hx).1
  constructor
  · have hlower : ∀ x ∈ a, x.Spares .up := fun x hx => hup x (hms.mem_iff.2 (List.mem_append_left b hx))
    obtain ⟨db₁, h₁, hfirst⟩ := exists_reports_up_all rfl (List.pairwise_append.1 hsorted).1 hblank hlower
    obtain ⟨db₂, h₂, hsecond⟩ := exists_reports_up hall hsorted h₁ hup
    rw [hfirst, hsecond, reports_of_applied hall hsorted h₂ hs]
  · obtain ⟨db₁, h₁, hsingle⟩ := exists_reports_up_all hall hsorted hblank hup
    rw [hsingle, reports_of_applied hall hsorted h₁ hs, List.map_append, scripts_append]

section TwoTables

theorem reports_of_split_twoTables :
    twoTables.Perm (twoTables.take 1 ++ twoTables.drop 1) ∧ (twoTables.map (·.version)).Nodup ∧
    (∀ x ∈ twoTables.take 1, ∀ y ∈ twoTables.drop 1, x.version < y.version) ∧
    (∀ x ∈ twoTables, x.Spares .up ∧ x.Spares .down) ∧ blank.Calm ∧ blank.history.entries = [] ∧
    ∃ la lb, la.Perm (twoTables.take 1) ∧ lb.Perm (twoTables.drop 1) ∧ Ascending (la ++ lb) ∧
      let top := row (lastVersion (la ++ lb)) false
      let later : List Order := [⟨.up, twoTables⟩, ⟨.down, twoTables⟩, ⟨.down, twoTables⟩]
      let after : List Report := [⟨.ok [], [], top⟩,
        ⟨.ok ((la ++ lb).reverse.map (·.version)), scripts .down (la ++ lb).reverse, []⟩, ⟨.ok [], [], []⟩]
      reports none (⟨.up, twoTables.take 1⟩ :: ⟨.up, twoTables⟩ :: later) blank =
          ⟨.ok (la.map (·.version)), scripts .up la, row (lastVersion la) false⟩ ::
            ⟨.ok (lb.map (·.version)), scripts .up lb, top⟩ :: after ∧
        reports none (⟨.up, twoTables⟩ :: later) blank =
          ⟨.ok (la.map (·.version) ++ lb.map (·.version)), scripts .up la ++ scripts .up lb, top⟩ :: after := by
  have hms : twoTables.Perm (twoTables.take 1 ++ twoTables.drop 1) := by rw [List.take_append_drop]
  have hd : (twoTables.map (·.version)).Nodup := by decide
  have hab : ∀ x ∈ twoTables.take 1, ∀ y ∈ twoTables.drop 1, x.version < y.version := by decide
  have hs : ∀ x ∈ twoTables, x.Spares .up ∧ x.Spares .down := by decide
  have hcalm : blank.Calm := ⟨rfl, fun _ => rfl⟩
  exact ⟨hms, hd, hab, hs, hcalm, rfl, reports_of_split none hms hd hab hs hcalm rfl⟩

/-- A migration that writes a dirty row of its own. -/
def dirtyWriter : List Migration :=
  [⟨1, "locks", "INSERT INTO schema_migrations (version, dirty) VALUES (7, true);", ""⟩]

/-- The second run is refused, where there would be nothing left to apply. -/
theorem dirtyWriter_refused :
    (dirtyWriter.map (·.version)).Nodup ∧ blank.Calm ∧ blank.history.entries = [] ∧
      (reports none [⟨.up, dirtyWriter⟩, ⟨.up, dirtyWriter⟩] blank).map (·.answer) =
        [.ok [1], .error (.dirty 7)] := by
  have hnew : new none dirtyWriter = ⟨Statement.historyTable, dirtyWriter⟩ := by
    rw [new, List.mergeSort_of_pairwise (by decide)]
    rfl
  refine ⟨by decide, ⟨rfl, fun _ => rfl⟩, rfl, ?_⟩
  simp only [reports, Order.report, Order.run, hnew]
  decide +kernel

end TwoTables

end Migrator

end Rollcall
