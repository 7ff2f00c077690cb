import Rollcall.Proofs.List
import Rollcall.Proofs.Schema.Carried

/-! A run of migrations as a list of stages, one for each migration on the way. A stage marks its version
dirty in place of the row before it, executes a script and leaves the row of the version it leads to. Where
a run can stop within a stage, and which history it leaves there, is settled once for both directions. -/

namespace Rollcall

structure Stage where
  before : Option Int
  version : Int
  script : String
  after : Option Int

/-- The history takes no notice of the effect. -/
def Statement.Effect.sparesHistory : Statement.Effect → Bool
  | .none | .dropTable _ => true
  | .record .. | .forget _ => false

theorem Statement.Effect.onHistory_of_spares {e : Statement.Effect} (he : e.sparesHistory)
    (h : Ledger Int Bool) : e.onHistory h = h := by
  cases e with
  | none | dropTable t => rfl
  | record v b | forget v => contradiction

theorem replay_of_spares {l : List Statement} (hl : ∀ s ∈ l, s.effect.sparesHistory)
    (h : Ledger Int Bool) : replay h l = h := by
  induction l with
  | nil => rfl
  | cons s r ih =>
    rw [replay_cons, Statement.Effect.onHistory_of_spares (hl s (by simp))]
    exact ih fun t ht => hl t (by simp [ht])

namespace Migrator

/-- The rows of a history that holds at most one version. -/
def row (v : Option Int) (dirty : Bool) : List (Int × Bool) := v.toList.map (·, dirty)

section VersionChange

variable (m : Migrator) {v w : Int} {d d' : Bool} {new : Option Int} {h : Ledger Int Bool}

theorem versionChange_self : m.versionChange (some v) (some v) d = [.record m.historyTable v d] := by
  simp [versionChange, Option.filter]

theorem versionChange_of_ne (hn : some v ≠ new) :
    m.versionChange (some v) new d =
      .forget m.historyTable v :: new.toList.map (.record m.historyTable · d) := by
  simp [versionChange, Option.filter, hn]

/-- A version change to a version ends with the row of that version. -/
theorem exists_versionChange_append_eq (old : Option Int) (v : Int) (d : Bool) (q : List Statement) :
    ∃ k, m.versionChange old (some v) d ++ q = k ++ .record m.historyTable v d :: q :=
  ⟨(old.filter (some · ≠ some v)).toList.map (.forget m.historyTable), by simp [versionChange]⟩

theorem entries_record {old : Option Int} (ho : ∀ w ∈ old, w = v) (hh : h.entries = row old d') :
    (h.insert v d).entries = row (some v) d := by
  rcases old with _ | w
  · simp [Ledger.insert, hh, row, Ledger.put]
  · obtain rfl := ho w rfl
    simp [Ledger.insert, hh, row, Ledger.put]

theorem entries_forget (hh : h.entries = row (some v) d) : (h.erase v).entries = row none d := by
  simp [Ledger.erase, Ledger.filter, hh, row]

/-- The row of the old version gives way to that of the new one. -/
theorem entries_versionChange {old : Option Int} (hh : h.entries = row old d') :
    (replay h (m.versionChange old new d)).entries = row new d := by
  rcases old with _ | v
  · rcases new with _ | w
    · simpa [versionChange, row] using hh
    · exact entries_record (by simp) hh
  · by_cases hn : some v = new
    · subst hn
      rw [versionChange_self]
      exact entries_record (by simp) hh
    · rw [m.versionChange_of_ne hn]
      have hf : (h.erase v).entries = row none d' := entries_forget hh
      rcases new with _ | w
      · simpa [row, Statement.effect, Statement.Effect.onHistory] using hf
      · exact entries_record (by simp) hf

/-- A version change stops between its statements only where it took the old row away and wrote no new
one. -/
theorem eq_of_versionChange_eq {old : Option Int} {k r : List Statement} {s : Statement}
    (hk : m.versionChange old new d = k ++ s :: r) :
    k = [] ∨ ∃ v w, old = some v ∧ new = some w ∧ v ≠ w ∧ k = [.forget m.historyTable v] := by
  rcases old with _ | v
  · rcases new with _ | w <;> rcases k with _ | ⟨_, _ | _⟩ <;> simp [versionChange] at hk ⊢
  · by_cases hn : some v = new
    · subst hn
      rw [versionChange_self] at hk
      rcases k with _ | ⟨_, _ | _⟩ <;> simp at hk ⊢
    · rw [m.versionChange_of_ne hn] at hk
      rcases new with _ | w
      · rcases k with _ | ⟨_, _ | _⟩ <;> simp at hk ⊢
      · rcases k with _ | ⟨_, _ | ⟨_, _ | _⟩⟩ <;> simp at hk ⊢
        exact ⟨fun e => hn (by rw [e]), hk.1.symm⟩

end VersionChange

end Migrator

namespace Stage

/-- The mark of a stage and its script. -/
def opening (m : Migrator) (s : Stage) : List Statement :=
  .record m.historyTable s.version true :: (Script.statements s.script).map .script

def statements (m : Migrator) (s : Stage) : List Statement :=
  m.versionChange s.before (some s.version) true ++
    ((Script.statements s.script).map .script ++ m.versionChange (some s.version) s.after false)

/-- The statements of a stage with their budgets: a script has the longer one, and fails under its version. -/
def errands (m : Migrator) (s : Stage) : List Errand :=
  (m.versionChange s.before (some s.version) true).map (⟨·, .storage, .history⟩) ++
    ((Script.statements s.script).map (⟨.script ·, .migration, .step s.version⟩) ++
      (m.versionChange (some s.version) s.after false).map (⟨·, .storage, .history⟩))

theorem map_errands (m : Migrator) (s : Stage) : (s.errands m).map (·.statement) = s.statements m := by
  simp [errands, statements, Function.comp_def]

/-- The stages lead from one version to another. -/
def Linked : Option Int → List Stage → Option Int → Prop
  | a, [], b => a = b
  | a, s :: r, b => s.before = a ∧ Linked s.after r b

theorem linked_append {a b : Option Int} {k l : List Stage} :
    Linked a (k ++ l) b ↔ ∃ c, Linked a k c ∧ Linked c l b := by
  induction k generalizing a with
  | nil => simp [Linked]
  | cons s r ih => simp [Linked, ih, and_assoc]

theorem Linked.unique {a b c : Option Int} {l : List Stage} (h : Linked a l b) (h' : Linked a l c) :
    b = c := by
  induction l generalizing a with
  | nil => exact Eq.trans (Eq.symm h) h'
  | cons s r ih => exact ih h.2 h'.2

/-- The history takes no notice of the script. -/
def Tame (s : Stage) : Prop :=
  ∀ t ∈ Script.statements s.script, (Statement.script t).effect.sparesHistory

variable {m : Migrator} {h : Ledger Int Bool} {s : Stage} {d : Bool}

theorem replay_script (hs : s.Tame) (h : Ledger Int Bool) {q : List Statement}
    (hq : q <+: (Script.statements s.script).map .script) : replay h q = h := by
  refine replay_of_spares (fun t ht => ?_) h
  obtain ⟨u, hu, rfl⟩ := List.mem_map.1 (hq.subset ht)
  exact hs u hu

theorem entries_statements (hs : s.Tame) (hh : h.entries = Migrator.row s.before d) :
    (replay h (s.statements m)).entries = Migrator.row s.after false := by
  rw [statements, replay_append, replay_append, replay_script hs _ (List.prefix_refl _)]
  exact m.entries_versionChange (m.entries_versionChange hh)

/-- Stages that are carried out to the end lead the history from one row to another. -/
theorem entries_flatMap {l : List Stage} {a b : Option Int} (hl : Linked a l b)
    (ht : ∀ s ∈ l, s.Tame) (hh : h.entries = Migrator.row a false) :
    (replay h (l.flatMap (statements m))).entries = Migrator.row b false := by
  induction l generalizing a h with
  | nil =>
    obtain rfl : a = b := hl
    exact hh
  | cons s r ih =>
    obtain ⟨rfl, hr⟩ := hl
    rw [List.flatMap_cons, replay_append]
    exact ih hr (fun t hm => ht t (by simp [hm])) (entries_statements (ht s (by simp)) hh)

/-- Where a run can stop within a stage, and the rows that it leaves there. -/
inductive Within (m : Migrator) (s : Stage) : List Statement → List (Int × Bool) → Prop
  | start : Within m s [] (Migrator.row s.before false)
  | moved {v : Int} : s.before = some v → v ≠ s.version → Within m s [.forget m.historyTable v] []
  | marked {q : List Statement} : q <+: (Script.statements s.script).map .script →
    Within m s (m.versionChange s.before (some s.version) true ++ q) [(s.version, true)]
  | ended {v : Int} : s.after = some v → v ≠ s.version →
    Within m s (m.versionChange s.before (some s.version) true ++
      ((Script.statements s.script).map .script ++ [.forget m.historyTable s.version])) []

theorem within_of_statements_eq (hs : s.Tame) (hh : h.entries = Migrator.row s.before false)
    {q r : List Statement} {t : Statement} (hq : s.statements m = q ++ t :: r) :
    Within m s q (replay h q).entries := by
  have hmark : (replay h (m.versionChange s.before (some s.version) true)).entries =
      [(s.version, true)] := m.entries_versionChange hh
  rcases append_eq_append_cons hq with ⟨_, hmove⟩ | ⟨q, rfl, hrest⟩
  · rcases m.eq_of_versionChange_eq hmove with rfl | ⟨v, w, hv, hw, hn, rfl⟩
    · rw [replay_nil, hh]
      exact .start
    · obtain rfl : s.version = w := by simpa using hw
      have hv' : (replay h [.forget m.historyTable v]).entries = [] :=
        Migrator.entries_forget (by rw [hh, hv])
      rw [hv']
      exact .moved hv hn
  · rw [replay_append]
    rcases append_eq_append_cons hrest with ⟨_, hscript⟩ | ⟨r, hr, hmove⟩
    · have hp : q <+: (Script.statements s.script).map .script := ⟨_, hscript.symm⟩
      rw [replay_script hs _ hp, hmark]
      exact .marked hp
    · rw [hr, replay_append, replay_script hs _ (List.prefix_refl _)]
      rcases m.eq_of_versionChange_eq hmove with rfl | ⟨v, w, hv, hw, hn, rfl⟩
      · rw [replay_nil, hmark, List.append_nil]
        exact .marked (List.prefix_refl _)
      · obtain rfl : s.version = v := by simpa using hv
        have hv' : (replay (replay h (m.versionChange s.before (some s.version) true))
            [.forget m.historyTable s.version]).entries = [] := Migrator.entries_forget hmark
        rw [hv']
        exact .ended hw hn.symm

end Stage

end Rollcall
