import Rollcall.Proofs.Ledger
import Rollcall.Proofs.Schema.RoundTrip

/-! Ways down from a version that the migrator does not know. The row of the version at which the schema stands
gives way to that of the first migration below it, whether or not a script of its own was run. Main statement: a
descent that succeeds forgets a version that it did not revert exactly where the recorded version is none of its
migrations', one of these is below it, and no script writes the row of that version anew. -/

namespace Rollcall

/-- What a statement makes of the row of a version, if it has to do with it: its mark, or no row. -/
def Statement.rowOf? (v : Int) (s : Statement) : Option (Option Bool) :=
  match s.effect with
  | .record w d => if w = v then some (some d) else none
  | .forget w => if w = v then some none else none
  | .none | .dropTable _ => none

theorem get?_onHistory (s : Statement) (h : Ledger Int Bool) (v : Int) :
    (s.effect.onHistory h).get? v = (s.rowOf? v).getD (h.get? v) := by
  unfold Statement.rowOf?
  cases s.effect with
  | none | dropTable t => rfl
  | record w d =>
    show (h.insert w d).get? v = _
    rw [Ledger.get?_insert]
    by_cases hw : w = v
    · simp [hw]
    · simp [hw, Ne.symm hw]
  | forget w =>
    show (h.erase w).get? v = _
    rw [Ledger.get?_erase]
    by_cases hw : w = v
    · simp [hw]
    · simp [hw, Ne.symm hw]

/-- The row of a version is what the last statement that has to do with it made of it. -/
theorem get?_replay (h : Ledger Int Bool) (l : List Statement) (v : Int) :
    (replay h l).get? v = (l.filterMap (Statement.rowOf? v)).getLast?.getD (h.get? v) := by
  induction l generalizing h with
  | nil => rfl
  | cons s l ih =>
    rw [replay_cons, ih, get?_onHistory, List.filterMap_cons]
    cases s.rowOf? v with
    | none => rfl
    | some r =>
      rw [List.getLast?_cons]
      rfl

/-- What statements of scripts make of the row of a version. -/
def scriptRows (v : Int) (l : List String) : List (Option Bool) :=
  l.filterMap fun t => (Statement.script t).rowOf? v

theorem scriptRows_append (v : Int) (k l : List String) :
    scriptRows v (k ++ l) = scriptRows v k ++ scriptRows v l :=
  List.filterMap_append

theorem filterMap_map_script (v : Int) (l : List String) :
    (l.map Statement.script).filterMap (Statement.rowOf? v) = scriptRows v l :=
  List.filterMap_map

/-- A version change takes the row away that it leaves behind, and has to do with no other but the new one. -/
theorem Migrator.filterMap_versionChange (m : Migrator) {old new : Option Int} {v : Int} (hn : new ≠ some v)
    (d : Bool) : (m.versionChange old new d).filterMap (Statement.rowOf? v) =
      if old = some v then [none] else [] := by
  have hrecord : (new.toList.map (Statement.record m.historyTable · d)).filterMap (Statement.rowOf? v) = [] := by
    refine List.filterMap_eq_nil_iff.2 fun t ht => ?_
    obtain ⟨w, hw, rfl⟩ := List.mem_map.1 ht
    have : w ≠ v := fun h => hn (h ▸ Option.mem_toList.1 hw)
    simp [Statement.rowOf?, Statement.effect, this]
  rw [versionChange, List.filterMap_append, hrecord, List.append_nil]
  cases old with
  | none => rfl
  | some u =>
    by_cases hu : u = v
    · subst hu
      simp [Option.filter, hn.symm, Statement.rowOf?, Statement.effect]
    · by_cases hnew : some u = new <;> simp [Option.filter, hn, hnew, hu, Statement.rowOf?, Statement.effect]

theorem Stage.filterMap_rowOf (m : Migrator) {s : Stage} {v : Int} (hs : s.version ≠ v) (ha : s.after ≠ some v) :
    (s.statements m).filterMap (Statement.rowOf? v) =
      (if s.before = some v then [none] else []) ++ scriptRows v (Script.statements s.script) := by
  have hversion : some s.version ≠ some v := fun h => hs (Option.some.inj h)
  rw [statements, List.filterMap_append, List.filterMap_append, m.filterMap_versionChange hversion,
    m.filterMap_versionChange ha, if_neg hversion, List.append_nil, filterMap_map_script]

namespace Migrator

section Descent

variable {m : Migrator} {v : Int} {l : List Migration}

theorem next_down_ne (hl : ∀ x ∈ l, x.version ≠ v) (x : Migration) : next .down x l ≠ some v := by
  unfold next
  intro h
  obtain ⟨y, hy, hyv⟩ := Option.map_eq_some_iff.1 h
  exact hl y (List.mem_of_head? hy) hyv

/-- On their way, migrations of other versions write the row of a version by their scripts only. -/
theorem filterMap_stages_of_ne {at? : Option Int} (ha : at? ≠ some v) (hl : ∀ x ∈ l, x.version ≠ v) :
    ((stages .down at? l).flatMap (Stage.statements m)).filterMap (Statement.rowOf? v) =
      scriptRows v (scripts .down l) := by
  induction l generalizing at? with
  | nil => rfl
  | cons x r ih =>
    obtain ⟨hx, hr⟩ := List.forall_mem_cons.1 hl
    have hnext := next_down_ne hr x
    rw [stages, List.flatMap_cons, List.filterMap_append, Stage.filterMap_rowOf m hx hnext, ih hnext hr, if_neg ha,
      List.nil_append, scripts_cons, scriptRows_append]

/-- The first of them takes the row away that the descent starts from. -/
theorem filterMap_stages_self (hl : ∀ x ∈ l, x.version ≠ v) (hne : l ≠ []) :
    ((stages .down (some v) l).flatMap (Stage.statements m)).filterMap (Statement.rowOf? v) =
      none :: scriptRows v (scripts .down l) := by
  cases l with
  | nil => contradiction
  | cons x r =>
    obtain ⟨hx, hr⟩ := List.forall_mem_cons.1 hl
    have hnext := next_down_ne hr x
    rw [stages, List.flatMap_cons, List.filterMap_append, Stage.filterMap_rowOf m hx hnext,
      filterMap_stages_of_ne hnext hr, if_pos rfl, scripts_cons, scriptRows_append]
    simp only [List.cons_append, List.nil_append]

end Descent

/-- The scripts write the row of the version, and do not take it away again. -/
def Restores (v : Int) (l : List String) : Prop := ∃ d, (scriptRows v l).getLast? = some (some d)

section Forgets

variable {inside : Option String} {ms : List Migration} {db db' : Database} {v : Int} {reverted : List Int}

theorem contains_iff_of_row {h : Ledger Int Bool} {d : Bool} (hh : h.entries = row (some v) d) (w : Int) :
    h.contains w ↔ w = v := by
  unfold Ledger.contains
  rw [Option.isSome_iff_exists]
  simp only [h.get?_eq_some_iff, hh]
  simp [row]

theorem mem_passed_down_new {x : Migration} :
    x ∈ (new inside ms).passed .down (some v) ↔ x ∈ ms ∧ x.version ≤ v := by
  have hsame : x ∈ (new inside ms).migrations ↔ x ∈ ms := List.mem_mergeSort
  rw [mem_passed_down, hsame]
  simp

theorem mem_reverted_iff :
    v ∈ ((new inside ms).passed .down (some v)).map (·.version) ↔ v ∈ ms.map (·.version) := by
  simp only [List.mem_map, mem_passed_down_new]
  constructor
  · rintro ⟨x, ⟨hx, -⟩, hxv⟩
    exact ⟨x, hx, hxv⟩
  · rintro ⟨x, hx, rfl⟩
    exact ⟨x, ⟨hx, le_rfl⟩, rfl⟩

theorem passed_down_eq_nil_iff :
    (new inside ms).passed .down (some v) = [] ↔ ∀ x ∈ ms, v < x.version := by
  simp only [List.eq_nil_iff_forall_not_mem, mem_passed_down_new, not_and, not_le]

/-- The row of a version without a migration outlives the descent from it if there is nothing to revert, or if
the scripts write it anew. -/
theorem contains_replay_way_iff {h : Ledger Int Bool} (hrow : h.entries = row (some v) false)
    (hstray : v ∉ ms.map (·.version)) :
    (replay h (((new inside ms).way .down (some v)).flatMap (Stage.statements (new inside ms)))).contains v ↔
      (∀ x ∈ ms, v < x.version) ∨ Restores v (scripts .down ((new inside ms).passed .down (some v))) := by
  rw [← @passed_down_eq_nil_iff inside]
  unfold Ledger.contains way
  rw [get?_replay]
  by_cases hnil : (new inside ms).passed .down (some v) = []
  · have hkept : h.get? v = some false := h.get?_eq_some_iff.2 (by simp [hrow, row])
    simp [hnil, stages, hkept]
  · have hother : ∀ x ∈ (new inside ms).passed .down (some v), x.version ≠ v := by
      rintro x hx rfl
      exact hstray (mem_reverted_iff.1 (List.mem_map_of_mem hx))
    rw [filterMap_stages_self hother hnil, List.getLast?_cons, or_iff_right hnil, Restores]
    rcases (scriptRows v _).getLast? with _ | _ | d
    · simp
    · simp
    · simp

/-- A descent that succeeds from a clean row forgets no version that it did not revert, exactly if the recorded
version is that of a migration, or no migration is below it, or its row was written anew by a script. -/
theorem forgets_reverted_only_iff (inside : Option String) (ms : List Migration)
    (hrow : db.history.entries = row (some v) false)
    (hrun : (new inside ms).down.runIn db = (.ok reverted, db')) :
    (∀ w, db.history.contains w → ¬db'.history.contains w → w ∈ reverted) ↔
      v ∈ ms.map (·.version) ∨ (∀ x ∈ ms, v < x.version) ∨
        Restores v (scripts .down ((new inside ms).passed .down (some v))) := by
  obtain ⟨rfl, hran⟩ := ((new inside ms).ensures_run .down hrow).of_ok rfl hrun
  have hafter : db'.history =
      replay db.history (((new inside ms).way .down (some v)).flatMap (Stage.statements (new inside ms))) :=
    hran.history
  simp only [contains_iff_of_row hrow, forall_eq]
  rw [mem_reverted_iff]
  by_cases hknown : v ∈ ms.map (·.version)
  · exact iff_of_true (fun _ => hknown) (.inl hknown)
  · rw [or_iff_right hknown, ← contains_replay_way_iff hrow hknown, hafter]
    constructor
    · intro h
      by_contra hlost
      exact hknown (h hlost)
    · intro hkept hlost
      exact absurd hkept hlost

end Forgets

section TwoTables

/-- A database of a later release: its history tells of a version above those of the two migrations. -/
def laterRelease : Database where
  history := .ofList [(5, false)]

theorem forgets_reverted_only_iff_laterRelease :
    laterRelease.history.entries = row (some 5) false ∧
    ∃ db', (new none twoTables).down.runIn laterRelease = (.ok [2, 1], db') ∧
      ((∀ w, laterRelease.history.contains w → ¬db'.history.contains w → w ∈ [2, 1]) ↔
        5 ∈ twoTables.map (·.version) ∨ (∀ x ∈ twoTables, 5 < x.version) ∨
          Restores 5 (scripts .down ((new none twoTables).passed .down (some 5)))) := by
  have hrow : laterRelease.history.entries = row (some 5) false := by decide
  have hanswer : ((new none twoTables).down.runIn laterRelease).1 = .ok [2, 1] := by
    rw [new_twoTables]
    decide +kernel
  have hrun : (new none twoTables).down.runIn laterRelease =
      (.ok [2, 1], ((new none twoTables).down.runIn laterRelease).2) := Prod.ext hanswer rfl
  exact ⟨hrow, _, hrun, forgets_reverted_only_iff none twoTables hrow hrun⟩

/-- Version 5 is forgotten, though only 2 and 1 were reverted. -/
theorem laterRelease_forgotten :
    (twoTables.map (·.version)).Nodup ∧ laterRelease.history.entries = row (some 5) false ∧
      let after := (new none twoTables).down.runIn laterRelease
      after.1 = .ok [2, 1] ∧ laterRelease.history.contains 5 ∧ ¬after.2.history.contains 5 := by
  rw [new_twoTables]
  decide +kernel

end TwoTables

end Migrator

end Rollcall
