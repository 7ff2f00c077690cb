import Rollcall.Proofs.Storage.Calls
import Rollcall.Storage.Tables

/-! What dropping all tables of a keyspace comes to, whatever the store answers. An attempt lists the tables and
drops them in this order, so wherever it stops, the tables dropped so far and those that are left make up the
first list. The answer is the list of the last attempt. Main statement: it is the first list as well exactly if
no call failed behind a drop that worked. -/

namespace Rollcall

/-- The table that a call dropped. -/
def Call.dropped? (c : Call) : Option String :=
  match c.query with
  | .execute (.dropTable _ t) => if c.works then some t else none
  | _ => none

theorem Call.dropped?_of_failed {c : Call} (h : c.works = false) : c.dropped? = none := by
  unfold Call.dropped?
  split
  · simp [h]
  · rfl

section Log

variable {new old : List Call}

/-- The tables that calls dropped, in their order. The last call comes first. -/
def droppedTables (calls : List Call) : List String := calls.reverse.filterMap Call.dropped?

theorem droppedTables_append (new old : List Call) :
    droppedTables (new ++ old) = droppedTables old ++ droppedTables new := by
  rw [droppedTables, List.reverse_append]
  exact List.filterMap_append

/-- No call failed behind a drop that worked. -/
def Uninterrupted (calls : List Call) : Prop :=
  calls.Pairwise fun later earlier => earlier.dropped?.isSome → later.works

instance (calls : List Call) : Decidable (Uninterrupted calls) :=
  inferInstanceAs (Decidable (calls.Pairwise _))

/-- There were no calls, or the last one failed. -/
def Stopped (calls : List Call) : Prop := ∀ c ∈ calls.head?, c.works = false

/-- Calls that work, behind others of which the last one failed, go on without an interruption only if the others
dropped nothing. -/
theorem uninterrupted_append_iff (hnew : ∀ c ∈ new, c.works) (hold : Stopped old) :
    Uninterrupted (new ++ old) ↔ droppedTables old = [] := by
  have hnone : droppedTables old = [] ↔ ∀ c ∈ old, c.dropped? = none := by simp [droppedTables]
  rw [Uninterrupted, List.pairwise_append, hnone]
  constructor
  · rintro ⟨-, hpairs, -⟩
    cases old with
    | nil => simp
    | cons last rest =>
      have hfailed : last.works = false := hold last rfl
      refine List.forall_mem_cons.2 ⟨Call.dropped?_of_failed hfailed, fun c hc => ?_⟩
      by_contra hdropped
      have hworks := (List.pairwise_cons.1 hpairs).1 c hc (Option.isSome_iff_ne_none.2 hdropped)
      rw [hfailed] at hworks
      contradiction
  · intro hold
    refine ⟨?_, ?_, fun later hl _ _ _ => hnew later hl⟩
    · exact List.pairwise_of_forall_mem_list fun later hl _ _ _ => hnew later hl
    · exact List.pairwise_of_forall_mem_list fun _ _ earlier he hdropped => by simp [hold earlier he] at hdropped

end Log

namespace Database

variable {db db₁ db' : Database} {new new' : List Call} {t : String} {r : List String}

/-- From the first database to the second these calls were made, and what they dropped are the first tables. -/
structure Swept (db : Database) (new : List Call) (db' : Database) : Prop where
  made : db.Made new db'
  tables : db.tables = droppedTables new ++ db'.tables

theorem Swept.refl (db : Database) : db.Swept [] db := ⟨rfl, rfl⟩

theorem Swept.trans (h : db.Swept new db₁) (h' : db₁.Swept new' db') : db.Swept (new' ++ new) db' :=
  ⟨h.made.trans h'.made, by rw [droppedTables_append, List.append_assoc, ← h'.tables, h.tables]⟩

theorem swept_noted (db : Database) {q : Query} {works : Bool} (h : (⟨db.now, q, works⟩ : Call).dropped? = none) :
    db.Swept [⟨db.now, q, works⟩] (db.noted q works) :=
  ⟨db.made_noted q works, by simp [droppedTables, h, noted]⟩

/-- The first table is dropped, or the call fails without an effect. -/
theorem execute_dropTable_cases (keyspace : String) (h : db.tables = t :: r) (ht : t ∉ r) :
    (∃ c db', execute (.dropTable keyspace t) db = (.ok (), db') ∧ db.Swept [c] db' ∧ c.works ∧
      db'.tables = r) ∨
      ∃ e c db', execute (.dropTable keyspace t) db = (.error e, db') ∧ db.Swept [c] db' ∧ c.works = false := by
  rcases hm : db.mishap (.execute (.dropTable keyspace t)) with _ | e
  · have hleft : (db.tables.filter (· ≠ t)) = r := by
      rw [h, List.filter_cons_of_neg (by simp), List.filter_eq_self]
      intro u hu
      have : u ≠ t := fun hut => ht (hut ▸ hu)
      simpa using this
    refine .inl ⟨_, _, call_of_none hm, ⟨rfl, ?_⟩, rfl, hleft⟩
    show db.tables = t :: db.tables.filter (· ≠ t)
    rw [hleft, h]
  · exact .inr ⟨e, _, _, call_of_some hm, db.swept_noted (Call.dropped?_of_failed rfl), rfl⟩

end Database

namespace Keyspace

variable {db db' : Database} {listed left : List String}

/-- Between two attempts: all calls so far ended with one that failed. -/
def Between (db db' : Database) : Prop := ∃ old, db.Swept old db' ∧ Stopped old

/-- Within an attempt: its calls worked so far, and these are the tables that it listed and those that are left. -/
structure Within (db : Database) (listed left : List String) (db' : Database) : Prop where
  calls : ∃ new old, db.Swept (new ++ old) db' ∧ (∀ c ∈ new, c.works) ∧ Stopped old ∧
    db.tables = droppedTables old ++ listed
  left : db'.tables = left

theorem Between.of_failed {c : Call} {calls : List Call} (h : db.Swept (c :: calls) db') (hc : c.works = false) :
    Between db db' :=
  ⟨_, h, fun _ hlast => Option.some.inj hlast ▸ hc⟩

theorem ensures_tableNames (keyspace : String) :
    (Database.tableNames keyspace).Ensures (Between db) (fun ts => Within db ts ts) fun _ => Between db := by
  rintro db₁ ⟨old, hold, hstopped⟩
  unfold Database.tableNames
  rcases hm : db₁.mishap (.tableNames keyspace) with _ | e
  · rw [Database.call_of_none hm]
    refine ⟨⟨_, old, hold.trans (db₁.swept_noted rfl), ?_, hstopped, hold.tables⟩, rfl⟩
    simp
  · rw [Database.call_of_some hm]
    exact Between.of_failed (hold.trans (db₁.swept_noted rfl)) rfl

theorem ensures_dropTable (keyspace t : String) (hd : db.tables.Nodup) :
    (Database.execute (.dropTable keyspace t)).Ensures (Within db listed (t :: left))
      (fun _ => Within db listed left) fun _ => Between db := by
  rintro db₁ ⟨⟨new, old, hswept, hnew, hold, hlisted⟩, htables⟩
  have hnodup : (t :: left).Nodup := by
    rw [hswept.tables, htables] at hd
    exact (List.nodup_append.1 hd).2.1
  rcases Database.execute_dropTable_cases keyspace htables (List.nodup_cons.1 hnodup).1 with
    ⟨c, db₂, h, hc, hworks, hleft⟩ | ⟨e, c, db₂, h, hc, hfailed⟩
  · rw [h]
    refine ⟨⟨c :: new, old, hswept.trans hc, List.forall_mem_cons.2 ⟨hworks, hnew⟩, hold, hlisted⟩, hleft⟩
  · rw [h]
    exact Between.of_failed (hswept.trans hc) hfailed

theorem ensures_dropEach (k : Keyspace) (hd : db.tables.Nodup) (left : List String) :
    (k.dropEach left).Ensures (Within db listed left) (fun _ => Within db listed []) fun _ => Between db := by
  induction left with
  | nil => exact .pure fun _ h => h
  | cons t r ih => exact (ensures_dropTable k.name t hd).bind fun _ => ih

/-- An attempt that succeeds leaves nothing of what it listed, and answers that list. -/
theorem ensures_dropListed (k : Keyspace) (hd : db.tables.Nodup) :
    k.dropListed.Ensures (Between db) (fun names => Within db names []) fun _ => Between db := by
  refine (ensures_tableNames k.name).bind fun ts => ?_
  exact (k.ensures_dropEach hd ts).bind fun _ => .pure fun _ h => h

/-- Until it succeeds or is given up, dropping all tables is interrupted and takes up the rest. -/
theorem ensures_dropTables (k : Keyspace) (hd : db.tables.Nodup) :
    k.dropTables.Ensures (Between db) (fun names => Within db names []) fun _ => Between db := by
  have hsleep (d : Nat) (db₁ : Database) (h : Between db db₁) : Between db (Clocked.sleep d db₁) := by
    obtain ⟨old, hold, hstopped⟩ := h
    exact ⟨old, ⟨hold.made, hold.tables⟩, hstopped⟩
  exact .mapError ((Budget.storage.ensures_retry (k.ensures_dropListed hd) hsleep).mono (fun _ h => h)
    (fun _ _ h => h) fun _ _ h => h.2)

/-- Once all tables were dropped, the answer is an end of the list of tables that there were, and it is all of
them exactly if no call failed behind a drop that worked. -/
theorem dropTables_answers_all_iff (k : Keyspace) {names : List String} (hd : db.tables.Nodup)
    (hrun : k.dropTables.runIn db = (.ok names, db')) :
    db'.tables = [] ∧ names <:+ db.tables ∧ ∃ calls, db.Made calls db' ∧ droppedTables calls = db.tables ∧
      (names = db.tables ↔ Uninterrupted calls) := by
  have hstart : Between db db := ⟨[], .refl db, fun _ h => by cases h⟩
  obtain ⟨⟨new, old, hswept, hnew, hold, hlisted⟩, hnone⟩ := (k.ensures_dropTables hd).of_ok hstart hrun
  refine ⟨hnone, ⟨droppedTables old, hlisted.symm⟩, new ++ old, hswept.made, ?_, ?_⟩
  · rw [hswept.tables, hnone, List.append_nil]
  · rw [uninterrupted_append_iff hnew hold, hlisted]
    exact List.self_eq_append_left

section LostOnce

/-- Two tables, and a session that is lost for one call, the second drop. -/
def lostOnce : Database where
  tables := ["a", "b"]
  outcome n := if n = 2 then some { message := "connection lost" } else none

theorem dropTables_answers_all_iff_lostOnce :
    lostOnce.tables.Nodup ∧ ∃ db', (⟨"ks", false⟩ : Keyspace).dropTables.runIn lostOnce = (.ok ["b"], db') ∧
      db'.tables = [] ∧ ["b"] <:+ lostOnce.tables ∧ ∃ calls, lostOnce.Made calls db' ∧
        droppedTables calls = lostOnce.tables ∧ (["b"] = lostOnce.tables ↔ Uninterrupted calls) := by
  have hd : lostOnce.tables.Nodup := by decide
  have hanswer : ((⟨"ks", false⟩ : Keyspace).dropTables.runIn lostOnce).1 = .ok ["b"] := by decide +kernel
  have hrun : (⟨"ks", false⟩ : Keyspace).dropTables.runIn lostOnce =
      (.ok ["b"], ((⟨"ks", false⟩ : Keyspace).dropTables.runIn lostOnce).2) := Prod.ext hanswer rfl
  exact ⟨hd, _, hrun, dropTables_answers_all_iff _ hd hrun⟩

/-- Both tables are gone, and only the second one is told. -/
theorem lostOnce_answers_second :
    lostOnce.tables = ["a", "b"] ∧ lostOnce.tables.Nodup ∧
      let after := (⟨"ks", false⟩ : Keyspace).dropTables.runIn lostOnce
      after.1 = .ok ["b"] ∧ after.2.tables = [] := by
  decide +kernel

end LostOnce

end Keyspace

end Rollcall
