import Mathlib.Data.List.Basic
import Rollcall.Proofs.Storage.Calls
import Rollcall.Storage.Tables

/-! What saves in a relational table come to. The table takes one row for each submitter and day. A save tries
its row at most three times, until an attempt reaches the table, which takes the row or has one of that key
already. So the table holds, for each key, the row of the first save that was answered with a report; the
answers tell which saves added a row, and a save that fails adds none. -/

namespace Rollcall.Relational

open Database (Made AllFailed)

/-- The submitter and the day of a row, of which the table takes one. -/
def key (s : Submission) : String × String := (s.submitter, s.date)

/-- A row of that key is in the table. -/
def Has (db : Database) (k : String × String) : Prop := ∃ r ∈ db.rows, key r = k

instance (db : Database) (k : String × String) : Decidable (Has db k) :=
  inferInstanceAs (Decidable (∃ r ∈ db.rows, key r = k))

/-- What befalls a call from outside is not the answer that only the table itself gives. -/
def Transient (db : Database) : Prop := ∀ n e, db.outcome n = some e → e.isDuplicate = false

/-- What an attempt asks of the database. -/
abbrev query (s : Submission) : Query := .insertSubmission none s.submitter none

variable {db db' : Database} {b : Batch} {s : Submission}

section Attempt

theorem mishap_query (db : Database) (s : Submission) : db.mishap (query s) = db.outcome db.made := by
  simp [Database.mishap, Query.text?]

/-- An attempt fails without effect, finds a row of its key, or adds its own. -/
theorem insertOnce_cases (hdb : Transient db) (s : Submission) :
    (∃ e, insertOnce s db = (.error e, db.noted (query s) false)) ∨
    Has db (key s) ∧ insertOnce s db = (.ok true, db.noted (query s) true) ∨
    ¬Has db (key s) ∧
      insertOnce s db = (.ok false, { db.noted (query s) true with rows := db.rows ++ [s] }) := by
  have hany : ((db.noted (query s) true).rows.any fun r => r.submitter = s.submitter ∧ r.date = s.date) ↔
      Has db (key s) := by
    simp [Has, key]
  have hmishap := mishap_query db s
  rcases ho : db.outcome db.made with _ | e
  · have hcall : Database.insertUnique s db = _ := Database.call_of_none (hmishap.trans ho)
    by_cases hs : Has db (key s)
    · refine .inr (.inl ⟨hs, ?_⟩)
      rw [if_pos (hany.2 hs)] at hcall
      rw [insertOnce, Act.bind_of_ok (Act.outcome_of_eq hcall)]
      rfl
    · refine .inr (.inr ⟨hs, ?_⟩)
      rw [if_neg (mt hany.1 hs)] at hcall
      rw [insertOnce, Act.bind_of_ok (Act.outcome_of_eq hcall)]
      rfl
  · have hcall : Database.insertUnique s db = _ := Database.call_of_some (hmishap.trans ho)
    refine .inl ⟨e, ?_⟩
    rw [insertOnce, Act.bind_of_ok (Act.outcome_of_eq hcall)]
    simp only [hdb _ e ho]
    rfl

theorem eq_of_insertOnce_error (hdb : Transient db) {e : DatabaseError}
    (h : insertOnce s db = (.error e, db')) : db' = db.noted (query s) false := by
  rcases insertOnce_cases hdb s with ⟨e', he⟩ | ⟨-, hk⟩ | ⟨-, hk⟩
  · exact (Prod.mk.inj (h.symm.trans he)).2
  · cases (Prod.mk.inj (h.symm.trans hk)).1
  · cases (Prod.mk.inj (h.symm.trans hk)).1

theorem of_insertOnce_ok (hdb : Transient db) {known : Bool} (h : insertOnce s db = (.ok known, db')) :
    known = true ∧ Has db (key s) ∧ db' = db.noted (query s) true ∨
    known = false ∧ ¬Has db (key s) ∧ db' = { db.noted (query s) true with rows := db.rows ++ [s] } := by
  rcases insertOnce_cases hdb s with ⟨e, he⟩ | ⟨hs, hk⟩ | ⟨hs, hk⟩
  · cases (Prod.mk.inj (h.symm.trans he)).1
  · obtain ⟨⟨⟩, hdb'⟩ := Prod.mk.inj (h.symm.trans hk)
    exact .inl ⟨rfl, hs, hdb'⟩
  · obtain ⟨⟨⟩, hdb'⟩ := Prod.mk.inj (h.symm.trans hk)
    exact .inr ⟨rfl, hs, hdb'⟩

end Attempt

/-- Between the two databases lie calls of one query, all of which failed, and the table is as it was. -/
structure Unmoved (q : Query) (db : Database) (failed : List Call) (db' : Database) : Prop where
  made : db.Made failed db'
  allFailed : AllFailed q failed
  rows : db'.rows = db.rows
  outcome : db'.outcome = db.outcome

theorem Unmoved.fail {q : Query} {failed : List Call} (h : Unmoved q db failed db') :
    Unmoved q db (⟨db'.now, q, false⟩ :: failed) (db'.noted q false) where
  made := h.made.trans (Database.made_noted db' q false)
  allFailed := List.forall_mem_cons.2 ⟨⟨rfl, rfl⟩, h.allFailed⟩
  rows := h.rows
  outcome := h.outcome

theorem Unmoved.transient {q : Query} {failed : List Call} (h : Unmoved q db failed db')
    (hdb : Transient db) : Transient db' := fun n e ho => hdb n e (h.outcome ▸ ho)

/-- The calls come behind others, so that they can be counted from the front. -/
theorem Unmoved.failures {db₀ : Database} {failed : List Call} (h : Unmoved (query s) db₀ failed db)
    (hdb : Transient db₀) {delay : Nat} {es : List DatabaseError}
    (hes : Budget.Failures (insertOnce s) delay db es db') :
    ∃ more, more.length = es.length ∧ Unmoved (query s) db₀ (more ++ failed) db' := by
  induction hes generalizing failed with
  | none d db => exact ⟨[], rfl, h⟩
  | @call d db db₁ db' e es hop _ ih =>
    obtain rfl := eq_of_insertOnce_error (h.transient hdb) hop
    have hslept : Unmoved (query s) db₀ (⟨db.now, query s, false⟩ :: failed)
        (Clocked.sleep d (db.noted (query s) false)) := ⟨h.fail.made, h.fail.allFailed, h.rows, h.outcome⟩
    obtain ⟨more, hlen, hun⟩ := ih hslept
    exact ⟨more ++ [⟨db.now, query s, false⟩], by simp [hlen], by simpa using hun⟩

/-- The ways a save can go: its answer, its calls, the last one first, and the rows that it adds. -/
inductive Course (b : Batch) (db : Database) :
    Except StorageError SaveReport → List Call → List Submission → Prop
  | unread {e : ArtifactError} : b.assemble = .error e → Course b db (.error (.artifact e)) [] []
  | unreached {s : Submission} {failed : List Call} (e : DatabaseError) : b.assemble = .ok s →
    AllFailed (query s) failed → failed.length = 3 → Course b db (.error (.database ⟨3, e⟩)) failed []
  | known {s : Submission} {failed : List Call} (time : Nat) : b.assemble = .ok s → failed.length < 3 →
    Has db (key s) → Course b db (.ok { alreadyRecorded := true }) (⟨time, query s, true⟩ :: failed) []
  | added {s : Submission} {failed : List Call} (time : Nat) : b.assemble = .ok s → failed.length < 3 →
    ¬Has db (key s) → Course b db (.ok { written := 1 }) (⟨time, query s, true⟩ :: failed) [s]

theorem save_of_error {e : ArtifactError} (h : b.assemble = .error e) (db : Database) :
    (save b).runIn db = (.error (.artifact e), db) := by
  rw [save, h]
  rfl

theorem save_of_ok (h : b.assemble = .ok s) :
    save b = (Budget.storage.retry (insertOnce s)).mapError .database >>= fun known =>
      pure (if known then { alreadyRecorded := true } else { written := 1 }) := by
  rw [save, h]

theorem exists_course (hdb : Transient db) (b : Batch) : ∃ answer new rows db',
    (save b).runIn db = (answer, db') ∧ Course b db answer new rows ∧ db.Made new db' ∧
      db'.rows = db.rows ++ rows ∧ db'.outcome = db.outcome := by
  rcases hb : b.assemble with e | s
  · exact ⟨_, [], [], db, save_of_error hb db, .unread hb, rfl, by simp, rfl⟩
  rw [save_of_ok hb]
  have hnone : Unmoved (query s) db [] db := ⟨rfl, by simp [AllFailed], rfl, rfl⟩
  obtain ⟨es, db₁, hes, hlen, hend⟩ := Budget.exists_failures_of_retry .storage (insertOnce s) db
  obtain ⟨failed, hcount, hun⟩ := hnone.failures hdb hes
  rw [List.append_nil] at hun
  have hdb₁ := hun.transient hdb
  have hfew : failed.length < 3 := hcount ▸ Nat.lt_succ_of_le hlen
  have hhas : Has db₁ (key s) ↔ Has db (key s) := by rw [Has, Has, hun.rows]
  have hlast : db.Made (⟨db₁.now, query s, true⟩ :: failed) (db₁.noted (query s) true) :=
    hun.made.trans (Database.made_noted db₁ (query s) true)
  rcases hend with ⟨known, db₂, hop, hretry⟩ | ⟨htwo, e, db₂, hop, hretry⟩
  · have hrun := Act.bind_of_ok (f := fun known : Bool => (pure (if known then { alreadyRecorded := true }
      else { written := 1 }) : Act Database StorageError SaveReport)) (Act.mapError_of_ok hretry .database)
    rcases of_insertOnce_ok hdb₁ hop with ⟨rfl, hs, rfl⟩ | ⟨rfl, hs, rfl⟩
    · exact ⟨_, _, [], _, hrun, .known _ hb hfew (hhas.1 hs), hlast, by simpa using hun.rows, hun.outcome⟩
    · exact ⟨_, _, [s], _, hrun, .added _ hb hfew (mt hhas.2 hs), hlast, by simp [hun.rows], hun.outcome⟩
  · obtain rfl := eq_of_insertOnce_error hdb₁ hop
    have hthree : (⟨db₁.now, query s, false⟩ :: failed).length = 3 := by
      rw [List.length_cons, hcount, htwo]
      rfl
    exact ⟨_, _, [], _, Act.bind_of_error (Act.mapError_of_error hretry _),
      .unreached e hb hun.fail.allFailed hthree, hun.fail.made, by simpa using hun.rows, hun.outcome⟩

/-- What a save from the first database to the second says of itself is what happened. -/
structure Exact (b : Batch) (db : Database) (answer : Except StorageError SaveReport) (new : List Call)
    (db' : Database) : Prop where
  attempts : new.length ≤ 3
  added_iff : answer = .ok { written := 1 } ↔ db'.rows ≠ db.rows
  row : db'.rows ≠ db.rows → ∃ s, b.assemble = .ok s ∧ db'.rows = db.rows ++ [s]
  known_iff : answer = .ok { alreadyRecorded := true } ↔
    ∃ s, b.assemble = .ok s ∧ Has db (key s) ∧ ∃ c ∈ new, c.works
  refused_iff : (∃ e, answer = .error e) ↔
    (∃ e, b.assemble = .error e) ∨ new.length = 3 ∧ ∀ c ∈ new, c.works = false
  unchanged : ∀ e, answer = .error e → db'.rows = db.rows

theorem Course.exact {answer : Except StorageError SaveReport} {new : List Call} {rows : List Submission}
    (h : Course b db answer new rows) (hrows : db'.rows = db.rows ++ rows) : Exact b db answer new db' := by
  cases h with
  | unread hb =>
    rw [List.append_nil] at hrows
    exact ⟨by simp, by simp [hrows], by simp [hrows], by simp [hb], by simp [hb], fun _ _ => hrows⟩
  | unreached e hb hall hthree =>
    rw [List.append_nil] at hrows
    have hnone : ∀ c ∈ new, c.works = false := fun c hc => (hall c hc).2
    refine ⟨Nat.le_of_eq hthree, by simp [hrows], by simp [hrows], ?_, ?_, fun _ _ => hrows⟩
    · simp only [reduceCtorEq, false_iff]
      rintro ⟨-, -, -, c, hc, hworks⟩
      simp [hnone c hc] at hworks
    · exact iff_of_true ⟨_, rfl⟩ (.inr ⟨hthree, hnone⟩)
  | known time hb hfew hs =>
    rw [List.append_nil] at hrows
    exact ⟨hfew, by simp [hrows], by simp [hrows], by simp [hb, hs], by simp [hb], fun _ _ => hrows⟩
  | @added s failed time hb hfew hs =>
    exact ⟨hfew, by simp [hrows], fun _ => ⟨s, hb, hrows⟩, by simp [hb, hs], by simp [hb], by simp⟩

section Run

/-- Saves one after the other: their answers, and the database after them. -/
def saveEach : List Batch → Database → List (Except StorageError SaveReport) × Database
  | [], db => ([], db)
  | b :: l, db =>
    let (answer, db) := (save b).runIn db
    let (answers, db) := saveEach l db
    (answer :: answers, db)

/-- The submission that was saved by this batch, if it has the key and the answer was a report. -/
def saved? (k : String × String) (e : Batch × Except StorageError SaveReport) : Option Submission :=
  match e.2, e.1.assemble with
  | .ok _, .ok s => if key s = k then some s else none
  | _, _ => none

theorem transient_saveEach (hdb : Transient db) (l : List Batch) : Transient (saveEach l db).2 := by
  induction l generalizing db with
  | nil => exact hdb
  | cons b l ih =>
    obtain ⟨answer, new, rows, db₁, hrun, -, -, -, hout⟩ := exists_course hdb b
    have hdb₁ : Transient db₁ := fun n e h => hdb n e (hout ▸ h)
    rw [saveEach, hrun]
    exact ih hdb₁

/-- A key that the table has keeps its rows; any other gets the row of the first save of that key that is
answered with a report. -/
theorem filter_rows_saveEach (hdb : Transient db) (l : List Batch) (k : String × String) :
    ((saveEach l db).2.rows.filter fun r => key r = k) =
      if Has db k then db.rows.filter fun r => key r = k
      else ((l.zip (saveEach l db).1).findSome? (saved? k)).toList := by
  induction l generalizing db with
  | nil =>
    by_cases hk : Has db k
    · rw [if_pos hk]
      rfl
    · rw [if_neg hk]
      simpa [saveEach, Has] using hk
  | cons b l ih =>
    obtain ⟨answer, new, rows, db₁, hrun, hcourse, -, hrows, hout⟩ := exists_course hdb b
    have hdb₁ : Transient db₁ := fun n e h => hdb n e (hout ▸ h)
    have hhas : Has db₁ k ↔ Has db k ∨ ∃ r ∈ rows, key r = k := by
      simp only [Has, hrows, List.mem_append]
      grind
    simp only [saveEach, hrun, List.zip_cons_cons, List.findSome?_cons]
    rw [ih hdb₁, hrows]
    cases hcourse with
    | unread | unreached => simp [hhas, saved?]
    | @known s failed time hb hfew hs =>
      by_cases hk : key s = k
      · simp [hhas, hk ▸ hs]
      · simp [hhas, saved?, hb, hk]
    | @added s failed time hb hfew hs =>
      by_cases hk : key s = k
      · have hnone : db.rows.filter (fun r => key r = k) = [] := by
          simpa [Has, ← hk] using hs
        simp [hhas, saved?, hb, hk, hk ▸ hs, hnone]
      · simp [hhas, saved?, hb, hk]

end Run

/-- After any saves in an empty table, the table holds at most one row of each key, that of the first save of
the key that was answered with a report; and whatever is saved next, its answer is exact. -/
theorem saved_once {db : Database} (hrows : db.rows = []) (hdb : Transient db) (l : List Batch) :
    ∃ answers now, saveEach l db = (answers, now) ∧
      (∀ k, (now.rows.filter fun r => key r = k) = ((l.zip answers).findSome? (saved? k)).toList) ∧
      ∀ b, ∃ answer new next, (save b).runIn now = (answer, next) ∧ now.Made new next ∧
        Exact b now answer new next := by
  refine ⟨_, _, rfl, fun k => ?_, fun b => ?_⟩
  · rw [filter_rows_saveEach hdb, if_neg]
    simp [Has, hrows]
  · obtain ⟨answer, new, rows, next, hrun, hcourse, hmade, hnext, -⟩ :=
      exists_course (transient_saveEach hdb l) b
    exact ⟨answer, new, next, hrun, hmade, hcourse.exact hnext⟩

section FlakyTable

/-- An empty table that is not reached by the first call. -/
def flakyTable : Database where
  outcome n := [some { message := "connection lost" }][n]?.getD none

def noonBatch : Batch :=
  .ofList [("submissions/2024-02-01/2024-02-01T12:00:00Z-alice.json", "\x7b\"submitter\":\"alice\"\x7d".toUTF8)]

/-- Another submission for the same day. -/
def eveningBatch : Batch :=
  .ofList [("submissions/2024-02-01/2024-02-01T18:00:00Z-alice.json", "\x7b\"submitter\":\"alice\"\x7d".toUTF8)]

theorem transient_flakyTable : Transient flakyTable := by
  rintro (_ | n) e h
  · cases h
    rfl
  · simp [flakyTable] at h

theorem saved_once_flakyTable :
    flakyTable.rows = [] ∧ Transient flakyTable ∧
    ∃ answers now, saveEach [noonBatch, eveningBatch] flakyTable = (answers, now) ∧
      answers.map Except.toOption = [some { written := 1 }, some { alreadyRecorded := true }] ∧
      (∀ k, (now.rows.filter fun r => key r = k) =
        (([noonBatch, eveningBatch].zip answers).findSome? (saved? k)).toList) ∧
      ∀ b, ∃ answer new next, (save b).runIn now = (answer, next) ∧ now.Made new next ∧
        Exact b now answer new next := by
  have hempty : flakyTable.rows = [] := rfl
  obtain ⟨answers, now, hrun, hrows, hnext⟩ :=
    saved_once hempty transient_flakyTable [noonBatch, eveningBatch]
  refine ⟨hempty, transient_flakyTable, answers, now, hrun, ?_, hrows, hnext⟩
  have hanswers : (saveEach [noonBatch, eveningBatch] flakyTable).1.map Except.toOption =
      [some { written := 1 }, some { alreadyRecorded := true }] := by decide +kernel
  rwa [hrun] at hanswers

end FlakyTable

end Rollcall.Relational
