import Mathlib.Data.List.Basic
import Rollcall.Proofs.Retry
import Rollcall.Storage.Tables

/-! What a save in a wide-column store that keeps blocks in its rows comes to. An attempt inserts the row with
its block and, only if that row was too large, without it. Whatever the store answers, there are at most three
attempts, all but the last in vain: the save ends like the last one, and adds the row that the last one stored
or none. -/

namespace Rollcall

namespace Database

/-- The row of a submission, with its block or without it. -/
theorem ensures_insertWide (keyspace : String) (s : Submission) (withBlock : Bool) (rows : List Submission) :
    (insertWide keyspace s withBlock).Ensures (·.rows = rows)
      (fun _ db => db.rows = rows ++ [if withBlock then s else s.withoutRawBlock])
      fun _ db => db.rows = rows := by
  intro db h
  rw [insertWide, call]
  generalize hrow : (if withBlock then s else s.withoutRawBlock) = row
  rcases hm : db.mishap (.insertSubmission (some keyspace) s.submitter (some withBlock)) with _ | e
  · by_cases hlarge : db.maxRow.any (· < row.rawBlockSize)
    · simpa [hm, hlarge] using h
    · simp [hlarge, h]
  · simpa [hm] using h

end Database

namespace Keyspace

/-- An insert of a submission, and what the store answered. -/
structure Insert where
  withBlock : Bool
  answer : Except DatabaseError Unit

/-- The rows that an insert of the submission adds. -/
def Insert.added (s : Submission) (i : Insert) : List Submission :=
  match i.answer with
  | .ok () => [if i.withBlock then s else s.withoutRawBlock]
  | .error _ => []

/-- From the first database to the second, these inserts were made one after the other, with pauses. -/
inductive Inserts (k : Keyspace) (s : Submission) : Database → List Insert → Database → Prop
  | none (db : Database) : Inserts k s db [] db
  | pause {db db' : Database} {l : List Insert} (d : Nat) :
    Inserts k s (Clocked.sleep d db) l db' → Inserts k s db l db'
  | insert {db db₁ db' : Database} {i : Insert} {l : List Insert} :
    Database.insertWide k.name s i.withBlock db = (i.answer, db₁) → Inserts k s db₁ l db' →
      Inserts k s db (i :: l) db'

/-- An attempt, by the answers that it met. Nothing but a row that was too large is tried without its
block. -/
inductive Attempt where
  | kept
  | degraded (e : DatabaseError) (large : e.isRowTooLarge)
  | refused (e : DatabaseError) (notLarge : ¬e.isRowTooLarge)
  | refusedTwice (e : DatabaseError) (large : e.isRowTooLarge) (last : DatabaseError)

namespace Attempt

def inserts : Attempt → List Insert
  | kept => [⟨true, .ok ()⟩]
  | degraded e _ => [⟨true, .error e⟩, ⟨false, .ok ()⟩]
  | refused e _ => [⟨true, .error e⟩]
  | refusedTwice e _ last => [⟨true, .error e⟩, ⟨false, .error last⟩]

/-- Whether the block was dropped, or the answer to the last insert. -/
def outcome : Attempt → Except DatabaseError Bool
  | kept => .ok false
  | degraded _ _ => .ok true
  | refused e _ => .error e
  | refusedTwice _ _ last => .error last

theorem flatMap_added_of_ok {a : Attempt} {dropped : Bool} (h : a.outcome = .ok dropped) (s : Submission) :
    a.inserts.flatMap (Insert.added s) = [if dropped then s.withoutRawBlock else s] := by
  cases a <;> cases h <;> rfl

theorem getLast?_inserts_of_ok {a : Attempt} {dropped : Bool} (h : a.outcome = .ok dropped) :
    a.inserts.getLast? = some ⟨!dropped, .ok ()⟩ := by
  cases a <;> cases h <;> rfl

theorem flatMap_added_of_error {a : Attempt} {e : DatabaseError} (h : a.outcome = .error e) (s : Submission) :
    a.inserts.flatMap (Insert.added s) = [] := by
  cases a <;> cases h <;> rfl

end Attempt

variable {k : Keyspace} {s : Submission} {db db₁ db' : Database} {l l' : List Insert}

theorem Inserts.append (h : Inserts k s db l db₁) (h' : Inserts k s db₁ l' db') :
    Inserts k s db (l ++ l') db' := by
  induction h with
  | none => exact h'
  | pause d _ ih => exact .pause d (ih h')
  | insert hi _ ih => exact .insert hi (ih h')

theorem Inserts.rows_eq (h : Inserts k s db l db') : db'.rows = db.rows ++ l.flatMap (Insert.added s) := by
  induction h with
  | none => simp
  | pause d _ ih => exact ih
  | @insert db db₁ db' i l hi _ ih =>
    have hrow := Database.ensures_insertWide k.name s i.withBlock db.rows
    rcases i with ⟨w, e | _⟩
    · rw [ih, hrow.of_error rfl hi]
      rfl
    · rw [ih, hrow.of_ok rfl hi, List.append_assoc]
      rfl

theorem insertOrDegrade_of_ok (hi : Database.insertWide k.name s true db = (.ok (), db₁)) :
    k.insertOrDegrade s db = (.ok false, db₁) := by
  rw [insertOrDegrade, Act.bind_of_ok (Act.outcome_of_eq hi)]
  rfl

section Rejected

variable {e : DatabaseError} (hi : Database.insertWide k.name s true db = (.error e, db₁))
include hi

theorem insertOrDegrade_of_large (he : e.isRowTooLarge) :
    k.insertOrDegrade s db = (Database.insertWide k.name s false >>= fun _ => pure true) db₁ := by
  rw [insertOrDegrade, Act.bind_of_ok (Act.outcome_of_eq hi)]
  simp only [he, if_true]

theorem insertOrDegrade_of_not_large (he : ¬e.isRowTooLarge) : k.insertOrDegrade s db = (.error e, db₁) := by
  rw [insertOrDegrade, Act.bind_of_ok (Act.outcome_of_eq hi)]
  simp only [he]
  rfl

end Rejected

theorem exists_attempt (k : Keyspace) (s : Submission) (db : Database) :
    ∃ (a : Attempt) (db' : Database), k.insertOrDegrade s db = (a.outcome, db') ∧
      Inserts k s db a.inserts db' := by
  rcases hi : Database.insertWide k.name s true db with ⟨e | _, db₁⟩
  · by_cases he : e.isRowTooLarge
    · rcases hj : Database.insertWide k.name s false db₁ with ⟨last | _, db₂⟩
      · refine ⟨.refusedTwice e he last, db₂, ?_, .insert hi (.insert hj (.none db₂))⟩
        exact (insertOrDegrade_of_large hi he).trans (Act.bind_of_error hj)
      · refine ⟨.degraded e he, db₂, ?_, .insert hi (.insert hj (.none db₂))⟩
        exact (insertOrDegrade_of_large hi he).trans (Act.bind_of_ok hj)
    · exact ⟨.refused e he, db₁, insertOrDegrade_of_not_large hi he, .insert hi (.none db₁)⟩
  · exact ⟨.kept, db₁, insertOrDegrade_of_ok hi, .insert hi (.none db₁)⟩

/-- Failed calls of an attempt are attempts. -/
theorem exists_attempts_of_failures {delay : Nat} {es : List DatabaseError}
    (h : Budget.Failures (k.insertOrDegrade s) delay db es db') :
    ∃ as : List Attempt, as.map Attempt.outcome = es.map .error ∧
      Inserts k s db (as.flatMap Attempt.inserts) db' := by
  induction h with
  | none d db => exact ⟨[], rfl, .none db⟩
  | @call d db db₁ db' e es hdb _ ih =>
    obtain ⟨a, db₂, ha, hi⟩ := exists_attempt k s db
    obtain ⟨ho, rfl⟩ := Prod.mk.inj (hdb.symm.trans ha)
    obtain ⟨as, has, his⟩ := ih
    refine ⟨a :: as, by rw [List.map_cons, has, ← ho, List.map_cons], ?_⟩
    exact hi.append (.pause d his)

theorem flatMap_added_of_failed {failed : List Attempt} (h : ∀ a ∈ failed, ∃ e, a.outcome = .error e)
    (s : Submission) : (failed.flatMap Attempt.inserts).flatMap (Insert.added s) = [] := by
  rw [List.flatMap_assoc, List.flatMap_eq_nil_iff]
  intro a ha
  obtain ⟨e, he⟩ := h a ha
  exact Attempt.flatMap_added_of_error he s

theorem save_eq {b : Batch} (hk : k.separateBlocks = false) (hb : b.assemble = .ok s) :
    k.save b = retrying .storage (k.insertOrDegrade s) >>= fun dropped =>
      pure { written := 1, rawBlockDropped := dropped } := by
  rw [save, hb]
  simp [hk]

/-- A save of a batch that assembles makes attempts, at most three, and all but the last in vain. It reports
what the last one came to: the one row that this stored, or its error once three attempts were made. -/
theorem save_ends_as_last_attempt {k : Keyspace} (hk : k.separateBlocks = false) {b : Batch} {s : Submission}
    (hb : b.assemble = .ok s) (db : Database) :
    ∃ (failed : List Attempt) (last : Attempt) (db' : Database),
      (∀ a ∈ failed, ∃ e, a.outcome = .error e) ∧ failed.length < 3 ∧
      Inserts k s db ((failed ++ [last]).flatMap Attempt.inserts) db' ∧
      match last.outcome with
      | .ok dropped =>
        last.inserts.getLast? = some ⟨!dropped, .ok ()⟩ ∧
          (k.save b).runIn db = (.ok { written := 1, rawBlockDropped := dropped }, db') ∧
          db'.rows = db.rows ++ [if dropped then { s with rawBlock := none } else s]
      | .error e =>
        failed.length = 2 ∧ (k.save b).runIn db = (.error (.database ⟨3, e⟩), db') ∧ db'.rows = db.rows := by
  obtain ⟨es, db₁, hes, hlen, hend⟩ := Budget.exists_failures_of_retry .storage (k.insertOrDegrade s) db
  obtain ⟨failed, hfailed, hi⟩ := exists_attempts_of_failures hes
  obtain ⟨last, db', hlast, hj⟩ := exists_attempt k s db₁
  have hcount : failed.length = es.length := by simpa using congrArg List.length hfailed
  have hvain : ∀ a ∈ failed, ∃ e, a.outcome = .error e := by
    intro a ha
    have : a.outcome ∈ es.map Except.error := hfailed ▸ List.mem_map_of_mem ha
    obtain ⟨e, -, he⟩ := List.mem_map.1 this
    exact ⟨e, he.symm⟩
  have hall : Inserts k s db ((failed ++ [last]).flatMap Attempt.inserts) db' := by
    simpa using hi.append hj
  have hrows := hall.rows_eq
  rw [List.flatMap_append, List.flatMap_append, flatMap_added_of_failed hvain, List.nil_append,
    List.flatMap_singleton] at hrows
  refine ⟨failed, last, db', hvain, hcount ▸ Nat.lt_succ_of_le hlen, hall, ?_⟩
  rw [save_eq hk hb]
  rcases hend with ⟨dropped, db₂, hop, hretry⟩ | ⟨htwo, e, db₂, hop, hretry⟩
  · obtain ⟨ho, rfl⟩ := Prod.mk.inj (hlast.symm.trans hop)
    rw [Attempt.flatMap_added_of_ok ho] at hrows
    simp only [ho]
    exact ⟨last.getLast?_inserts_of_ok ho, Act.bind_of_ok (Act.mapError_of_ok hretry _), hrows⟩
  · obtain ⟨ho, rfl⟩ := Prod.mk.inj (hlast.symm.trans hop)
    rw [Attempt.flatMap_added_of_error ho, List.append_nil] at hrows
    simp only [ho]
    exact ⟨hcount.trans htwo, Act.bind_of_error (Act.mapError_of_error hretry _), hrows⟩

section Flaky

def rowStore : Keyspace := { name := "ks" }

/-- A body of alice and the block that it names. -/
def alicesBatch : Batch :=
  .ofList [("blocks/3NKhash.dat", "block".toUTF8),
    ("submissions/2024-02-01/2024-02-01T12:00:00Z-alice.json", "\x7b\"submitter\":\"alice\"\x7d".toUTF8)]

/-- The first insert is too large and the second fails, and then the store recovers. -/
def flakySession : Database where
  outcome n := [some { message := rowTooLarge }, some { message := "connection lost" }][n]?.getD none

def alicesRow : Submission where
  submitter := "alice"
  date := "2024-02-01"
  submittedAt := ⟨1706788800, 0, by decide, Instant.zero_nanosInRange⟩
  blockHash := "3NKhash"
  rawBlock := some "block".toUTF8

theorem save_ends_as_last_attempt_flaky :
    rowStore.separateBlocks = false ∧ alicesBatch.assemble = .ok alicesRow ∧
    ∃ (failed : List Attempt) (last : Attempt) (db' : Database),
      (∀ a ∈ failed, ∃ e, a.outcome = .error e) ∧ failed.length < 3 ∧
      Inserts rowStore alicesRow flakySession ((failed ++ [last]).flatMap Attempt.inserts) db' ∧
      match last.outcome with
      | .ok dropped =>
        last.inserts.getLast? = some ⟨!dropped, .ok ()⟩ ∧
          (rowStore.save alicesBatch).runIn flakySession =
            (.ok { written := 1, rawBlockDropped := dropped }, db') ∧
          db'.rows = flakySession.rows ++ [if dropped then { alicesRow with rawBlock := none } else alicesRow]
      | .error e =>
        failed.length = 2 ∧
          (rowStore.save alicesBatch).runIn flakySession = (.error (.database ⟨3, e⟩), db') ∧
          db'.rows = flakySession.rows := by
  have hb : alicesBatch.assemble = .ok alicesRow := by decide +kernel
  exact ⟨rfl, hb, save_ends_as_last_attempt rfl hb flakySession⟩

end Flaky

end Keyspace

end Rollcall
