import Mathlib.Data.List.Basic
import Rollcall.Proofs.Retry
import Rollcall.Storage.Database

/-! What retried queries leave in the log of a database. A query that is retried is the only one that was put;
a budget is spent where the last calls, as many as were allowed, all failed. -/

namespace Rollcall

namespace Database

/-- The database with one more call noted. -/
def noted (db : Database) (q : Query) (works : Bool) : Database :=
  { db with made := db.made + 1, calls := ⟨db.now, q, works⟩ :: db.calls }

@[simp] theorem rows_noted (db : Database) (q : Query) (works : Bool) : (db.noted q works).rows = db.rows := rfl

/-- The calls from the first database to the second, the last one first. -/
def Made (db : Database) (new : List Call) (db' : Database) : Prop := db'.calls = new ++ db.calls

variable {α : Type} {db db₁ db' : Database} {new new' : List Call} {q : Query}

theorem made_noted (db : Database) (q : Query) (works : Bool) :
    db.Made [⟨db.now, q, works⟩] (db.noted q works) := rfl

theorem Made.trans (h : db.Made new db₁) (h' : db₁.Made new' db') : db.Made (new' ++ new) db' := by
  rw [Made, h', h, List.append_assoc]

section Call

variable {effect : Database → Except DatabaseError α × Database}

theorem call_of_some {e : DatabaseError} (h : db.mishap q = some e) :
    call q effect db = (.error e, db.noted q false) := by
  simp [call, noted, h]

theorem call_of_none (h : db.mishap q = none) : call q effect db = effect (db.noted q true) := by
  simp [call, noted, h]

end Call

/-- The step is one call of the query, and fails where the call does. -/
def Asks (q : Query) (x : Act Database DatabaseError α) : Prop :=
  ∀ db, (∃ a db', x db = (.ok a, db') ∧ db.Made [⟨db.now, q, true⟩] db') ∨
    ∃ e db', x db = (.error e, db') ∧ db.Made [⟨db.now, q, false⟩] db'

theorem asks_execute (s : Statement) : Asks (.execute s) (execute s) := by
  intro db
  rcases hm : db.mishap (.execute s) with _ | e
  · refine .inl ⟨(), _, call_of_none hm, ?_⟩
    cases s.effect <;> rfl
  · exact .inr ⟨e, _, call_of_some hm, rfl⟩

theorem asks_readHistory (t : String) : Asks (.history t) (readHistory t) := by
  intro db
  rcases hm : db.mishap (.history t) with _ | e
  · exact .inl ⟨_, _, call_of_none hm, rfl⟩
  · exact .inr ⟨e, _, call_of_some hm, rfl⟩

/-- Calls of one query, all of which failed. -/
def AllFailed (q : Query) (l : List Call) : Prop := ∀ c ∈ l, c.query = q ∧ c.works = false

variable {x : Act Database DatabaseError α}

theorem exists_made_of_failures (hx : Asks q x) {delay : Nat} {es : List DatabaseError}
    (h : Budget.Failures x delay db es db') : ∃ new, db.Made new db' ∧ new.length = es.length ∧ AllFailed q new := by
  induction h with
  | none d db => exact ⟨[], rfl, rfl, by simp [AllFailed]⟩
  | @call d db db₁ db' e es hdb _ ih =>
    obtain ⟨new, hnew, hlen, hall⟩ := ih
    rcases hx db with ⟨a, db₂, ha, -⟩ | ⟨e', db₂, he, hmade⟩
    · rw [hdb] at ha
      cases ha
    · rw [hdb] at he
      cases he
      refine ⟨new ++ [⟨db.now, q, false⟩], hmade.trans hnew, by simp [hlen], fun c hc => ?_⟩
      rcases List.mem_append.1 hc with hc | hc
      · exact hall c hc
      · rw [List.mem_singleton.1 hc]
        exact ⟨rfl, rfl⟩

/-- A retried query that is answered was put until then; one that is not was put as often as the budget
allows. -/
theorem exists_made_of_retry (b : Budget) (hx : Asks q x) (db : Database) :
    ∃ failed, AllFailed q failed ∧
      ((∃ a db' t, b.retry x db = (.ok a, db') ∧ db.Made (⟨t, q, true⟩ :: failed) db') ∨
        ∃ e db', b.retry x db = (.error e, db') ∧ db.Made failed db' ∧ failed.length = e.attempts ∧
          e.attempts = 1 + (b.maxAttempts - 1)) := by
  obtain ⟨es, db₁, hes, -, hend⟩ := Budget.exists_failures_of_retry b x db
  obtain ⟨failed, hfailed, hlen, hall⟩ := exists_made_of_failures hx hes
  rcases hend with ⟨a, db₂, ha, hretry⟩ | ⟨hcount, e, db₂, he, hretry⟩
  · rcases hx db₁ with ⟨a', db', ha', hmade⟩ | ⟨e, db', he', -⟩
    · rw [ha] at ha'
      cases ha'
      exact ⟨failed, hall, .inl ⟨a, db₂, _, hretry, hfailed.trans hmade⟩⟩
    · rw [ha] at he'
      cases he'
  · rcases hx db₁ with ⟨a, db', ha', -⟩ | ⟨e', db', he', hmade⟩
    · rw [he] at ha'
      cases ha'
    · rw [he] at he'
      cases he'
      refine ⟨_, ?_, .inr ⟨_, db₂, hretry, hfailed.trans hmade, ?_, rfl⟩⟩
      · intro c hc
        rcases List.mem_cons.1 hc with rfl | hc
        · exact ⟨rfl, rfl⟩
        · exact hall c hc
      · simp [hlen, hcount, Nat.add_comm]

end Database

end Rollcall
