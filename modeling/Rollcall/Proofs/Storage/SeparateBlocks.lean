import Rollcall.Proofs.List
import Rollcall.Proofs.Storage.Calls
import Rollcall.Proofs.Storage.WideRow

/-! What saves in a wide-column store that keeps blocks in a table of their own come to. A save inserts the
block, as often as its budget allows, and only then the row, with a budget of its own. So whatever the store
answers and wherever a save stops, a row that names a block finds it in the other table, put there before. -/

namespace Rollcall.Keyspace

/-- What is inserted: a block, or the row of a submission, which goes without its block. -/
inductive Item where
  | block (c : Block)
  | row (s : Submission)

def Item.insert (k : Keyspace) : Item → Act Database DatabaseError Unit
  | block c => Database.insertBlock k.name c
  | row s => Database.insertWide k.name s.withoutRawBlock false

/-- An insert, and what the store answered. -/
abbrev Tried := Item × Except DatabaseError Unit

def addedBlock? : Tried → Option Block
  | (.block c, .ok ()) => some c
  | _ => none

/-- The submission whose row was added. -/
def addedRow? : Tried → Option Submission
  | (.row s, .ok ()) => some s
  | _ => none

def blocksOf (l : List Tried) : List Block := l.filterMap addedBlock?

def rowsOf (l : List Tried) : List Submission := l.filterMap addedRow?

variable {k : Keyspace} {db db' : Database} {l m : List Tried} {b : Batch} {s : Submission} {raw : ByteArray}

section Tables

@[simp] theorem blocksOf_append (l m : List Tried) : blocksOf (l ++ m) = blocksOf l ++ blocksOf m :=
  List.filterMap_append

@[simp] theorem rowsOf_append (l m : List Tried) : rowsOf (l ++ m) = rowsOf l ++ rowsOf m :=
  List.filterMap_append

/-- A row without a block is never too large, so an insert fails only from outside, and has no effect then. -/
theorem tables_of_insert {i : Item} {r : Except DatabaseError Unit} (h : i.insert k db = (r, db')) :
    db'.rows = db.rows ++ (rowsOf [(i, r)]).map Submission.withoutRawBlock ∧
      db'.blocks = db.blocks ++ blocksOf [(i, r)] := by
  cases i with
  | block c =>
    rw [Item.insert] at h
    rcases hm : db.mishap (.insertBlock k.name c.hash) with _ | e
    · have hcall : Database.insertBlock k.name c db = _ := Database.call_of_none hm
      obtain ⟨rfl, rfl⟩ := Prod.mk.inj (h.symm.trans hcall)
      simp [rowsOf, blocksOf, addedRow?, addedBlock?, Database.noted]
    · have hcall : Database.insertBlock k.name c db = _ := Database.call_of_some hm
      obtain ⟨rfl, rfl⟩ := Prod.mk.inj (h.symm.trans hcall)
      simp [rowsOf, blocksOf, addedRow?, addedBlock?, Database.noted]
  | row s =>
    rw [Item.insert] at h
    have hsmall (n : Option Nat) : n.any (· < s.withoutRawBlock.withoutRawBlock.rawBlockSize) = false := by
      cases n <;> simp [Submission.rawBlockSize, Submission.withoutRawBlock]
    rcases hm : db.mishap (.insertSubmission (some k.name) s.withoutRawBlock.submitter (some false)) with _ | e
    · have hcall : Database.insertWide k.name s.withoutRawBlock false db = _ := Database.call_of_none hm
      rw [if_neg (by simp [hsmall])] at hcall
      obtain ⟨rfl, rfl⟩ := Prod.mk.inj (h.symm.trans hcall)
      simp [rowsOf, blocksOf, addedRow?, addedBlock?, Database.noted, Submission.withoutRawBlock]
    · have hcall : Database.insertWide k.name s.withoutRawBlock false db = _ := Database.call_of_some hm
      obtain ⟨rfl, rfl⟩ := Prod.mk.inj (h.symm.trans hcall)
      simp [rowsOf, blocksOf, addedRow?, addedBlock?, Database.noted]

theorem tables_of_trail (h : Act.Trail (Item.insert k) db l db') :
    db'.rows = db.rows ++ (rowsOf l).map Submission.withoutRawBlock ∧ db'.blocks = db.blocks ++ blocksOf l := by
  induction h with
  | none => simp [rowsOf, blocksOf]
  | pause d _ ih => exact ih
  | @step db db₁ db' i r l hi _ ih =>
    obtain ⟨hrows, hblocks⟩ := tables_of_insert hi
    have hcons : (i, r) :: l = [(i, r)] ++ l := rfl
    rw [ih.1, ih.2, hrows, hblocks, hcons, rowsOf_append, blocksOf_append, List.map_append, List.append_assoc,
      List.append_assoc]
    exact ⟨rfl, rfl⟩

end Tables

section Order

/-- Before the row of a submission that has a block, this block was added. -/
def BlocksFirst (l : List Tried) : Prop :=
  ∀ p s q raw, l = p ++ (.row s, .ok ()) :: q → s.rawBlock = some raw → ⟨s.blockHash, raw⟩ ∈ blocksOf p

theorem mem_rowsOf : s ∈ rowsOf l ↔ (.row s, .ok ()) ∈ l := by
  have hadded (e : Tried) : addedRow? e = some s ↔ e = (.row s, .ok ()) := by
    rcases e with ⟨_ | _, _ | _⟩ <;> simp [addedRow?]
  simp [rowsOf, List.mem_filterMap, hadded]

/-- Where no row is added at first, it is enough that the rows added later find their blocks there. -/
theorem blocksFirst_append_of_rowsOf (h : rowsOf l = [])
    (hm : ∀ s ∈ rowsOf m, ∀ raw, s.rawBlock = some raw → ⟨s.blockHash, raw⟩ ∈ blocksOf l) :
    BlocksFirst (l ++ m) := by
  intro p s q raw hlm hraw
  rcases append_eq_append_cons hlm with ⟨j, hl⟩ | ⟨j, rfl, hj⟩
  · have hrow : s ∈ rowsOf l := mem_rowsOf.2 (by simp [hl])
    simp [h] at hrow
  · have hrow : s ∈ rowsOf m := mem_rowsOf.2 (by simp [hj])
    rw [blocksOf_append]
    exact List.mem_append_left _ (hm s hrow raw hraw)

theorem blocksFirst_of_rowsOf_eq_nil (h : rowsOf l = []) : BlocksFirst l := by
  simpa using blocksFirst_append_of_rowsOf (m := []) h (by simp [rowsOf])

theorem BlocksFirst.of_append (h : BlocksFirst (l ++ m)) : BlocksFirst l := by
  rintro p s q raw rfl hraw
  exact h p s (q ++ m) raw (List.append_assoc ..) hraw

theorem BlocksFirst.append (h : BlocksFirst l) (h' : BlocksFirst m) : BlocksFirst (l ++ m) := by
  intro p s q raw hlm hraw
  rcases append_eq_append_cons hlm with ⟨j, hl⟩ | ⟨j, rfl, hm⟩
  · exact h p s j raw hl hraw
  · rw [blocksOf_append]
    exact List.mem_append_right _ (h' j s q raw hm hraw)

end Order

section Course

/-- An item that is tried in vain, and once more. -/
def tries (i : Item) (es : List DatabaseError) (r : Except DatabaseError Unit) : List Tried :=
  es.map (fun e => (i, .error e)) ++ [(i, r)]

/-- Of tries of one item, the last one alone can add it. -/
theorem filterMap_tries {α : Type} {f : Tried → Option α} (hf : ∀ i e, f (i, .error e) = none) (i : Item)
    (es : List DatabaseError) (r : Except DatabaseError Unit) :
    (tries i es r).filterMap f = (f (i, r)).toList := by
  have hvain : (es.map fun e => (i, .error e)).filterMap f = [] := by
    simp [hf]
  rw [tries, List.filterMap_append, hvain, List.nil_append]
  cases hr : f (i, r) <;> simp [hr]

theorem blocksOf_tries (i : Item) (es : List DatabaseError) (r : Except DatabaseError Unit) :
    blocksOf (tries i es r) = (addedBlock? (i, r)).toList :=
  filterMap_tries (fun i _ => by cases i <;> rfl) i es r

theorem rowsOf_tries (i : Item) (es : List DatabaseError) (r : Except DatabaseError Unit) :
    rowsOf (tries i es r) = (addedRow? (i, r)).toList :=
  filterMap_tries (fun i _ => by cases i <;> rfl) i es r

/-- What a save answers for the outcome of its last insert. -/
def answerTo (n : Nat) (r : Except DatabaseError Unit) : Except StorageError SaveReport :=
  (r.map fun _ => { written := n }).mapError fun e => .database ⟨3, e⟩

theorem answerTo_ok (n : Nat) (u : Unit) : answerTo n (.ok u) = .ok { written := n } := rfl

/-- How a save can go: the batch does not assemble, or its submission has no block, or its block is not
stored, or the row follows the block. -/
inductive Course (b : Batch) : Except StorageError SaveReport → List Tried → Prop
  | unread {e : ArtifactError} : b.assemble = .error e → Course b (.error (.artifact e)) []
  | plain {s : Submission} (es : List DatabaseError) (r : Except DatabaseError Unit) :
    b.assemble = .ok s → s.rawBlock = none → Course b (answerTo 1 r) (tries (.row s) es r)
  | stuck {s : Submission} {raw : ByteArray} (es : List DatabaseError) (e : DatabaseError) :
    b.assemble = .ok s → s.rawBlock = some raw →
      Course b (.error (.database ⟨3, e⟩)) (tries (.block ⟨s.blockHash, raw⟩) es (.error e))
  | apart {s : Submission} {raw : ByteArray} (es es' : List DatabaseError) (r : Except DatabaseError Unit) :
    b.assemble = .ok s → s.rawBlock = some raw →
      Course b (answerTo 2 r) (tries (.block ⟨s.blockHash, raw⟩) es (.ok ()) ++ tries (.row s) es' r)

theorem exists_retrying (k : Keyspace) (i : Item) (db : Database) : ∃ es r db',
    Act.Trail (Item.insert k) db (tries i es r) db' ∧
      retrying .storage (i.insert k) db = (r.mapError fun e => .database ⟨3, e⟩, db') := by
  obtain ⟨es, r, db', htrail, hretry, -⟩ := Budget.exists_trail_of_retry .storage (Item.insert k) i db
  refine ⟨es, r, db', htrail, ?_⟩
  rw [retrying]
  cases r with
  | ok a => exact Act.mapError_of_ok hretry _
  | error e => exact Act.mapError_of_error hretry _

theorem exists_course (hk : k.separateBlocks) (b : Batch) (db : Database) : ∃ answer l db',
    (k.save b).runIn db = (answer, db') ∧ Course b answer l ∧ Act.Trail (Item.insert k) db l db' := by
  rcases hb : b.assemble with e | s
  · refine ⟨.error (.artifact e), [], db, ?_, .unread hb, .none db⟩
    rw [save, hb]
    rfl
  have hsave : k.save b = k.insertApart s >>= fun n => pure { written := n } := by
    rw [save, hb]
    simp [hk]
  rw [hsave, Act.runIn, insertApart]
  cases hraw : s.rawBlock with
  | none =>
    obtain ⟨es, r, db', htrail, hretry⟩ := exists_retrying k (.row s) db
    refine ⟨answerTo 1 r, _, db', ?_, .plain es r hb hraw, htrail⟩
    cases r with
    | error e => exact Act.bind_of_error (Act.bind_of_error hretry)
    | ok a => exact Act.bind_of_ok (Act.bind_of_ok hretry)
  | some raw =>
    obtain ⟨es, r, db₁, htrail, hretry⟩ := exists_retrying k (.block ⟨s.blockHash, raw⟩) db
    cases r with
    | error e =>
      exact ⟨_, _, db₁, Act.bind_of_error (Act.bind_of_error hretry), .stuck es e hb hraw, htrail⟩
    | ok a =>
      obtain ⟨es', r, db', htrail', hretry'⟩ := exists_retrying k (.row s) db₁
      refine ⟨answerTo 2 r, _, db', ?_, .apart es es' r hb hraw, htrail.append htrail'⟩
      cases r with
      | error e => exact Act.bind_of_error ((Act.bind_of_ok hretry).trans (Act.bind_of_error hretry'))
      | ok a => exact Act.bind_of_ok ((Act.bind_of_ok hretry).trans (Act.bind_of_ok hretry'))

end Course

section Run

/-- A save of a batch, with its answer and the inserts that it tried. -/
structure Saved where
  batch : Batch
  answer : Except StorageError SaveReport
  log : List Tried

/-- The answer of a save is what its inserts came to. -/
structure Saved.Exact (c : Saved) : Prop where
  blocksFirst : BlocksFirst c.log
  ok_iff : (∃ r, c.answer = .ok r) ↔ ∃ s, c.batch.assemble = .ok s ∧ rowsOf c.log = [s]
  written : ∀ r, c.answer = .ok r → r.written = (rowsOf c.log).length + (blocksOf c.log).length
  refused : ∀ e, c.answer = .error e → rowsOf c.log = []

theorem Saved.exact_of_error (e : StorageError) (h : rowsOf l = []) : Saved.Exact ⟨b, .error e, l⟩ where
  blocksFirst := blocksFirst_of_rowsOf_eq_nil h
  ok_iff := by simp [h]
  written := by simp
  refused _ _ := h

/-- A save whose last insert is that of its row, behind those of its block. -/
theorem Saved.exact_of_row {r : Except DatabaseError Unit} (es : List DatabaseError) (hb : b.assemble = .ok s)
    (hl : rowsOf l = []) (hraw : ∀ raw, s.rawBlock = some raw → ⟨s.blockHash, raw⟩ ∈ blocksOf l) :
    Saved.Exact ⟨b, answerTo ((blocksOf l).length + 1) r, l ++ tries (.row s) es r⟩ := by
  have hrows : rowsOf (l ++ tries (.row s) es r) = (addedRow? (.row s, r)).toList := by
    rw [rowsOf_append, hl, rowsOf_tries, List.nil_append]
  cases r with
  | error e => exact exact_of_error _ hrows
  | ok _ =>
    have hone : rowsOf (l ++ tries (.row s) es (.ok ())) = [s] := hrows
    have hblocks : blocksOf (l ++ tries (.row s) es (.ok ())) = blocksOf l := by
      rw [blocksOf_append, blocksOf_tries]
      exact List.append_nil _
    refine ⟨blocksFirst_append_of_rowsOf hl fun u hu raw hu' => ?_, ?_, ?_, by simp [answerTo_ok]⟩
    · obtain rfl : u = s := by simpa [rowsOf_tries, addedRow?] using hu
      exact hraw raw hu'
    · simp [hb, hone, answerTo_ok]
    · rintro _ ⟨⟩
      simp [hone, hblocks, Nat.add_comm]

theorem Course.exact {answer : Except StorageError SaveReport} (h : Course b answer l) :
    Saved.Exact ⟨b, answer, l⟩ := by
  cases h with
  | unread hb => exact Saved.exact_of_error _ rfl
  | plain es r hb hraw => exact Saved.exact_of_row (l := []) es hb rfl (by simp [hraw])
  | stuck es e hb hraw => exact Saved.exact_of_error _ (rowsOf_tries _ es _)
  | @apart s raw es es' r hb hraw =>
    have hblocks := blocksOf_tries (.block ⟨s.blockHash, raw⟩) es (.ok ())
    have hfirst := Saved.exact_of_row (r := r) es' hb (rowsOf_tries (.block ⟨s.blockHash, raw⟩) es (.ok ()))
      (by simp [hraw, hblocks, addedBlock?])
    rwa [hblocks] at hfirst

/-- Saves one after the other: their answers, and the database after them. -/
def saveEach (k : Keyspace) : List Batch → Database → List (Except StorageError SaveReport) × Database
  | [], db => ([], db)
  | b :: l, db =>
    let (answer, db) := (k.save b).runIn db
    let (answers, db) := saveEach k l db
    (answer :: answers, db)

theorem exists_saved (hk : k.separateBlocks) (l : List Batch) (db : Database) : ∃ calls : List Saved,
    calls.map Saved.batch = l ∧ (k.saveEach l db).1 = calls.map Saved.answer ∧ (∀ c ∈ calls, c.Exact) ∧
      Act.Trail (Item.insert k) db (calls.flatMap Saved.log) (k.saveEach l db).2 := by
  induction l generalizing db with
  | nil => exact ⟨[], rfl, rfl, by simp, .none db⟩
  | cons b l ih =>
    obtain ⟨answer, log, db₁, hrun, hcourse, htrail⟩ := exists_course hk b db
    obtain ⟨calls, hbatches, hanswers, hexact, hrest⟩ := ih db₁
    refine ⟨⟨b, answer, log⟩ :: calls, by rw [List.map_cons, hbatches], ?_, ?_, ?_⟩
    · simp [saveEach, hrun, hanswers]
    · exact List.forall_mem_cons.2 ⟨hcourse.exact, hexact⟩
    · rw [saveEach, hrun]
      exact htrail.append hrest

theorem blocksFirst_flatMap {calls : List Saved} (h : ∀ c ∈ calls, c.Exact) :
    BlocksFirst (calls.flatMap Saved.log) := by
  induction calls with
  | nil => exact blocksFirst_of_rowsOf_eq_nil rfl
  | cons c calls ih =>
    obtain ⟨hc, hcalls⟩ := List.forall_mem_cons.1 h
    exact hc.blocksFirst.append (ih hcalls)

end Run

/-- Whatever batches are saved and whatever the store answers, the answer of each save is what its inserts came
to; and at any moment of the whole run, each row that was added for a submission with a block was added behind
this block. -/
theorem blocks_come_first {k : Keyspace} (hk : k.separateBlocks = true) (l : List Batch) (db : Database) :
    ∃ calls : List Saved, calls.map Saved.batch = l ∧ (k.saveEach l db).1 = calls.map Saved.answer ∧
      (∀ c ∈ calls, c.Exact) ∧
      ∀ pre post, calls.flatMap Saved.log = pre ++ post → ∃ now,
        Act.Trail (Item.insert k) db pre now ∧ Act.Trail (Item.insert k) now post (k.saveEach l db).2 ∧
        now.rows = db.rows ++ (rowsOf pre).map Submission.withoutRawBlock ∧
        now.blocks = db.blocks ++ blocksOf pre ∧
        (∀ r ∈ now.rows, r ∈ db.rows ∨ r.rawBlock = none) ∧
        ∀ p s q raw, pre = p ++ (.row s, .ok ()) :: q → s.rawBlock = some raw →
          ⟨s.blockHash, raw⟩ ∈ blocksOf p := by
  obtain ⟨calls, hbatches, hanswers, hexact, htrail⟩ := exists_saved hk l db
  refine ⟨calls, hbatches, hanswers, hexact, fun pre post hsplit => ?_⟩
  rw [hsplit] at htrail
  obtain ⟨now, hpre, hpost⟩ := htrail.exists_of_append
  obtain ⟨hrows, hblocks⟩ := tables_of_trail hpre
  have hfirst : BlocksFirst (pre ++ post) := hsplit ▸ blocksFirst_flatMap hexact
  refine ⟨now, hpre, hpost, hrows, hblocks, fun r hr => ?_, hfirst.of_append⟩
  rw [hrows, List.mem_append] at hr
  refine hr.imp_right fun hadded => ?_
  obtain ⟨s, -, rfl⟩ := List.mem_map.1 hadded
  rfl

section ShakyStore

def apartStore : Keyspace := { name := "ks", separateBlocks := true }

/-- The first insert of the first block fails, and every insert of the second row. -/
def shakyStore : Database where
  outcome n := if n ∈ [0, 4, 5, 6] then some { message := "connection lost" } else none

theorem blocks_come_first_shakyStore :
    apartStore.separateBlocks = true ∧
    (apartStore.saveEach [alicesBatch, alicesBatch] shakyStore).1 =
      [.ok { written := 2 }, .error (.database ⟨3, { message := "connection lost" }⟩)] ∧
    ∃ calls : List Saved, calls.map Saved.batch = [alicesBatch, alicesBatch] ∧ (∀ c ∈ calls, c.Exact) ∧
      ∃ now, Act.Trail (Item.insert apartStore) shakyStore (calls.flatMap Saved.log) now ∧
        (∀ r ∈ now.rows, r ∈ shakyStore.rows ∨ r.rawBlock = none) ∧
        BlocksFirst (calls.flatMap Saved.log) := by
  obtain ⟨calls, hbatches, -, hexact, hmoments⟩ :=
    blocks_come_first (k := apartStore) rfl [alicesBatch, alicesBatch] shakyStore
  obtain ⟨now, htrail, -, -, -, hrows, hfirst⟩ := hmoments _ [] (List.append_nil _).symm
  exact ⟨rfl, by decide +kernel, calls, hbatches, hexact, now, htrail, hrows, hfirst⟩

end ShakyStore

end Rollcall.Keyspace
