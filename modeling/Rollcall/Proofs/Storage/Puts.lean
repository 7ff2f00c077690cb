import Rollcall.Proofs.Storage.Bucket

/-! Which puts a save in a bucket comes to. The artifacts are put in the order of their paths, each until it is
stored, and the save ends with the first that is not stored within the budget. So whatever the store answers, it
holds the effect of some artifacts from the front, all of them if the save succeeds, and nothing behind the one
that failed was ever tried. -/

namespace Rollcall

section Script

variable (key : String) (data : ByteArray) (s : ObjectStore)

theorem ObjectStore.isOk_put : (ObjectStore.put key data s).1.isOk = s.outcome s.puts.length := by
  unfold ObjectStore.put
  cases h : s.outcome s.puts.length <;> simp [Except.isOk, Except.toBool]

theorem ObjectStore.outcome_put : (ObjectStore.put key data s).2.outcome = s.outcome := by
  unfold ObjectStore.put
  cases h : s.outcome s.puts.length <;> simp

theorem ObjectStore.length_puts_put : (ObjectStore.put key data s).2.puts.length = s.puts.length + 1 := by
  unfold ObjectStore.put
  cases h : s.outcome s.puts.length <;> simp

end Script

namespace Bucket

/-- A put of an artifact, and its outcome. -/
abbrev Tried := Artifact × Except Unit Unit

/-- Puts one artifact, once. -/
def putArtifact (pre : String) (e : Artifact) : Act ObjectStore Unit Unit :=
  ObjectStore.put (Key.under pre e.1) e.2

/-- The objects with an artifact among them. -/
def shelve (pre : String) (o : Ledger String ByteArray) (e : Artifact) : Ledger String ByteArray :=
  o.insert (Key.under pre e.1) e.2

/-- An artifact is put so many times in vain, and once more. -/
def tries (e : Artifact) (vain : Nat) (r : Except Unit Unit) : List Tried :=
  List.replicate vain (e, .error ()) ++ [(e, r)]

/-- Artifacts are stored, each behind so many puts in vain. -/
def storing (done : List (Artifact × Nat)) : List Tried := done.flatMap fun d => tries d.1 d.2 (.ok ())

variable {pre : String} {s t : ObjectStore} {l : List Tried}

/-- The outcomes of puts are the next ones of the store, in turn. -/
theorem script_of_trail (h : Act.Trail (putArtifact pre) s l t) :
    t.outcome = s.outcome ∧ t.puts.length = s.puts.length + l.length ∧
      l.map (·.2.isOk) = (List.range l.length).map fun n => s.outcome (s.puts.length + n) := by
  induction h with
  | none s => exact ⟨rfl, rfl, rfl⟩
  | pause d _ ih => exact ih
  | @step s u t e r l hput _ ih =>
    have hr : r.isOk = s.outcome s.puts.length := by
      rw [← ObjectStore.isOk_put (Key.under pre e.1) e.2 s]
      exact congrArg (·.1.isOk) hput.symm
    have hscript : u.outcome = s.outcome := by
      rw [← ObjectStore.outcome_put (Key.under pre e.1) e.2 s]
      exact congrArg (·.2.outcome) hput.symm
    have hcount : u.puts.length = s.puts.length + 1 := by
      rw [← ObjectStore.length_puts_put (Key.under pre e.1) e.2 s]
      exact congrArg (·.2.puts.length) hput.symm
    obtain ⟨hlast, htotal, hlater⟩ := ih
    refine ⟨hlast.trans hscript, by rw [htotal, hcount, List.length_cons]; omega, ?_⟩
    rw [List.map_cons, hlater, List.length_cons, List.range_succ_eq_map, List.map_cons, List.map_map, hr, hscript,
      hcount]
    simp [Function.comp_def, Nat.add_assoc, Nat.add_comm 1]

/-- One artifact is put until it is stored, three times at most. -/
theorem exists_putOne (pre : String) (e : Artifact) (s : ObjectStore) : ∃ vain r t,
    Act.Trail (putArtifact pre) s (tries e vain r) t ∧
      putOne pre e s = (r.mapError fun _ => .objectStore 3, t) ∧ vain < 3 ∧ (r = .error () → vain = 2) := by
  obtain ⟨es, r, t, htrail, hretry, hle, hspent⟩ :=
    Budget.exists_trail_of_retry .storage (putArtifact pre) e s
  have htries : es.map (fun x => (e, .error x)) ++ [(e, r)] = tries e es.length r := by
    rw [tries, ← List.map_const]
    rfl
  refine ⟨es.length, r, t, htries ▸ htrail, ?_, Nat.lt_succ_of_le hle, hspent ()⟩
  cases r with
  | ok a => exact Act.mapError_of_ok hretry _
  | error x => exact Act.mapError_of_error hretry _

/-- How the puts of a list of artifacts can go: all are stored, or one is put three times in vain behind those
that are. -/
inductive Course (l : List Artifact) (done : List (Artifact × Nat)) :
    List Tried → Except StorageError Unit → Prop
  | all : l = done.map Prod.fst → Course l done (storing done) (.ok ())
  | cut {e : Artifact} {later : List Artifact} : l = done.map Prod.fst ++ e :: later →
    Course l done (storing done ++ tries e 2 (.error ())) (.error (.objectStore 3))

/-- One more artifact is stored in front of the others. -/
theorem Course.cons {l : List Artifact} {done : List (Artifact × Nat)} {log : List Tried}
    {r : Except StorageError Unit} (h : Course l done log r) (d : Artifact × Nat) :
    Course (d.1 :: l) (d :: done) (tries d.1 d.2 (.ok ()) ++ log) r := by
  cases h with
  | all hl => exact .all (congrArg (d.1 :: ·) hl)
  | cut hl =>
    rw [← List.append_assoc]
    exact .cut (congrArg (d.1 :: ·) hl)

theorem exists_course (pre : String) (l : List Artifact) (s : ObjectStore) : ∃ done log t r,
    fileEach (putOne pre) l s = (r, t) ∧ Course l done log r ∧ (∀ d ∈ done, d.2 < 3) ∧
      Act.Trail (putArtifact pre) s log t ∧ t.objects = (done.map Prod.fst).foldl (shelve pre) s.objects := by
  induction l generalizing s with
  | nil => exact ⟨[], [], s, .ok (), rfl, .all rfl, by simp, .none s, rfl⟩
  | cons e l ih =>
    obtain ⟨vain, r, u, htrail, hput, hvain, hspent⟩ := exists_putOne pre e s
    rw [fileEach, hput]
    cases r with
    | error x =>
      obtain rfl : vain = 2 := hspent rfl
      have hsame : u.objects = s.objects := (ensures_putOne pre e s.objects).of_error rfl hput
      exact ⟨[], _, u, _, rfl, .cut rfl, by simp, htrail, hsame⟩
    | ok a =>
      have hfiled : u.objects = shelve pre s.objects e := (ensures_putOne pre e s.objects).of_ok rfl hput
      obtain ⟨done, log, t, r, hrest, hcourse, hdone, hlater, hobjects⟩ := ih u
      refine ⟨(e, vain) :: done, _, t, r, hrest, hcourse.cons (e, vain), ?_, htrail.append hlater, ?_⟩
      · exact List.forall_mem_cons.2 ⟨hvain, hdone⟩
      · rw [hobjects, hfiled]
        rfl

/-- While no put fails, all artifacts are stored. -/
theorem exists_fileEach_of_outcome (h : ∀ n, s.puts.length ≤ n → s.outcome n = true) (pre : String)
    (l : List Artifact) : ∃ t, fileEach (putOne pre) l s = (.ok (), t) ∧ t.outcome = s.outcome ∧
      s.puts.length ≤ t.puts.length := by
  obtain ⟨done, log, t, r, heach, hcourse, -, htrail, -⟩ := exists_course pre l s
  obtain ⟨hscript, hcount, houtcomes⟩ := script_of_trail htrail
  cases hcourse with
  | all => exact ⟨t, heach, hscript, hcount ▸ Nat.le_add_right _ _⟩
  | @cut e later =>
    have hfailed : (e, .error ()) ∈ storing done ++ tries e 2 (.error ()) := by simp [tries]
    have hisOk := houtcomes ▸ List.mem_map_of_mem hfailed
    obtain ⟨n, -, hn⟩ := List.mem_map.1 hisOk
    exact absurd ((h _ (Nat.le_add_right _ n)).symm.trans hn) (by simp [Except.isOk, Except.toBool])

theorem length_filter_isOversized (b : Bucket) (batch : Batch) :
    (batch.entries.filter b.isOversized).length =
      ((batch.underPrefix blocksPrefix).filter fun e => b.maxBlockSize < e.2.size).length := by
  rw [Batch.underPrefix, List.filter_filter]
  congr 2
  funext e
  rw [isOversized, Bool.and_comm]

/-- A save puts artifacts from the front of the batch, in the order of their paths, each behind two puts in vain
at most; the store answers the puts in turn and ends with the effect of those artifacts. If the save succeeds they
are the whole batch, and the report counts it and its oversized blocks. If it fails, the next artifact was put
three times in vain, and none behind it was tried. -/
theorem save_stores_prefix (b : Bucket) (batch : Batch) : ∃ (done : List (Artifact × Nat)) (log : List Tried),
    (∀ d ∈ done, d.2 < 3) ∧
      Act.Trail (putArtifact b.keyPrefix) b.store log (b.save batch).2.store ∧
      log.map (·.2.isOk) = (List.range log.length).map (fun n => b.store.outcome (b.store.puts.length + n)) ∧
      (b.save batch).2.store.objects = (done.map Prod.fst).foldl (shelve b.keyPrefix) b.store.objects ∧
      (∀ report, (b.save batch).1 = .ok report →
        batch.entries = done.map Prod.fst ∧ log = storing done ∧ report =
          { written := batch.entries.length
            oversizedBlocks :=
              ((batch.underPrefix blocksPrefix).filter fun e => b.maxBlockSize < e.2.size).length }) ∧
      ∀ x, (b.save batch).1 = .error x → x = .objectStore 3 ∧ ∃ e later,
        batch.entries = done.map Prod.fst ++ e :: later ∧ log = storing done ++ tries e 2 (.error ()) := by
  obtain ⟨done, log, t, r, heach, hcourse, hdone, htrail, hobjects⟩ :=
    exists_course b.keyPrefix batch.entries b.store
  rw [save_of_fileEach heach]
  refine ⟨done, log, hdone, htrail, (script_of_trail htrail).2.2, hobjects, fun report hr => ?_, fun x hx => ?_⟩
  · cases hcourse with
    | all hl =>
      obtain rfl := Except.ok.inj hr
      exact ⟨hl, rfl, by rw [length_filter_isOversized]⟩
    | cut hl => cases hr
  · cases hcourse with
    | all hl => cases hx
    | cut hl =>
      obtain rfl := Except.error.inj hx
      exact ⟨rfl, _, _, hl, rfl⟩

end Bucket

end Rollcall
