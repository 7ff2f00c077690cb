import Rollcall.Config.Analyzer
import Rollcall.Proofs.Analysis.Source

/-! What an analysis finds of what was saved in a bucket. Those who save put the network's name in front of a path
and make a key of both; those who analyse take the name off the key as it was given to them. The path comes back
exactly if the name reads in keys as it was given, and then every submission that was saved is found. -/

namespace Rollcall.Bucket

/-- The bucket as those who analyse it see it, under the same name. -/
def reader (b : Bucket) : Source where
  store := b.store
  keyPrefix := b.keyPrefix

/-- After every save that succeeds, the artifact that was the last one saved under the path is among the
submissions of every period that has its instant, if it reads as one. -/
def Finds (b : Bucket) (path : String) : Prop :=
  ∀ (batch : Batch) (r : SaveReport), (b.save batch).1 = .ok r →
    ∀ d, LastFiled (fun q p => Key.segments q = Key.segments p) batch.entries path d →
    ∀ y, Submission.read d path = .ok y →
    ∀ p : Period, p.contains y.submittedAt → ∃ l, (b.save batch).2.reader.submissions p = .ok l ∧ y ∈ l

theorem works_reader (b : Bucket) : b.reader.Works := ⟨fun _ => rfl, fun _ => rfl⟩

/-- A save that succeeds leaves the last artifact of each place under the key of its path. -/
theorem get?_key_of_save {b : Bucket} {batch : Batch} {r : SaveReport} (h : (b.save batch).1 = .ok r)
    {path : String} {d : ByteArray}
    (hd : LastFiled (fun q p => Key.segments q = Key.segments p) batch.entries path d) :
    (b.save batch).2.store.objects.get? (b.key path) = some d := by
  have hall : putAll b.key batch.entries b.store = fileEach (putOne b.keyPrefix) batch.entries b.store :=
    putAll_eq b.keyPrefix batch.entries b.store
  have hstore : (b.save batch).2.store = (fileEach (putOne b.keyPrefix) batch.entries b.store).2 := by
    rw [← hall]
    rfl
  rw [hstore]
  refine ((shelf_places b.keyPrefix).holds_fileEach batch.entries b.store path d).2 (.inl ?_)
  rcases hs : fileEach (putOne b.keyPrefix) batch.entries b.store with ⟨e | _, s⟩
  · simp [save, hall, hs, Except.map] at h
  · rwa [filed_of_ok hs]

variable {t : Instant} {k : String}

theorem key_write (b : Bucket) (hk : ∀ c ∈ k.toList, c.isAlphanum) :
    b.key (SubmissionPath.write t k) = keyBehind b.keyPrefix (SubmissionPath.write t k) := by
  have hslash : '/' ∉ k.toList := fun hm => absurd (hk _ hm) (by decide)
  have hparts : Key.parts (SubmissionPath.write t k) ≠ [] := by
    rw [SubmissionPath.parts_write _ hslash]
    simp
  have hkeyed : SubmissionPath.keyed k = k := by
    rw [SubmissionPath.keyed, Key.encodeText_of_plain fun c hc => Key.isPlainChar_of_isAlphanum (hk c hc),
      String.ofList_toList]
  rw [key, under_eq_keyBehind _ hparts, SubmissionPath.ofPath_write _ hslash, hkeyed]

theorem finds_write {b : Bucket} (hpre : Key.IsKept b.keyPrefix) (hk : ∀ c ∈ k.toList, c.isAlphanum) :
    b.Finds (SubmissionPath.write t k) := by
  intro batch r hr d hd y hy p hp
  have hdash : '-' ∉ k.toList := fun hm => absurd (hk _ hm) (by decide)
  have hslash : '/' ∉ k.toList := fun hm => absurd (hk _ hm) (by decide)
  let o : StoredBody := ⟨t, k, b.key (SubmissionPath.write t k), d⟩
  have ho : o.IsBehind (b.save batch).2.reader.keyPrefix := ⟨hdash, hslash, .inl rfl⟩
  have hmem : o.entry ∈ (b.save batch).2.reader.store.objects.entries :=
    (Ledger.get?_eq_some_iff _).1 (get?_key_of_save hr hd)
  have hread : o.submission? p = some y := by
    have hin : p.contains o.time.shown.wholeSecond := by
      rwa [Submission.submittedAt_of_read_write ⟨hdash, hslash⟩ hy] at hp
    rw [StoredBody.submission?, if_pos hin]
    exact congrArg Except.toOption hy
  exact Source.mem_submissions (works_reader (b.save batch).2) hpre ho hmem hread

/-- For every name the path of a submission comes back from its key exactly if keys keep the name; and then what
was saved under the path is found. -/
theorem artifactPath_key_iff (b : Bucket) (t : Instant) {k : String} (hk : ∀ c ∈ k.toList, c.isAlphanum) :
    (b.reader.artifactPath (b.key (SubmissionPath.write t k)) = SubmissionPath.write t k ↔
      Key.IsKept b.keyPrefix) ∧
    (Key.IsKept b.keyPrefix → b.Finds (SubmissionPath.write t k)) := by
  refine ⟨?_, fun hpre => finds_write hpre hk⟩
  rw [key_write b hk]
  exact Source.artifactPath_keyBehind_eq_iff (SubmissionPath.head?_write t k)

section Samples

def named (name : String) : Bucket where
  keyPrefix := name
  maxBlockSize := 10
  store := {}

/-- Where the submission is saved that alice makes at midnight. -/
def midnightPath : String := SubmissionPath.write .epoch "alice"

def midnightBody : ByteArray := "\x7b\"submitter\":\"alice\"\x7d".toUTF8

def midnightBatch : Batch := .ofList [(midnightPath, midnightBody)]

/-- All puts work, under whatever name. -/
theorem save_midnightBatch (name : String) : ((named name).save midnightBatch).1 = .ok { written := 1 } := rfl

theorem lastFiled_midnightBody :
    LastFiled (fun q p => Key.segments q = Key.segments p) midnightBatch.entries midnightPath midnightBody :=
  ⟨[], midnightPath, [], rfl, rfl, by simp⟩

theorem exists_read_midnightBody :
    ∃ y, Submission.read midnightBody midnightPath = .ok y ∧ y.submitter = "alice" ∧
      Source.firstDay.contains y.submittedAt := by
  have hread : ((Submission.read midnightBody midnightPath).toOption.all fun y =>
      y.submitter = "alice" ∧ Source.firstDay.contains y.submittedAt) ∧
      (Submission.read midnightBody midnightPath).toOption.isSome := by
    decide +kernel
  cases hy : Submission.read midnightBody midnightPath with
  | error e => simp [hy, Except.toOption] at hread
  | ok y => exact ⟨y, rfl, by simpa [hy, Except.toOption] using hread⟩

/-- A slash at the end of the name does no harm. -/
theorem artifactPath_key_iff_trailingSlash :
    (∀ c ∈ "alice".toList, c.isAlphanum) ∧
    (named "mainnet/").reader.artifactPath ((named "mainnet/").key midnightPath) = midnightPath ∧
    ∃ l, ((named "mainnet/").save midnightBatch).2.reader.submissions Source.firstDay = .ok l ∧
      ∃ y ∈ l, y.submitter = "alice" := by
  have hk : ∀ c ∈ "alice".toList, c.isAlphanum := List.all_eq_true.1 (by decide)
  have hpre : Key.IsKept (named "mainnet/").keyPrefix := by decide +kernel
  have hboth := artifactPath_key_iff (named "mainnet/") .epoch hk
  obtain ⟨y, hy, halice, hin⟩ := exists_read_midnightBody
  obtain ⟨l, hl, hyl⟩ := hboth.2 hpre _ _ (save_midnightBatch "mainnet/") _ lastFiled_midnightBody y hy _ hin
  exact ⟨hk, hboth.1.2 hpre, l, hl, y, hyl, halice⟩

/-- A name with a mark that is reserved in keys passes the checks of an analysis; but its mark is written in keys
with a percent sign, so the name does not come off, and what was saved is not found. -/
theorem tilde_not_found :
    let c : AnalyzerConfig :=
      { networkName := "t~n", source := .bucket ⟨"eu", "1", "blocks", none, none, none⟩,
        output := { stdout := true } }
    let b := named c.networkName
    c.check = .ok () ∧ b.key midnightPath = "t%7En/" ++ midnightPath ∧
      b.reader.artifactPath (b.key midnightPath) ≠ midnightPath ∧ ¬b.Finds midnightPath := by
  intro c b
  refine ⟨by decide +kernel, by decide +kernel, by decide +kernel, fun hfinds => ?_⟩
  obtain ⟨y, hy, -, hin⟩ := exists_read_midnightBody
  obtain ⟨l, hl, hyl⟩ := hfinds _ _ (save_midnightBatch "t~n") _ lastFiled_midnightBody y hy _ hin
  have hnone : ((b.save midnightBatch).2.reader.submissions Source.firstDay).toOption = some [] := by
    decide +kernel
  rw [hl] at hnone
  cases hnone
  exact List.not_mem_nil hyl

end Samples

end Rollcall.Bucket
