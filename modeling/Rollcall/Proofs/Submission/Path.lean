import Rollcall.Submission.Path
import Rollcall.Proofs.Text.Split
import Rollcall.Proofs.Time.Stamp

/-! The paths of submissions. A path that was written reads back as the day, the second and the submitter it
was written for, exactly if the submitter could be told apart from what stands around it: a slash would
end the name of the file early, and the last dash in it parts time and submitter. The second is the one that
clocks show, so a leap second comes back behind the last second of a minute only. -/

namespace Rollcall

namespace SubmissionPath

theorem not_mem_slash {l : List Char} (h : ∀ c ∈ l, Time.isStampChar c) : '/' ∉ l :=
  fun hm => absurd (h _ hm) (by decide)

theorem toList_write (t : Instant) (s : String) : (write t s).toList =
    "submissions".toList ++ '/' :: (t.date.write ++ '/' ::
      (Time.writeStamp t ++ '-' :: s.toList ++ ".json".toList)) := by
  simp [write, submissionsPrefix]

theorem head?_write (t : Instant) (s : String) : (write t s).toList.head? ≠ some '/' := by
  rw [toList_write]
  exact fun h => absurd (Option.some.inj h) (by decide)

/-- The parts of a written path, as long as the submitter does not add any. -/
theorem splitOn_write (t : Instant) {s : String} (hs : '/' ∉ s.toList) :
    Text.splitOn '/' (write t s).toList = ["submissions".toList, t.date.write,
      Time.writeStamp t ++ '-' :: s.toList ++ ".json".toList] := by
  have hdate : '/' ∉ t.date.write := not_mem_slash fun _ => Date.isStampChar_of_mem_write
  have hstamp : '/' ∉ Time.writeStamp t := not_mem_slash fun _ => Time.isStampChar_of_mem_writeStamp
  have hname : '/' ∉ Time.writeStamp t ++ '-' :: s.toList ++ ".json".toList := by
    simp [hstamp, hs]
  rw [toList_write, Text.splitOn_append_cons, Text.splitOn_append_cons, Text.splitOn_of_not_mem hname,
    Text.splitOn_of_not_mem hdate]
  rfl

theorem read_write (t : Instant) {s : String} (hdash : '-' ∉ s.toList) (hslash : '/' ∉ s.toList) :
    read (write t s) = .ok ⟨String.ofList t.date.write, t.shown.wholeSecond, s⟩ := by
  simp only [read, splitOn_write t hslash, Text.dropSuffix?_append, Option.getD_some,
    Text.splitLast?_append_cons _ hdash, Time.readStamp_writeStamp, String.ofList_toList]

/-- A submitter that is read is a part of a path behind a dash, so it holds neither mark. -/
theorem not_mem_submitter {path : String} {p : SubmissionPath} (h : read path = .ok p) :
    '-' ∉ p.submitter.toList ∧ '/' ∉ p.submitter.toList := by
  rw [read] at h
  split at h
  · rename_i date file rest hparts
    have hfile : '/' ∉ file := Text.not_mem_of_mem_splitOn (s := path.toList) (by simp [hparts])
    have hname : (Text.dropSuffix? ".json".toList file).getD file ⊆ file := by
      cases hd : Text.dropSuffix? ".json".toList file with
      | none => exact List.Subset.refl file
      | some n => exact Text.dropSuffix?_subset hd
    simp only at h
    split at h
    · contradiction
    · rename_i time submitter hsplit
      obtain ⟨heq, hdash⟩ := Text.of_splitLast?_eq_some hsplit
      split at h
      · contradiction
      · cases h
        rw [String.toList_ofList]
        refine ⟨hdash, fun hm => hfile (hname ?_)⟩
        rw [heq]
        simp [hm]
  · contradiction

/-- A path tells the day, the second and the submitter apart exactly if clocks show the instant itself and the
submitter has no mark of its own, for every instant from the first year to the last. Of an instant that is not
shown it tells the second that comes next, under the same condition on the submitter. -/
theorem read_write_iff (t : Instant) (s : String) :
    (read (write t s) = .ok ⟨String.ofList t.date.write, t.wholeSecond, s⟩ ↔
      t.IsShown ∧ '-' ∉ s.toList ∧ '/' ∉ s.toList) ∧
    (read (write t s) = .ok ⟨String.ofList t.date.write, t.shown.wholeSecond, s⟩ ↔
      '-' ∉ s.toList ∧ '/' ∉ s.toList) := by
  refine ⟨⟨fun h => ?_, fun ⟨hshown, hdash, hslash⟩ => ?_⟩, not_mem_submitter, fun h => read_write t h.1 h.2⟩
  · obtain ⟨hdash, hslash⟩ := not_mem_submitter h
    have heq := Except.ok.inj (h.symm.trans (read_write t hdash hslash))
    exact ⟨Instant.isShown_of_wholeSecond_eq (congrArg submittedAt heq).symm, hdash, hslash⟩
  · rw [read_write t hdash hslash, hshown.shown_eq]

/-- The leap second behind 23:56:04 is written, and read, as 23:56:05. -/
theorem untold_read_as_next : '-' ∉ "alice".toList ∧ '/' ∉ "alice".toList ∧
    write Instant.untold "alice" = "submissions/2024-01-01/2024-01-01T23:56:05Z-alice.json" ∧
    read (write Instant.untold "alice") = .ok ⟨"2024-01-01", ⟨1704153365, 0, by decide, by decide⟩, "alice"⟩ ∧
    read (write Instant.untold "alice") ≠
      .ok ⟨String.ofList Instant.untold.date.write, Instant.untold.wholeSecond, "alice"⟩ := by
  have hdash : '-' ∉ "alice".toList := by decide
  have hslash : '/' ∉ "alice".toList := by decide
  have hnext : Instant.untold.shown.wholeSecond = ⟨1704153365, 0, by decide, by decide⟩ := by decide
  have hread := read_write Instant.untold hdash hslash
  refine ⟨hdash, hslash, by decide +kernel, ?_, fun h => ?_⟩
  · rw [hread, hnext]
    decide +kernel
  · have heq := congrArg submittedAt (Except.ok.inj (hread.symm.trans h))
    exact absurd heq (by decide)

end SubmissionPath

end Rollcall
