import Rollcall.Proofs.Storage.Bucket
import Rollcall.Proofs.Submission.Path

/-! The keys of submissions. Day and time are written in plain characters, so only the submitter may read
differently in a key; and a key stands below that of a day exactly if it is for an instant of that day. -/

namespace Rollcall.SubmissionPath

open Bucket

/-- A submitter as a key has it. -/
def keyed (submitter : String) : String := String.ofList (Key.encodeText submitter.toList)

/-- The path below which the submissions of a day are filed. -/
def ofDate (d : Date) : String := submissionsPrefix ++ String.ofList d.write

theorem not_mem_keyed {k : String} (hdash : '-' ∉ k.toList) (hslash : '/' ∉ k.toList) :
    '-' ∉ (keyed k).toList ∧ '/' ∉ (keyed k).toList := by
  rw [keyed, String.toList_ofList]
  exact ⟨Key.not_mem_encodeText (by decide) (by decide) hdash,
    Key.not_mem_encodeText (by decide) (by decide) hslash⟩

theorem isPlainChar_of_isStampChar {c : Char} (h : Time.isStampChar c) : Key.isPlainChar c := by
  rw [Time.isStampChar, Bool.or_eq_true] at h
  rcases h with h | h
  · exact Key.isPlainChar_of_isAlphanum (by simp [Char.isAlphanum, h])
  · have hmarks : ['-', '+', ':', 'T', 'Z'].all Key.isPlainChar := by decide
    exact List.all_eq_true.1 hmarks c (by simpa using h)

theorem dash_mem_write (d : Date) : '-' ∈ d.write := by
  simp [Date.write]

theorem encodePart_date (d : Date) : Key.encodePart d.write = d.write := by
  have hplain : ∀ c ∈ d.write, Key.isPlainChar c := fun c hc =>
    isPlainChar_of_isStampChar (Date.isStampChar_of_mem_write hc)
  have hdash := dash_mem_write d
  exact Key.encodePart_eq_self_iff.2
    ⟨fun h => absurd (h ▸ hdash) (by decide), fun h => absurd (h ▸ hdash) (by decide), hplain⟩

theorem encodePart_name (t : Instant) (k : List Char) :
    Key.encodePart (Time.writeStamp t ++ '-' :: k ++ ".json".toList) =
      Time.writeStamp t ++ '-' :: Key.encodeText k ++ ".json".toList := by
  have hdash : '-' ∈ Time.writeStamp t ++ '-' :: k ++ ".json".toList := by simp
  have hstamp : Key.encodeText (Time.writeStamp t) = Time.writeStamp t :=
    Key.encodeText_of_plain fun c hc => isPlainChar_of_isStampChar (Time.isStampChar_of_mem_writeStamp hc)
  have hjson : Key.encodeText ".json".toList = ".json".toList := Key.encodeText_of_plain (List.all_eq_true.1 (by decide))
  have hcons : Key.encodeText ('-' :: k) = '-' :: Key.encodeText k := by
    rw [← List.singleton_append, Key.encodeText_append, Key.encodeText_of_plain (List.all_eq_true.1 (by decide))]
    rfl
  rw [Key.encodePart_eq (fun h => absurd (h ▸ hdash) (by decide)) (fun h => absurd (h ▸ hdash) (by decide)),
    Key.encodeText_append, Key.encodeText_append, hstamp, hcons, hjson]

theorem encodePart_submissions : Key.encodePart "submissions".toList = "submissions".toList :=
  Key.encodePart_eq_self_iff.2 ⟨by decide, by decide, List.all_eq_true.1 (by decide)⟩

theorem parts_write (t : Instant) {k : String} (hslash : '/' ∉ k.toList) :
    Key.parts (write t k) = ["submissions".toList, t.date.write,
      Time.writeStamp t ++ '-' :: Key.encodeText k.toList ++ ".json".toList] := by
  have hdate : t.date.write ≠ [] := List.ne_nil_of_mem (dash_mem_write t.date)
  have hsplit := splitOn_write t hslash
  have hne : [] ∉ Text.splitOn '/' (write t k).toList := by
    simp [hsplit, hdate.symm]
  rw [Key.parts_eq hne, hsplit]
  simp only [List.map_cons, List.map_nil, encodePart_submissions, encodePart_date, encodePart_name]

/-- The key of a path is the path for the submitter as the key has it. -/
theorem ofPath_write (t : Instant) {k : String} (hslash : '/' ∉ k.toList) :
    Key.ofPath (write t k) = write t (keyed k) := by
  apply String.toList_injective
  rw [Key.ofPath, parts_write t hslash, String.toList_ofList, toList_write, keyed, String.toList_ofList]
  simp [Text.joinWith]

theorem splitOn_ofDate (d : Date) :
    Text.splitOn '/' (ofDate d).toList = ["submissions".toList, d.write] := by
  have hdate : '/' ∉ d.write := not_mem_slash fun _ => Date.isStampChar_of_mem_write
  have htext : (ofDate d).toList = "submissions".toList ++ '/' :: d.write := by
    simp [ofDate, submissionsPrefix]
  rw [htext, Text.splitOn_append_cons, Text.splitOn_of_not_mem hdate]
  rfl

theorem ofPath_ofDate (d : Date) : Key.ofPath (ofDate d) = ofDate d := by
  have hdate : d.write ≠ [] := List.ne_nil_of_mem (dash_mem_write d)
  apply Key.ofPath_of_plain <;> rw [splitOn_ofDate]
  · simp [hdate.symm]
  · simp only [List.mem_cons, List.not_mem_nil, or_false, forall_eq_or_imp, forall_eq]
    exact ⟨encodePart_submissions, encodePart_date d⟩

/-- Below the path of a day stand the paths for the instants of that day. -/
theorem isBelow_ofDate_iff (u t : Instant) (k : String) :
    Key.isBelow (ofDate u.date) (write t k) ↔ t.day = u.day := by
  have hne : ofDate u.date ≠ "" := by simp [ofDate, submissionsPrefix]
  have hdate (t : Instant) : '/' ∉ t.date.write := not_mem_slash fun _ => Date.isStampChar_of_mem_write
  have hday : (ofDate u.date ++ "/").toList = "submissions/".toList ++ (u.date.write ++ ['/']) := by
    simp [ofDate, submissionsPrefix]
  have hpath : (write t k).toList = "submissions/".toList ++ (t.date.write ++ '/' ::
      (Time.writeStamp t ++ '-' :: k.toList ++ ".json".toList)) := by
    simp [toList_write]
  rw [Key.isBelow, if_neg hne, Text.startsWith, List.isPrefixOf_iff_prefix, hday, hpath,
    List.prefix_append_right_inj]
  constructor
  · rintro ⟨r, hr⟩
    rw [List.append_assoc] at hr
    exact (Instant.day_eq_of_write (Text.eq_of_append_cons_eq (hdate u) (hdate t) hr)).symm
  · intro h
    rw [Instant.date, Instant.date, h]
    exact ⟨_, by rw [List.append_assoc]; rfl⟩

end Rollcall.SubmissionPath
