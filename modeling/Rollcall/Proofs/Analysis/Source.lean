import Mathlib.Data.List.Perm.Basic
import Rollcall.Analysis.Source
import Rollcall.Proofs.Analysis.Period
import Rollcall.Proofs.Analysis.Prefix
import Rollcall.Proofs.List
import Rollcall.Proofs.Submission.Key

/-! What a source reads back. Whatever bodies stand under the paths of submissions, those that read as
submissions are found for every period that has their instant, each once and in order; nothing else is. The
prefix is one that neither keys nor paths change. -/

namespace Rollcall

/-- A body that a store holds under the path of an instant and a submitter. -/
structure StoredBody where
  time : Instant
  submitter : String
  key : String
  body : ByteArray

namespace StoredBody

def path (o : StoredBody) : String := SubmissionPath.write o.time o.submitter

def entry (o : StoredBody) : String × ByteArray := (o.key, o.body)

/-- The key is that of the path behind the prefix, or the path itself behind it. -/
structure IsBehind (pre : String) (o : StoredBody) : Prop where
  dash : '-' ∉ o.submitter.toList
  slash : '/' ∉ o.submitter.toList
  key_eq : o.key = Key.under pre o.path ∨ o.key = Bucket.keyBehind pre o.path

/-- The submission, if the body reads as one and the second that the path shows lies in the period. -/
def submission? (p : Period) (o : StoredBody) : Option Submission :=
  if p.contains o.time.shown.wholeSecond then (Submission.read o.body o.path).toOption else none

/-- However the key is written, it is the path for some submitter, behind the prefix. -/
theorem IsBehind.exists_key_eq {pre : String} {o : StoredBody} (h : o.IsBehind pre) :
    ∃ k : String, ('-' ∉ k.toList ∧ '/' ∉ k.toList) ∧
      o.key = Bucket.keyBehind pre (SubmissionPath.write o.time k) := by
  rcases h.key_eq with hkey | hkey
  · have hparts : Key.parts o.path ≠ [] := by
      rw [path, SubmissionPath.parts_write _ h.slash]
      simp
    refine ⟨_, SubmissionPath.not_mem_keyed h.dash h.slash, ?_⟩
    rw [hkey, Bucket.under_eq_keyBehind pre hparts, path, SubmissionPath.ofPath_write _ h.slash]
  · exact ⟨_, ⟨h.dash, h.slash⟩, hkey⟩

end StoredBody

namespace Submission

/-- Day and time are all that a submission takes from its path. -/
theorem read_write_congr (data : ByteArray) (t : Instant) {j k : String}
    (hj : '-' ∉ j.toList ∧ '/' ∉ j.toList) (hk : '-' ∉ k.toList ∧ '/' ∉ k.toList) :
    read data (SubmissionPath.write t j) = read data (SubmissionPath.write t k) := by
  rw [read, read, SubmissionPath.read_write t hj.1 hj.2, SubmissionPath.read_write t hk.1 hk.2]
  rfl

theorem submittedAt_of_read_write {data : ByteArray} {t : Instant} {k : String} {y : Submission}
    (hk : '-' ∉ k.toList ∧ '/' ∉ k.toList) (h : read data (SubmissionPath.write t k) = .ok y) :
    y.submittedAt = t.shown.wholeSecond := by
  rw [read, SubmissionPath.read_write t hk.1 hk.2] at h
  cases hbody : ofBody data with
  | error f =>
    rw [hbody] at h
    cases h
  | ok x =>
    rw [hbody] at h
    cases h
    rfl

end Submission

namespace Source

variable {s : Source} {p : Period} {o : StoredBody}

/-- A prefix that is plain text of one part, or none. -/
def HasPlainPrefix (s : Source) : Prop := ∀ c ∈ s.keyPrefix.toList, c.isAlphanum

theorem HasPlainPrefix.isKept (h : s.HasPlainPrefix) : Key.IsKept s.keyPrefix := by
  by_cases hne : s.keyPrefix = ""
  · exact .inl (by simp [hne])
  · have hslash : '/' ∉ s.keyPrefix.toList := fun hm => absurd (h _ hm) (by decide)
    have hdot : '.' ∉ s.keyPrefix.toList := fun hm => absurd (h _ hm) (by decide)
    refine .inr ⟨s.keyPrefix, .inl rfl, fun q hq => ?_⟩
    rw [Text.splitOn_of_not_mem hslash, List.mem_singleton] at hq
    subst hq
    exact {
      ne_nil := fun he => hne (String.toList_eq_nil_iff.1 he)
      ne_dot := fun he => hdot (by simp [he])
      ne_dots := fun he => hdot (by simp [he])
      plain := fun c hc => Key.isPlainChar_of_isAlphanum (h c hc) }

/-- The path is what the key has behind the prefix. -/
theorem artifactPath_keyBehind (h : Key.IsKept s.keyPrefix) (t : Instant) (k : String) :
    s.artifactPath (Bucket.keyBehind s.keyPrefix (SubmissionPath.write t k)) =
      SubmissionPath.write t k :=
  (artifactPath_keyBehind_eq_iff (SubmissionPath.head?_write t k)).2 h

theorem dayKey_eq (s : Source) (d : Int) :
    s.dayKey d = Bucket.keyBehind s.keyPrefix (SubmissionPath.ofDate (Date.ofDay d)) := by
  have hparts : Key.parts (SubmissionPath.ofDate (Date.ofDay d)) ≠ [] := by
    intro hnil
    have hself := SubmissionPath.ofPath_ofDate (Date.ofDay d)
    rw [Key.ofPath, hnil] at hself
    exact absurd hself.symm (by simp [SubmissionPath.ofDate, submissionsPrefix, Text.joinWith])
  rw [dayKey, ← SubmissionPath.ofDate, Bucket.under_eq_keyBehind _ hparts, SubmissionPath.ofPath_ofDate]

section Stored

/-- The listing of a day has what was filed for an instant of that day. -/
theorem isBelow_dayKey (ho : o.IsBehind s.keyPrefix) {d : Int} (hd : d ∈ p.days) :
    Key.isBelow (s.dayKey d) o.key ↔ o.time.day = d := by
  obtain ⟨k, -, hkey⟩ := ho.exists_key_eq
  obtain ⟨u, rfl⟩ := Period.exists_day_eq hd
  rw [dayKey_eq, hkey, Bucket.isBelow_keyBehind _ (by simp [SubmissionPath.ofDate, submissionsPrefix])]
  exact SubmissionPath.isBelow_ofDate_iff u o.time k

theorem isWithin_eq (hpre : Key.IsKept s.keyPrefix) (ho : o.IsBehind s.keyPrefix) :
    s.isWithin p o.key = p.contains o.time.shown.wholeSecond := by
  obtain ⟨k, hk, hkey⟩ := ho.exists_key_eq
  rw [isWithin, hkey, artifactPath_keyBehind hpre, SubmissionPath.read_write _ hk.1 hk.2]

theorem read_artifactPath (hpre : Key.IsKept s.keyPrefix) (ho : o.IsBehind s.keyPrefix) :
    Submission.read o.body (s.artifactPath o.key) = Submission.read o.body o.path := by
  obtain ⟨k, hk, hkey⟩ := ho.exists_key_eq
  rw [hkey, artifactPath_keyBehind hpre]
  exact Submission.read_write_congr o.body o.time hk ⟨ho.dash, ho.slash⟩

end Stored

/-- Every listing and every object can be had. -/
structure Works (s : Source) : Prop where
  listable (key : String) : s.listable key
  readable (key : String) : s.readable key

/-- What the listing of a day makes of an object. -/
def pick (s : Source) (p : Period) (d : Int) (e : String × ByteArray) : Option Submission :=
  if Key.isBelow (s.dayKey d) e.1 && s.isWithin p e.1 then
    (Submission.read e.2 (s.artifactPath e.1)).toOption
  else none

theorem ofDay_eq (h : s.Works) (p : Period) (d : Int) :
    s.ofDay p d = .ok (s.store.objects.entries.filterMap (s.pick p d)) := by
  have hread (l : List (String × ByteArray)) : l.all fun e => s.readable e.1 :=
    List.all_eq_true.2 fun e _ => h.readable e.1
  have hpick : s.pick p d = fun e => if Key.isBelow (s.dayKey d) e.1 then
      if s.isWithin p e.1 then (Submission.read e.2 (s.artifactPath e.1)).toOption else none
    else none := by
    funext e
    rw [pick]
    cases Key.isBelow (s.dayKey d) e.1 <;> rfl
  simp only [ofDay, h.listable, hread, Bool.not_true, Bool.false_eq_true, if_false, if_true]
  rw [hpick, ← List.filterMap_filter, ← List.filterMap_filter]
  rfl

theorem submissions_eq (h : s.Works) (p : Period) :
    s.submissions p = .ok ((p.days.flatMap fun d =>
      s.store.objects.entries.filterMap (s.pick p d)).mergeSort comesFirst) := by
  have hdays : s.ofDay p = fun d => pure (s.store.objects.entries.filterMap (s.pick p d)) := by
    funext d
    exact ofDay_eq h p d
  rw [submissions, hdays, List.mapM_pure, List.flatMap_def]
  rfl

/-- The store has these objects under the paths of submissions, and no other ones. -/
structure Holds (s : Source) (stored : List StoredBody) : Prop where
  behind : ∀ o ∈ stored, o.IsBehind s.keyPrefix
  entries : ∃ others, s.store.objects.entries.Perm (stored.map StoredBody.entry ++ others) ∧
    ∀ e ∈ others, Key.isBelow (Key.under s.keyPrefix submissionsPrefix) e.1 = false

/-- What is filed elsewhere is in no listing of a day. -/
theorem pick_of_not_below {e : String × ByteArray}
    (h : Key.isBelow (Key.under s.keyPrefix submissionsPrefix) e.1 = false) (d : Int) :
    s.pick p d e = none := by
  obtain ⟨c, hc⟩ := Bucket.exists_keyBehind_eq s.keyPrefix
  have habove : Key.under s.keyPrefix submissionsPrefix = c ++ "submissions" := by
    have hself : Key.ofPath submissionsPrefix = "submissions" := by decide +kernel
    rw [Bucket.under_eq_keyBehind _ (by decide +kernel), hself, hc]
  have hday : s.dayKey d = c ++ "submissions" ++ "/" ++ String.ofList (Date.ofDay d).write := by
    have hslash : submissionsPrefix = "submissions" ++ "/" := by decide
    rw [dayKey_eq, hc, SubmissionPath.ofDate, hslash]
    simp only [String.append_assoc]
  have hnot : Key.isBelow (s.dayKey d) e.1 = false := by
    rw [habove] at h
    rw [hday, ← Bool.not_eq_true]
    exact fun hb => absurd (Key.isBelow_of_isBelow_append (by simp) hb) (by simp [h])
  rw [pick, hnot]
  rfl

theorem pick_entry (hpre : Key.IsKept s.keyPrefix) (ho : o.IsBehind s.keyPrefix) {d : Int} (hd : d ∈ p.days) :
    s.pick p d o.entry = if o.time.day = d then o.submission? p else none := by
  have hbelow : Key.isBelow (s.dayKey d) o.entry.1 = decide (o.time.day = d) := by
    rw [Bool.eq_iff_iff, decide_eq_true_eq]
    exact isBelow_dayKey ho hd
  have hwithin : s.isWithin p o.entry.1 = p.contains o.time.shown.wholeSecond := isWithin_eq hpre ho
  have hread : Submission.read o.entry.2 (s.artifactPath o.entry.1) = Submission.read o.body o.path :=
    read_artifactPath hpre ho
  rw [pick, hbelow, hwithin, hread, StoredBody.submission?]
  by_cases hday : o.time.day = d <;> simp [hday]

/-- A day finds what was filed for its instants. -/
theorem filterMap_pick_perm (hpre : s.HasPlainPrefix) {stored : List StoredBody} (h : s.Holds stored)
    {d : Int} (hd : d ∈ p.days) : (s.store.objects.entries.filterMap (s.pick p d)).Perm
      ((stored.filter fun o => o.time.day = d).filterMap (StoredBody.submission? p)) := by
  obtain ⟨others, hperm, hothers⟩ := h.entries
  refine (hperm.filterMap _).trans (.of_eq ?_)
  have hnone : others.filterMap (s.pick p d) = [] :=
    List.filterMap_eq_nil_iff.2 fun e he => pick_of_not_below (hothers e he) d
  rw [List.filterMap_append, hnone, List.append_nil, List.filterMap_map, List.filterMap_filter]
  refine List.filterMap_congr fun o ho => ?_
  simpa using pick_entry hpre.isKept (h.behind o ho) hd

theorem day_mem_days_of_submission? {y : Submission} (h : o.submission? p = some y) :
    o.time.day ∈ p.days := by
  rw [StoredBody.submission?] at h
  split at h
  · rename_i hin
    have hday : o.time.shown.wholeSecond.day = o.time.day := o.time.day_shown
    rw [← hday]
    exact Period.day_mem_days hin
  · contradiction

/-- What stands in the store under the path of a submission is found, if it reads as one. -/
theorem mem_submissions (hworks : s.Works) (hpre : Key.IsKept s.keyPrefix) (ho : o.IsBehind s.keyPrefix)
    (hmem : o.entry ∈ s.store.objects.entries) {y : Submission} (hy : o.submission? p = some y) :
    ∃ l, s.submissions p = .ok l ∧ y ∈ l := by
  have hday := day_mem_days_of_submission? hy
  have hpick : s.pick p o.time.day o.entry = some y := by
    rw [pick_entry hpre ho hday, if_pos rfl, hy]
  refine ⟨_, submissions_eq hworks p, List.mem_mergeSort.2 (List.mem_flatMap.2 ⟨o.time.day, hday, ?_⟩)⟩
  exact List.mem_filterMap.2 ⟨o.entry, hmem, hpick⟩

theorem flatMap_pick_perm (hpre : s.HasPlainPrefix) {stored : List StoredBody} (h : s.Holds stored)
    (p : Period) : (p.days.flatMap fun d => s.store.objects.entries.filterMap (s.pick p d)).Perm
      (stored.filterMap (StoredBody.submission? p)) := by
  have hdays := List.Perm.flatMap_left p.days fun d hd => filterMap_pick_perm hpre h hd
  have hgroup := flatMap_filter_perm (fun o : StoredBody => o.time.day) p.nodup_days stored
  refine hdays.trans ?_
  rw [← List.filterMap_flatMap]
  refine (hgroup.filterMap _).trans (.of_eq ?_)
  rw [List.filterMap_filter]
  refine List.filterMap_congr fun o _ => ?_
  by_cases ho : o.time.day ∈ p.days
  · simp [ho]
  · have hnone : o.submission? p = none := by
      cases hy : o.submission? p with
      | none => rfl
      | some y => exact absurd (day_mem_days_of_submission? hy) ho
    simp [ho, hnone]

section Order

variable {a b c : Submission}

theorem comesFirst_iff : comesFirst a b ↔ a.submittedAt < b.submittedAt ∨
    a.submittedAt = b.submittedAt ∧ a.submitter ≤ b.submitter := by
  simp [comesFirst]

theorem comesFirst_trans (hab : comesFirst a b) (hbc : comesFirst b c) : comesFirst a c := by
  rw [comesFirst_iff] at *
  rcases hab with hab | ⟨hab, hsab⟩
  · rcases hbc with hbc | ⟨hbc, -⟩
    · exact .inl (Std.lt_trans hab hbc)
    · exact .inl (hbc ▸ hab)
  · rcases hbc with hbc | ⟨hbc, hsbc⟩
    · exact .inl (hab ▸ hbc)
    · exact .inr ⟨hab.trans hbc, Std.le_trans hsab hsbc⟩

theorem comesFirst_total (a b : Submission) : comesFirst a b || comesFirst b a := by
  rw [Bool.or_eq_true, comesFirst_iff, comesFirst_iff]
  rcases Std.lt_trichotomy a.submittedAt b.submittedAt with h | h | h
  · exact .inl (.inl h)
  · rcases Std.le_total (a := a.submitter) (b := b.submitter) with hs | hs
    · exact .inl (.inr ⟨h, hs⟩)
    · exact .inr (.inr ⟨h.symm, hs⟩)
  · exact .inr (.inl h)

theorem pairwise_mergeSort_comesFirst (l : List Submission) :
    (l.mergeSort comesFirst).Pairwise fun a b => comesFirst a b := by
  apply List.pairwise_mergeSort
  · intro a b c
    exact comesFirst_trans
  · exact comesFirst_total

end Order

/-- A source gives exactly the submissions of the period that the store holds: each one once, no other one,
by time and then by submitter. -/
theorem submissions_of_stored (hworks : s.Works) (hpre : s.HasPlainPrefix) {stored : List StoredBody}
    (hstored : s.Holds stored) (p : Period) : ∃ l, s.submissions p = .ok l ∧
      l.Perm (stored.filterMap (StoredBody.submission? p)) ∧
      l.Pairwise fun a b => a.submittedAt < b.submittedAt ∨
        a.submittedAt = b.submittedAt ∧ a.submitter ≤ b.submitter := by
  refine ⟨_, submissions_eq hworks p, ?_, ?_⟩
  · exact (List.mergeSort_perm _ _).trans (flatMap_pick_perm hpre hstored p)
  · exact (pairwise_mergeSort_comesFirst _).imp comesFirst_iff.1

section FirstDay

def firstDay : Period := ⟨.epoch, ⟨86400, 0, by decide, Instant.zero_nanosInRange⟩, 24 * Period.nanosPerHour⟩

def storedBy (submitter : String) (time : Instant) : StoredBody where
  time := time
  submitter := submitter
  key := Key.under "net" (SubmissionPath.write time submitter)
  body := ("\x7b\"submitter\":\"" ++ submitter ++ "\"\x7d").toUTF8

/-- One in the middle of the first second of the first day, and one at midnight. -/
def aroundFirstDay : List StoredBody :=
  [storedBy "carol" ((Instant.epoch.add? 500000000).getD .epoch), storedBy "dave" firstDay.stop]

def firstDaySource : Source where
  keyPrefix := "net"
  store := { objects := .ofList (("net/blocks/x.dat", .empty) :: aroundFirstDay.map StoredBody.entry) }

/-- Only the former is of the first day. -/
theorem submissions_of_stored_firstDay : firstDaySource.Works ∧ firstDaySource.HasPlainPrefix ∧
    firstDaySource.Holds aroundFirstDay ∧
    ∃ l, firstDaySource.submissions firstDay = .ok l ∧ l.map (·.submitter) = ["carol"] := by
  have hworks : firstDaySource.Works := ⟨fun _ => rfl, fun _ => rfl⟩
  have hpre : ∀ c ∈ "net".toList, c.isAlphanum := List.all_eq_true.1 (by decide)
  have hstored : firstDaySource.Holds aroundFirstDay := by
    refine ⟨fun o ho => ?_, [("net/blocks/x.dat", .empty)], by decide +kernel, by decide +kernel⟩
    rcases List.mem_pair.1 ho with rfl | rfl <;> exact ⟨by decide, by decide, .inl rfl⟩
  obtain ⟨l, hl, hperm, -⟩ := submissions_of_stored hworks hpre hstored firstDay
  have hcarol : (aroundFirstDay.filterMap (StoredBody.submission? firstDay)).map (·.submitter) =
      ["carol"] := by
    decide +kernel
  refine ⟨hworks, hpre, hstored, l, hl, ?_⟩
  exact List.perm_singleton.1 ((hperm.map _).trans (.of_eq hcarol))

end FirstDay

end Source

end Rollcall
