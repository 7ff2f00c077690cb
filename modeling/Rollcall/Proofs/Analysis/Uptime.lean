import Rollcall.Proofs.Analysis.Roll
import Rollcall.Proofs.List

/-! The hits of a node's row are determined by the node's own submissions in the period, in the order of
time, and are as many as can be picked of them with the gap between each and the next. There are rows exactly if no
gap that the analysis looks at leaves the calendar. -/

namespace Rollcall.Analysis

variable (a : Analysis) (node : String) (l : List Submission)

/-- The submissions of one node in the period. -/
def own : List Submission :=
  l.filter fun s => a.period.contains s.submittedAt ∧ (Identity.of a.ignoreIps s).id = node

/-- Their times in order. -/
def ownTimes : List Instant :=
  ((a.own node l).map (·.submittedAt)).mergeSort (· ≤ ·)

/-- Each submission in the period with the node that made it. -/
def signs : List (Identity × Instant) :=
  (a.inPeriod l).map fun s => (Identity.of a.ignoreIps s, s.submittedAt)

theorem timesOf_signs : Roll.timesOf node (a.signs l) =
    ((a.inPeriod l).filter fun s => (Identity.of a.ignoreIps s).id = node).map (·.submittedAt) := by
  simp [Roll.timesOf, signs, List.filter_map, Function.comp_def]

/-- Leaving the other nodes out after sorting comes to the same as leaving them out before. -/
theorem timesOf_signs_eq : Roll.timesOf node (a.signs l) = a.ownTimes node l := by
  have hsorted : ((a.inPeriod l).map (·.submittedAt)).Pairwise (· ≤ ·) := by
    rw [List.pairwise_map]
    exact pairwise_mergeSort_key Submission.submittedAt _
  have hperm : ((a.inPeriod l).filter fun s => (Identity.of a.ignoreIps s).id = node).Perm (a.own node l) := by
    refine ((List.mergeSort_perm _ _).filter _).trans (.of_eq ?_)
    simp [own, List.filter_filter, and_comm]
  rw [timesOf_signs]
  refine List.Perm.eq_of_pairwise (fun _ _ _ _ => Std.le_antisymm) ?_ (pairwise_mergeSort_key id _) ?_
  · exact hsorted.sublist (List.filter_sublist.map _)
  · exact (hperm.map _).trans (List.mergeSort_perm _ _).symm

theorem ownTimes_congr {l l' : List Submission} (h : (a.own node l).Perm (a.own node l')) :
    a.ownTimes node l = a.ownTimes node l' := by
  refine List.Perm.eq_of_pairwise (fun _ _ _ _ => Std.le_antisymm) (pairwise_mergeSort_key _ _)
    (pairwise_mergeSort_key _ _) ?_
  exact (List.mergeSort_perm _ _).trans ((h.map _).trans (List.mergeSort_perm _ _).symm)

theorem mem_ownTimes {t : Instant} (h : t ∈ a.ownTimes node l) : ∃ s ∈ l, s.submittedAt = t := by
  rw [ownTimes, List.mem_mergeSort] at h
  obtain ⟨s, hs, rfl⟩ := List.mem_map.1 h
  exact ⟨s, List.mem_of_mem_filter hs, rfl⟩

variable {a} {l} {n : Nat}

theorem mem_own_iff {id : String} {s : Submission} : s ∈ a.own id l ↔
    s ∈ l ∧ a.period.contains s.submittedAt ∧ (Identity.of a.ignoreIps s).id = id := by
  simp [own]

section Rows

/-- Every gap that the analysis looks at ends within the calendar: the one after each hit of a node that another
submission of the node follows. -/
def StaysInCalendar (a : Analysis) (l : List Submission) : Prop :=
  ∀ node, Timeline.StaysInCalendar a.sync (a.ownTimes node l)

theorem roll_eq (a : Analysis) (l : List Submission) : a.roll l = Roll.pass a.sync (a.signs l) {} := by
  rw [roll, Roll.pass, signs, List.foldlM_map]

theorem rows_eq (he : expectedCount a.sync a.period = .ok n) (hl : a.StaysInCalendar l) : a.rows l =
    .ok ((Roll.firstOfEach ((a.signs l).map (·.1))).map fun i =>
      { identity := i, hits := (Timeline.replay a.sync (a.ownTimes i.id l)).hits, expected := n }) := by
  rcases Roll.pass_spec a.sync (a.signs l) with ⟨r, hr, htells, -⟩ | ⟨-, id, hid⟩
  · have htimeline (id : String) : r.timeline id = Timeline.replay a.sync (a.ownTimes id l) := by
      rw [Timeline.replay, ← timesOf_signs_eq, htells.timeline, Option.getD_some]
    simp only [rows, he, roll_eq, hr, ← htells.order, ← htimeline]
    rfl
  · rw [timesOf_signs_eq] at hid
    exact absurd (hl id) hid

/-- Without rows there is no other answer. -/
theorem rows_eq_overflow (he : expectedCount a.sync a.period = .ok n) (hl : ¬a.StaysInCalendar l) :
    a.rows l = .error .overflow := by
  rcases Roll.pass_spec a.sync (a.signs l) with ⟨-, -, -, hstays⟩ | ⟨hr, -⟩
  · refine absurd (fun node => ?_) hl
    rw [← timesOf_signs_eq]
    exact hstays node
  · simp only [rows, he, roll_eq, hr]
    rfl

theorem staysInCalendar_of_rows (he : expectedCount a.sync a.period = .ok n) {rows : List Uptime}
    (hr : a.rows l = .ok rows) : a.StaysInCalendar l := by
  by_contra hl
  rw [rows_eq_overflow he hl] at hr
  cases hr

theorem exists_rows_iff (he : expectedCount a.sync a.period = .ok n) :
    (∃ rows, a.rows l = .ok rows) ↔ a.StaysInCalendar l :=
  ⟨fun ⟨_, hr⟩ => staysInCalendar_of_rows he hr, fun hl => ⟨_, rows_eq he hl⟩⟩

theorem exists_row (he : expectedCount a.sync a.period = .ok n) {rows : List Uptime} (hr : a.rows l = .ok rows)
    {s : Submission} (hs : s ∈ l) (hp : a.period.contains s.submittedAt) :
    ∃ u ∈ rows, u.identity.id = (Identity.of a.ignoreIps s).id := by
  have hi : Identity.of a.ignoreIps s ∈ (a.signs l).map (·.1) := by
    simp only [signs, List.map_map, List.mem_map]
    exact ⟨s, by simpa [inPeriod] using ⟨hs, hp⟩, rfl⟩
  obtain ⟨j, hj, hji⟩ := Roll.exists_mem_firstOfEach hi
  rw [rows_eq he (staysInCalendar_of_rows he hr)] at hr
  cases hr
  exact ⟨_, List.mem_map.2 ⟨j, hj, rfl⟩, hji⟩

/-- A row is that of a submission in the period. -/
theorem exists_of_mem_rows (he : expectedCount a.sync a.period = .ok n) {rows : List Uptime}
    (hr : a.rows l = .ok rows) {u : Uptime} (hu : u ∈ rows) :
    (∃ s ∈ l, a.period.contains s.submittedAt ∧ u.identity = Identity.of a.ignoreIps s) ∧
      u.hits = (Timeline.replay a.sync (a.ownTimes u.identity.id l)).hits ∧ u.expected = n := by
  rw [rows_eq he (staysInCalendar_of_rows he hr)] at hr
  cases hr
  obtain ⟨i, hi, rfl⟩ := List.mem_map.1 hu
  obtain ⟨e, he, rfl⟩ := List.mem_map.1 (Roll.mem_of_mem_firstOfEach hi)
  obtain ⟨s, hs, rfl⟩ := List.mem_map.1 he
  obtain ⟨hmem, hperiod⟩ : s ∈ l ∧ a.period.contains s.submittedAt := by simpa [inPeriod] using hs
  exact ⟨⟨s, hmem, hperiod, rfl⟩, rfl, rfl⟩

theorem exists_own_of_mem_rows (he : expectedCount a.sync a.period = .ok n) {rows : List Uptime}
    (hr : a.rows l = .ok rows) {u : Uptime} (hu : u ∈ rows) : (∃ s, s ∈ a.own u.identity.id l) ∧
      u.hits = (Timeline.replay a.sync (a.ownTimes u.identity.id l)).hits := by
  obtain ⟨⟨s, hs, hperiod, hidentity⟩, hhits, -⟩ := exists_of_mem_rows he hr hu
  exact ⟨⟨s, mem_own_iff.2 ⟨hs, hperiod, by rw [hidentity]⟩⟩, hhits⟩

end Rows

/-- Where anything is expected, nodes are expected at least once an hour. -/
theorem sync_le (he : expectedCount a.sync a.period = .ok n) : a.sync.toNat ≤ 60 := by
  by_contra h
  have h0 : 60 / a.sync.toNat = 0 := Nat.div_eq_of_lt (by omega)
  simp [expectedCount, h0] at he

theorem staysInCalendar_of_isInner (he : expectedCount a.sync a.period = .ok n)
    (hl : ∀ s ∈ l, s.submittedAt.IsInner) : a.StaysInCalendar l := by
  refine fun node => Timeline.staysInCalendar_of_isInner (sync_le he) fun t ht => ?_
  obtain ⟨s, hs, rfl⟩ := a.mem_ownTimes _ l ht
  exact hl s hs

/-- Every node with a submission in the period has a row, and the hits of a row are the optimum: no more of
the node's own submissions in the period can be picked with the gap between each and the next. Whatever is
submitted by others, or outside the period, or in another order, leaves them as they are; only a gap of another node
may leave the calendar, and then there are no rows. -/
theorem hits_optimal (he : expectedCount a.sync a.period = .ok n)
    (hl : ∀ s ∈ l, s.submittedAt.IsInner) : ∃ rows, a.rows l = .ok rows ∧
      (∀ s ∈ l, a.period.contains s.submittedAt →
        ∃ u ∈ rows, u.identity.id = (Identity.of a.ignoreIps s).id) ∧
      ∀ u ∈ rows,
        IsGreatest {k | ∃ c, c.Sublist (a.ownTimes u.identity.id l) ∧ Timeline.Spaced a.sync c ∧
          c.length = k} u.hits ∧
        ∀ l', (a.own u.identity.id l).Perm (a.own u.identity.id l') →
          ((∀ s ∈ l', s.submittedAt.IsInner) → ∃ rows', a.rows l' = .ok rows') ∧
          ∀ rows', a.rows l' = .ok rows' → (∃ u' ∈ rows', u'.identity.id = u.identity.id) ∧
            ∀ u' ∈ rows', u'.identity.id = u.identity.id → u'.hits = u.hits := by
  obtain ⟨rows, hr⟩ := (exists_rows_iff he).2 (staysInCalendar_of_isInner he hl)
  refine ⟨rows, hr, fun s hs hp => exists_row he hr hs hp, fun u hu => ?_⟩
  obtain ⟨⟨s, hs⟩, hhits⟩ := exists_own_of_mem_rows he hr hu
  constructor
  · rw [hhits]
    refine Timeline.isGreatest_hits_replay (sync_le he) (fun t ht => ?_) (pairwise_mergeSort_key _ _)
    obtain ⟨s, hs, rfl⟩ := a.mem_ownTimes _ l ht
    exact hl s hs
  · intro l' hperm
    refine ⟨fun hl' => (exists_rows_iff he).2 (staysInCalendar_of_isInner he hl'), fun rows' hr' => ?_⟩
    obtain ⟨hs', hperiod, hid⟩ := mem_own_iff.1 (hperm.subset hs)
    obtain ⟨u', hu', hid'⟩ := exists_row he hr' hs' hperiod
    refine ⟨⟨u', hu', hid'.trans hid⟩, fun v hv hvid => ?_⟩
    rw [(exists_own_of_mem_rows he hr' hv).2, hvid, hhits, a.ownTimes_congr _ hperm]

/-- Two submissions of one node within an hour that expects four. -/
theorem hits_optimal_hour :
    let a : Analysis := ⟨⟨.epoch, ⟨3600, 0, by decide, by decide⟩, Period.nanosPerHour⟩, 15, true⟩
    let l : List Submission := [{ submittedAt := ⟨600, 0, by decide, by decide⟩ }, {}]
    (expectedCount a.sync a.period = .ok 4 ∧ ∀ s ∈ l, s.submittedAt.IsInner) ∧
      ∃ rows, a.rows l = .ok rows ∧ ∃ u ∈ rows, IsGreatest {k | ∃ c,
        c.Sublist (a.ownTimes u.identity.id l) ∧ Timeline.Spaced a.sync c ∧ c.length = k} u.hits := by
  intro a l
  have he : expectedCount a.sync a.period = .ok 4 := by decide
  have hl : ∀ s ∈ l, s.submittedAt.IsInner := by
    intro s hs
    rcases List.mem_pair.1 hs with rfl | rfl <;> exact ⟨by decide, by decide, by decide⟩
  obtain ⟨rows, hr, hrow, hopt⟩ := hits_optimal he hl
  obtain ⟨u, hu, -⟩ := hrow {} (by simp [l]) (by decide)
  exact ⟨⟨he, hl⟩, rows, hr, u, hu, (hopt u hu).1⟩

end Rollcall.Analysis
