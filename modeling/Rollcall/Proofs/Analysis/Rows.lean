import Mathlib.Order.Bounds.Basic
import Rollcall.Config.Analyzer
import Rollcall.Proofs.Analysis.Uptime

/-! The rows of a report are one for each node with a submission in the period, in the order of the nodes' first
signs: by time, and at one time by the place in the list of submissions. The submissions are sorted together with
their places; the rows then stand as the leaders do, the first entry of each node. A list in another order can
only exchange rows of nodes whose first signs are of one time. Near the end of the calendar there may be no rows:
the analysis breaks off where it looks at the end of a gap that the calendar does not have. -/

namespace Rollcall.Analysis

/-- The time of a submission and its place in the list. -/
abbrev Sign := Instant × Nat

/-- By time, and by place at one time. -/
def Sign.Precedes : Sign → Sign → Prop := Prod.Lex (· < ·) (· < ·)

theorem Sign.Precedes.le {k m : Sign} (h : k.Precedes m) : k.1 ≤ m.1 := by
  rcases Prod.lex_def.1 h with hlt | ⟨heq, -⟩
  · exact Std.le_of_lt hlt
  · exact Std.le_of_eq heq

/-- The earliest time of a node's submissions in the period, and the first place among those of that time. -/
structure IsFirstSign (a : Analysis) (l : List Submission) (node : String) (k : Sign) : Prop where
  time : IsLeast {t | ∃ s ∈ a.own node l, s.submittedAt = t} k.1
  place : IsLeast {i | ∃ s ∈ a.own node l, s.submittedAt = k.1 ∧ l[i]? = some s} k.2

/-- The identifiers of the rows. -/
def nodesOf (rows : List Uptime) : List String := rows.map (·.identity.id)

section Leaders

variable {α : Type} {f : α → Identity} {R : α → α → Prop}

/-- The entries that are kept stand before all others of their identifiers. -/
theorem exists_leaders {l : List α} (h : l.Pairwise R) : ∃ c : List α, c.Sublist l ∧
    c.map f = Roll.firstOfEach (l.map f) ∧ ∀ e ∈ c, ∀ x ∈ l, (f x).id = (f e).id → x = e ∨ R e x := by
  induction l with
  | nil => exact ⟨[], .refl _, rfl, by simp⟩
  | cons y r ih =>
    obtain ⟨hy, hr⟩ := List.pairwise_cons.1 h
    obtain ⟨c, hsub, hmap, hlead⟩ := ih hr
    refine ⟨y :: c.filter fun e => (f e).id ≠ (f y).id, (List.filter_sublist.trans hsub).cons_cons y, ?_, ?_⟩
    · rw [List.map_cons, List.map_cons, Roll.firstOfEach, ← hmap, List.filter_map]
      rfl
    · intro e he x hx hid
      rcases List.mem_cons.1 he with rfl | he
      · exact (List.mem_cons.1 hx).imp_right (hy x)
      · obtain ⟨hec, hne⟩ := List.mem_filter.1 he
        rcases List.mem_cons.1 hx with rfl | hx
        · exact absurd hid.symm (of_decide_eq_true hne)
        · exact hlead e hec x hx hid

end Leaders

variable {a : Analysis} {l l' : List Submission} {node : String} {rows rows' : List Uptime}
  {e : Submission × Nat} {n : Nat}

section Placed

def signAt (e : Submission × Nat) : Sign := (e.1.submittedAt, e.2)

/-- The submissions in the period with their places, by time. -/
def placed (a : Analysis) (l : List Submission) : List (Submission × Nat) :=
  (l.zipIdx.filter fun e => a.period.contains e.1.submittedAt).mergeSort fun e f =>
    e.1.submittedAt ≤ f.1.submittedAt

theorem map_placed (a : Analysis) (l : List Submission) : (a.placed l).map (·.1) = a.inPeriod l := by
  have hfilter : (l.zipIdx.filter fun e => a.period.contains e.1.submittedAt).map (·.1) =
      l.filter fun s => a.period.contains s.submittedAt := by
    conv_rhs => rw [← List.zipIdx_map_fst 0 l, List.filter_map]
    rfl
  rw [inPeriod, ← hfilter]
  exact List.map_mergeSort fun _ _ _ _ => rfl

theorem mem_placed_iff : e ∈ a.placed l ↔ l[e.2]? = some e.1 ∧ a.period.contains e.1.submittedAt := by
  rw [placed, List.mem_mergeSort, List.mem_filter, List.mem_zipIdx_iff_getElem?]

/-- The sort keeps submissions of one time in order, so the places are in order where the times do not decide. -/
theorem pairwise_placed (a : Analysis) (l : List Submission) :
    (a.placed l).Pairwise fun e f => (signAt e).Precedes (signAt f) := by
  have hplaces : l.zipIdx.Pairwise fun e f => e.2 < f.2 := by
    rw [← List.pairwise_map, List.zipIdx_map_snd]
    exact List.pairwise_lt_range'
  refine (pairwise_mergeSort_key_of_pairwise (fun e : Submission × Nat => e.1.submittedAt)
    (hplaces.sublist List.filter_sublist)).imp fun {e f} ⟨hle, htie⟩ => ?_
  rw [Sign.Precedes, Prod.lex_def]
  rcases Std.le_iff_lt_or_eq.1 hle with hlt | heq
  · exact .inl hlt
  · exact .inr ⟨heq, htie heq⟩

/-- A submission that no other one of its node precedes is the node's first sign. -/
theorem isFirstSign_of_mem_placed (he : e ∈ a.placed l)
    (hlead : ∀ x ∈ a.placed l, (Identity.of a.ignoreIps x.1).id = (Identity.of a.ignoreIps e.1).id →
      x = e ∨ (signAt e).Precedes (signAt x)) :
    a.IsFirstSign l (Identity.of a.ignoreIps e.1).id (signAt e) := by
  obtain ⟨hat, hperiod⟩ := mem_placed_iff.1 he
  have hown : e.1 ∈ a.own (Identity.of a.ignoreIps e.1).id l :=
    mem_own_iff.2 ⟨List.mem_of_getElem? hat, hperiod, rfl⟩
  have hothers {s : Submission} {i : Nat} (hs : s ∈ a.own (Identity.of a.ignoreIps e.1).id l)
      (hi : l[i]? = some s) : (s, i) = e ∨ (signAt e).Precedes (s.submittedAt, i) := by
    obtain ⟨-, hp, hid⟩ := mem_own_iff.1 hs
    exact hlead (s, i) (mem_placed_iff.2 ⟨hi, hp⟩) hid
  refine ⟨⟨⟨e.1, hown, rfl⟩, ?_⟩, ⟨⟨e.1, hown, rfl, hat⟩, ?_⟩⟩
  · rintro t ⟨s, hs, rfl⟩
    obtain ⟨i, hi⟩ := List.mem_iff_getElem?.1 (mem_own_iff.1 hs).1
    rcases hothers hs hi with rfl | hlex
    · exact Std.le_refl _
    · exact hlex.le
  · rintro i ⟨s, hs, ht, hi⟩
    rcases hothers hs hi with rfl | hlex
    · exact Nat.le_refl _
    · rcases Prod.lex_def.1 hlex with hlt | ⟨-, hlt⟩
      · exact absurd (ht ▸ hlt) (Std.lt_irrefl)
      · exact Nat.le_of_lt hlt

/-- The rows are those of the nodes' first signs, in their order. -/
theorem exists_leaders_of_rows (he : expectedCount a.sync a.period = .ok n) (hr : a.rows l = .ok rows) :
    ∃ c : List (Submission × Nat), rows.map (·.identity) = c.map (fun e => Identity.of a.ignoreIps e.1) ∧
      c.Pairwise (fun e f => (signAt e).Precedes (signAt f)) ∧
      ∀ e ∈ c, l[e.2]? = some e.1 ∧ a.IsFirstSign l (Identity.of a.ignoreIps e.1).id (signAt e) := by
  rw [rows_eq he (staysInCalendar_of_rows he hr)] at hr
  cases hr
  obtain ⟨c, hsub, hmap, hlead⟩ :=
    exists_leaders (f := fun e => Identity.of a.ignoreIps e.1) (pairwise_placed a l)
  refine ⟨c, ?_, (pairwise_placed a l).sublist hsub, fun e hec => ?_⟩
  · rw [hmap, signs, ← map_placed, List.map_map, List.map_map, List.map_map]
    exact List.map_id _
  · have hmem := hsub.subset hec
    exact ⟨(mem_placed_iff.1 hmem).1, isFirstSign_of_mem_placed hmem (hlead e hec)⟩

end Placed

section Nodes

theorem nodup_nodesOf (he : expectedCount a.sync a.period = .ok n) (hr : a.rows l = .ok rows) :
    (nodesOf rows).Nodup := by
  rw [rows_eq he (staysInCalendar_of_rows he hr)] at hr
  cases hr
  rw [nodesOf, List.map_map]
  exact Roll.nodup_firstOfEach _

theorem mem_nodesOf_iff (he : expectedCount a.sync a.period = .ok n) (hr : a.rows l = .ok rows) :
    node ∈ nodesOf rows ↔ ∃ s, s ∈ a.own node l := by
  constructor
  · intro hnode
    obtain ⟨u, hu, rfl⟩ := List.mem_map.1 hnode
    exact (exists_own_of_mem_rows he hr hu).1
  · rintro ⟨s, hs⟩
    obtain ⟨hmem, hperiod, rfl⟩ := mem_own_iff.1 hs
    obtain ⟨u, hu, hid⟩ := exists_row he hr hmem hperiod
    exact List.mem_map.2 ⟨u, hu, hid⟩

theorem exists_isFirstSign_of_mem_rows (he : expectedCount a.sync a.period = .ok n) (hr : a.rows l = .ok rows)
    {u : Uptime} (hu : u ∈ rows) : ∃ k s, a.IsFirstSign l u.identity.id k ∧ l[k.2]? = some s ∧
      u.identity = Identity.of a.ignoreIps s := by
  obtain ⟨c, hmap, -, hfirst⟩ := exists_leaders_of_rows he hr
  have hidentity : u.identity ∈ rows.map (·.identity) := List.mem_map.2 ⟨u, hu, rfl⟩
  obtain ⟨e, hec, hid⟩ := List.mem_map.1 (hmap ▸ hidentity)
  obtain ⟨hat, hsign⟩ := hfirst e hec
  rw [← hid]
  exact ⟨signAt e, e.1, hsign, hat, rfl⟩

/-- The first sign of one node precedes that of another. -/
def ComesFirst (a : Analysis) (l : List Submission) (u v : String) : Prop :=
  ∃ k m, a.IsFirstSign l u k ∧ a.IsFirstSign l v m ∧ k.Precedes m

theorem pairwise_nodesOf (he : expectedCount a.sync a.period = .ok n) (hr : a.rows l = .ok rows) :
    (nodesOf rows).Pairwise (a.ComesFirst l) := by
  obtain ⟨c, hmap, horder, hfirst⟩ := exists_leaders_of_rows he hr
  have hnodes : nodesOf rows = c.map fun e => (Identity.of a.ignoreIps e.1).id := by
    simpa [nodesOf, Function.comp_def] using congrArg (List.map (·.id)) hmap
  rw [hnodes, List.pairwise_map]
  exact horder.imp_of_mem fun he hf hprec => ⟨_, _, (hfirst _ he).2, (hfirst _ hf).2, hprec⟩

end Nodes

section Permuted

theorem mem_own_congr (hperm : l.Perm l') {s : Submission} : s ∈ a.own node l ↔ s ∈ a.own node l' := by
  rw [mem_own_iff, mem_own_iff, hperm.mem_iff]

theorem staysInCalendar_perm (hperm : l.Perm l') (hl : a.StaysInCalendar l) : a.StaysInCalendar l' := by
  intro node
  have hown : (a.own node l).Perm (a.own node l') := hperm.filter _
  rw [← a.ownTimes_congr node hown]
  exact hl node

/-- The time of a node's first sign does not depend on the order of the list. -/
theorem IsFirstSign.time_eq {k m : Sign} (hperm : l.Perm l') (hk : a.IsFirstSign l node k)
    (hm : a.IsFirstSign l' node m) : k.1 = m.1 := by
  obtain ⟨⟨s, hs, hst⟩, hleast⟩ := hk.time
  obtain ⟨⟨r, hr, hrt⟩, hleast'⟩ := hm.time
  exact Std.le_antisymm (hleast ⟨r, (mem_own_congr hperm).2 hr, hrt⟩)
    (hleast' ⟨s, (mem_own_congr hperm).1 hs, hst⟩)

theorem nodesOf_perm (he : expectedCount a.sync a.period = .ok n) (hr : a.rows l = .ok rows)
    (hr' : a.rows l' = .ok rows') (hperm : l.Perm l') : (nodesOf rows).Perm (nodesOf rows') := by
  refine (List.perm_ext_iff_of_nodup (nodup_nodesOf he hr) (nodup_nodesOf he hr')).2 fun node => ?_
  rw [mem_nodesOf_iff he hr, mem_nodesOf_iff he hr']
  exact exists_congr fun s => mem_own_congr hperm

/-- Nodes that change their order have first signs of one time: each of the two comes no later than the other. -/
theorem ComesFirst.eq_time {u v : String} (hperm : l.Perm l') (h : a.ComesFirst l u v)
    (h' : a.ComesFirst l' v u) : ∃ t i j, a.IsFirstSign l u (t, i) ∧ a.IsFirstSign l v (t, j) := by
  obtain ⟨⟨t, i⟩, ⟨t', j⟩, hu, hv, hle⟩ := h
  obtain ⟨m, k, hv', hu', hle'⟩ := h'
  have hback : t' ≤ t := by
    have := hle'.le
    rwa [← hv.time_eq hperm hv', ← hu.time_eq hperm hu'] at this
  obtain rfl : t = t' := Std.le_antisymm hle.le hback
  exact ⟨t, i, j, hu, hv⟩

end Permuted

/-- There is one row for each node with a submission in the period and no other row, with the identity that the
node's first sign shows. The rows are in the order of the first signs, and a list in another order exchanges only
nodes whose first signs are of one time. -/
structure InOrder (a : Analysis) (l : List Submission) (rows : List Uptime) : Prop where
  nodup : (nodesOf rows).Nodup
  mem_iff (node : String) : node ∈ nodesOf rows ↔ ∃ s, s ∈ a.own node l
  identity : ∀ u ∈ rows, ∃ k s, a.IsFirstSign l u.identity.id k ∧ l[k.2]? = some s ∧
    u.identity = Identity.of a.ignoreIps s
  pairwise : (nodesOf rows).Pairwise (a.ComesFirst l)
  permuted : ∀ l', l.Perm l' → ∃ rows', a.rows l' = .ok rows' ∧ (nodesOf rows).Perm (nodesOf rows') ∧
    ∀ u v, [u, v].Sublist (nodesOf rows) → [v, u].Sublist (nodesOf rows') →
      ∃ t i j, a.IsFirstSign l u (t, i) ∧ a.IsFirstSign l v (t, j)

theorem inOrder_of_rows (he : expectedCount a.sync a.period = .ok n) (hr : a.rows l = .ok rows) :
    a.InOrder l rows where
  nodup := nodup_nodesOf he hr
  mem_iff _ := mem_nodesOf_iff he hr
  identity _ hu := exists_isFirstSign_of_mem_rows he hr hu
  pairwise := pairwise_nodesOf he hr
  permuted l' hperm := by
    obtain ⟨rows', hr'⟩ := (exists_rows_iff he).2 (staysInCalendar_perm hperm (staysInCalendar_of_rows he hr))
    refine ⟨rows', hr', nodesOf_perm he hr hr' hperm, fun u v huv hvu => ?_⟩
    have hbefore := List.pairwise_iff_forall_sublist.1 (pairwise_nodesOf he hr) huv
    have hafter := List.pairwise_iff_forall_sublist.1 (pairwise_nodesOf he hr') hvu
    exact hbefore.eq_time hperm hafter

/-- The rows are complete and in order exactly if no gap that the analysis looks at leaves the calendar; else the
analysis breaks off. -/
theorem rows_ordered_iff (he : expectedCount a.sync a.period = .ok n) (l : List Submission) :
    ((∃ rows, a.rows l = .ok rows ∧ a.InOrder l rows) ↔ a.StaysInCalendar l) ∧
      (¬a.StaysInCalendar l → a.rows l = .error .overflow) := by
  refine ⟨⟨fun ⟨_, hr, _⟩ => staysInCalendar_of_rows he hr, fun hl => ?_⟩, rows_eq_overflow he⟩
  obtain ⟨rows, hr⟩ := (exists_rows_iff he).2 hl
  exact ⟨rows, hr, inOrder_of_rows he hr⟩

/-- Two submissions of one node within an hour, the later one first in the list. -/
theorem rows_ordered_iff_hour :
    let a : Analysis := ⟨⟨.epoch, ⟨3600, 0, by decide, by decide⟩, Period.nanosPerHour⟩, 15, true⟩
    let l : List Submission := [{ submittedAt := ⟨600, 0, by decide, by decide⟩ }, {}]
    expectedCount a.sync a.period = .ok 4 ∧
      ∃ rows, a.rows l = .ok rows ∧ nodesOf rows = [(Identity.of true {}).id] := by
  intro a l
  have he : expectedCount a.sync a.period = .ok 4 := by decide
  have hl : a.StaysInCalendar l := by
    refine staysInCalendar_of_isInner he fun s hs => ?_
    rcases List.mem_pair.1 hs with rfl | rfl <;> exact ⟨by decide, by decide, by decide⟩
  obtain ⟨rows, hr, horder⟩ := (rows_ordered_iff he l).1.2 hl
  refine ⟨he, rows, hr, List.perm_singleton.1 ?_⟩
  refine (List.perm_ext_iff_of_nodup horder.nodup (List.nodup_singleton _)).2 fun node => ?_
  rw [horder.mem_iff, List.mem_singleton]
  constructor
  · rintro ⟨s, hs⟩
    obtain ⟨hsl, -, rfl⟩ := mem_own_iff.1 hs
    rcases List.mem_pair.1 hsl with rfl | rfl <;> rfl
  · rintro rfl
    exact ⟨{}, mem_own_iff.2 ⟨by simp [l], by decide, rfl⟩⟩

section LastNight

/-- The last four hours of the calendar, but for a second. -/
def lastNight : Analysis :=
  ⟨⟨⟨8210266862400, 0, by decide, Instant.zero_nanosInRange⟩,
    ⟨8210266876799, 0, by decide, Instant.zero_nanosInRange⟩, 14399 * billion⟩, 60, false⟩

def lateSubmission (t : Instant) : Submission where
  submitter := "B62qalice"
  remoteAddr := "1.1.1.1"
  submittedAt := t

/-- One node at half past eleven and ten minutes later. -/
def lateTimes : List Instant :=
  [⟨8210266875000, 0, by decide, Instant.zero_nanosInRange⟩, ⟨8210266875600, 0, by decide, Instant.zero_nanosInRange⟩]

/-- A configuration for the last night passes its checks, and under it the analysis of one node's submissions breaks
off: the gap after the first one ends in a year that the calendar does not have. -/
theorem lastNight_breaks_off :
    let c : AnalyzerConfig :=
      { networkName := "testnet", source := .directory "/data"
        period := { start := some lastNight.period.start, stop := some lastNight.period.stop }
        syncMinutes := 60, output := { stdout := true } }
    let l := lateTimes.map lateSubmission
    c.check = .ok () ∧
      Period.resolve c.period.start c.period.stop c.period.minutes .epoch = .ok lastNight.period ∧
      c.syncMinutes.toUInt32 = lastNight.sync ∧ expectedCount lastNight.sync lastNight.period = .ok 3 ∧
      (∀ s ∈ l, lastNight.period.contains s.submittedAt) ∧ lastNight.rows l = .error .overflow := by
  intro c l
  have he : expectedCount lastNight.sync lastNight.period = .ok 3 := by decide
  have hperiod : ∀ s ∈ l, lastNight.period.contains s.submittedAt := by decide
  have hown : lastNight.own (Identity.of false (lateSubmission .epoch)).id l = l := by
    refine List.filter_eq_self.2 fun s hs => decide_eq_true ⟨hperiod s hs, ?_⟩
    obtain ⟨t, -, rfl⟩ := List.mem_map.1 hs
    rfl
  have htimes : lastNight.ownTimes (Identity.of false (lateSubmission .epoch)).id l = lateTimes := by
    rw [ownTimes, hown]
    exact List.mergeSort_of_pairwise (by decide)
  refine ⟨by decide +kernel, by decide +kernel, rfl, he, hperiod, rows_eq_overflow he fun hl => ?_⟩
  have hnone : Timeline.replay? lastNight.sync lateTimes = none := by decide
  have hstays := hl (Identity.of false (lateSubmission .epoch)).id
  rw [htimes, ← Timeline.isSome_replay?_iff, hnone] at hstays
  cases hstays

end LastNight

end Rollcall.Analysis
