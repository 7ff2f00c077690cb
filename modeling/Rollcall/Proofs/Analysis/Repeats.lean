import Rollcall.Config.Analyzer
import Rollcall.Proofs.Analysis.Uptime

/-! Submissions that are there more than once. As long as the sync period is no shorter than the tolerance, the gap
is not negative, a submission is not on time behind itself, and copies change no hits; but they look at the end of
the gap after the last hit too, which must be in the calendar. With a shorter sync period the gap is negative, every
submission in the period is a hit, and a copy is one more. -/

namespace Rollcall

namespace Timeline

variable {sync : UInt32} {s s' s'' : Timeline} {last t : Instant} {ts us : List Instant} {n : Nat}

theorem gap_nonneg (h : 5 ≤ sync.toNat) : 0 ≤ gap sync := by
  simp only [gap, tolerance, billion]
  omega

theorem gap_le (h : sync.toNat < 5) : gap sync ≤ -3 * billion := by
  simp only [gap, tolerance, billion]
  omega

section Twice

variable (h : 5 ≤ sync.toNat)

include h

/-- What comes no later than the last hit changes nothing. -/
theorem next?_tracking_of_le (hle : t ≤ last) (hs : next? sync (tracking last n) t = some s) :
    s = tracking last n := by
  obtain ⟨due, hadd, rfl⟩ := Option.map_eq_some_iff.1 hs
  have hdue : last ≤ due := Instant.le_of_add? hadd (gap_nonneg h)
  exact if_neg (Std.not_lt.2 (Std.le_trans hle hdue))

/-- Neither does a copy of what came last. -/
theorem next?_next? (hs : next? sync s t = some s') (hs' : next? sync s' t = some s'') : s'' = s' := by
  cases s with
  | unseen =>
    cases hs
    exact next?_tracking_of_le h (Std.le_refl t) hs'
  | tracking last n =>
    obtain ⟨due, hadd, hdue⟩ := Option.map_eq_some_iff.1 hs
    by_cases hlate : due < t
    · rw [if_pos hlate] at hdue
      subst hdue
      exact next?_tracking_of_le h (Std.le_refl t) hs'
    · rw [if_neg hlate] at hdue
      subst hdue
      rw [hs] at hs'
      exact (Option.some.inj hs').symm

omit h in
/-- The state after a submission that is there twice. -/
def nextTwice? (sync : UInt32) (s : Option Timeline) (t : Instant) : Option Timeline :=
  s.bind fun s => (next? sync s t).bind (next? sync · t)

omit h in
theorem nextTwice?_eq_some_iff {o : Option Timeline} : nextTwice? sync o t = some s'' ↔
    ∃ s s', o = some s ∧ next? sync s t = some s' ∧ next? sync s' t = some s'' := by
  simp only [nextTwice?, Option.bind_eq_some_iff]
  exact ⟨fun ⟨s, hs, s', hs', hs''⟩ => ⟨s, s', hs, hs', hs''⟩, fun ⟨s, s', hs, hs', hs''⟩ => ⟨s, hs, s', hs', hs''⟩⟩

theorem nextTwice?_nextTwice? (o : Option Timeline) (t : Instant) :
    nextTwice? sync (nextTwice? sync o t) t = nextTwice? sync o t := by
  cases hs'' : nextTwice? sync o t with
  | none => rfl
  | some s'' =>
    obtain ⟨s, s', -, hs, hs'⟩ := nextTwice?_eq_some_iff.1 hs''
    obtain rfl := next?_next? h hs hs'
    exact nextTwice?_eq_some_iff.2 ⟨s'', s'', rfl, hs', hs'⟩

omit h in
theorem replay?_flatMap_pair (sync : UInt32) (ts : List Instant) :
    replay? sync (ts.flatMap fun t => [t, t]) = ts.foldl (nextTwice? sync) (some unseen) := by
  induction ts using List.reverseRecOn with
  | nil => rfl
  | append_singleton ts t ih =>
    have hpair : (ts ++ [t]).flatMap (fun t => [t, t]) = ts.flatMap (fun t => [t, t]) ++ [t] ++ [t] := by simp
    rw [hpair, replay?_concat, replay?_concat, List.foldl_append, ← ih, Option.bind_assoc]
    rfl

/-- A replay in which every submission is there twice leaves what it leaves without the copies. -/
theorem replay?_of_foldl (hs : ts.foldl (nextTwice? sync) (some unseen) = some s) : replay? sync ts = some s := by
  induction ts using List.reverseRecOn generalizing s with
  | nil => exact hs
  | append_singleton ts t ih =>
    rw [List.foldl_append] at hs
    obtain ⟨s₀, s₁, hs₀, hs₁, hs₂⟩ := nextTwice?_eq_some_iff.1 hs
    rw [replay?_concat, ih hs₀, next?_next? h hs₁ hs₂]
    exact hs₁

/-- How often each submission is there does not matter. -/
theorem replay?_congr (hts : ts.Pairwise (· ≤ ·)) (hus : us.Pairwise (· ≤ ·)) (hmem : ∀ t, t ∈ ts ↔ t ∈ us)
    (hstays : StaysInCalendar sync (ts.flatMap fun t => [t, t])) :
    StaysInCalendar sync us ∧ replay sync us = replay sync ts := by
  obtain ⟨s, hs⟩ := Option.isSome_iff_exists.1 (isSome_replay?_iff.2 hstays)
  rw [replay?_flatMap_pair] at hs
  have hs' : us.foldl (nextTwice? sync) (some unseen) = some s := by
    rw [← foldl_eq_of_mem_iff (nextTwice?_nextTwice? h) hts hus hmem, hs]
  have hreplay := replay?_of_foldl h hs'
  refine ⟨isSome_replay?_iff.1 (Option.isSome_of_eq_some hreplay), ?_⟩
  rw [replay, replay, hreplay, replay?_of_foldl h hs]

end Twice

/-- With a negative gap everything that comes no earlier is on time. -/
theorem next?_of_lt (h : sync.toNat < 5) (hle : last ≤ t) (hs : next? sync (tracking last n) t = some s) :
    s = tracking t (n + 1) := by
  obtain ⟨due, hadd, rfl⟩ := Option.map_eq_some_iff.1 hs
  have hdue : due < last := Instant.add?_lt hadd (gap_le h)
  exact if_pos (Std.lt_of_lt_of_le hdue hle)

theorem hits_foldlM_of_lt (h : sync.toNat < 5) (hsorted : (last :: ts).Pairwise (· ≤ ·))
    (hs : ts.foldlM (next? sync) (tracking last n) = some s) : s.hits = n + ts.length := by
  induction ts generalizing last n with
  | nil =>
    cases hs
    rfl
  | cons t r ih =>
    obtain ⟨hle, hr⟩ := List.pairwise_cons.1 hsorted
    rw [List.foldlM_cons] at hs
    obtain ⟨s', hs', hrest⟩ := Option.bind_eq_some_iff.1 hs
    rw [next?_of_lt h (hle t List.mem_cons_self) hs'] at hrest
    rw [ih hr hrest, List.length_cons]
    omega

/-- With a negative gap every submission is a hit. -/
theorem hits_replay_of_lt (h : sync.toNat < 5) (hsorted : ts.Pairwise (· ≤ ·)) (hstays : StaysInCalendar sync ts) :
    (replay sync ts).hits = ts.length := by
  cases ts with
  | nil => rfl
  | cons t r =>
    have hhits := hits_foldlM_of_lt h hsorted (hstays.replay?_eq : r.foldlM (next? sync) (tracking t 1) = _)
    rw [hhits, List.length_cons, Nat.add_comm]

end Timeline

namespace Analysis

variable {a : Analysis} {node : String} {l l' : List Submission} {n : Nat}

/-- The two lists give rows for the same nodes, with the same hits. -/
def SameHits (a : Analysis) (l l' : List Submission) : Prop :=
  ∃ rows rows', a.rows l = .ok rows ∧ a.rows l' = .ok rows' ∧ ∀ node hits,
    (∃ u ∈ rows, u.identity.id = node ∧ u.hits = hits) ↔ ∃ u ∈ rows', u.identity.id = node ∧ u.hits = hits

theorem pairwise_ownTimes (a : Analysis) (node : String) (l : List Submission) :
    (a.ownTimes node l).Pairwise (· ≤ ·) :=
  pairwise_mergeSort_key id _

theorem length_ownTimes (a : Analysis) (node : String) (l : List Submission) :
    (a.ownTimes node l).length = (a.own node l).length := by
  rw [ownTimes, List.length_mergeSort, List.length_map]

/-- Rows tell who submitted in the period and what the replay of its submissions makes of them. -/
theorem exists_hits_iff (he : expectedCount a.sync a.period = .ok n) {rows : List Uptime}
    (hr : a.rows l = .ok rows) {hits : Nat} : (∃ u ∈ rows, u.identity.id = node ∧ u.hits = hits) ↔
      (∃ s, s ∈ a.own node l) ∧ (Timeline.replay a.sync (a.ownTimes node l)).hits = hits := by
  constructor
  · rintro ⟨u, hu, rfl, rfl⟩
    obtain ⟨hs, hhits⟩ := exists_own_of_mem_rows he hr hu
    exact ⟨hs, hhits.symm⟩
  · rintro ⟨⟨s, hs⟩, rfl⟩
    obtain ⟨hmem, hperiod, hid⟩ := mem_own_iff.1 hs
    obtain ⟨u, hu, huid⟩ := exists_row he hr hmem hperiod
    refine ⟨u, hu, huid.trans hid, ?_⟩
    rw [(exists_own_of_mem_rows he hr hu).2, huid, hid]

theorem sameHits_iff (he : expectedCount a.sync a.period = .ok n) : a.SameHits l l' ↔
    a.StaysInCalendar l ∧ a.StaysInCalendar l' ∧ ∀ node hits,
      (∃ s, s ∈ a.own node l) ∧ (Timeline.replay a.sync (a.ownTimes node l)).hits = hits ↔
        (∃ s, s ∈ a.own node l') ∧ (Timeline.replay a.sync (a.ownTimes node l')).hits = hits := by
  constructor
  · rintro ⟨rows, rows', hr, hr', hsame⟩
    refine ⟨staysInCalendar_of_rows he hr, staysInCalendar_of_rows he hr', fun node hits => ?_⟩
    rw [← exists_hits_iff he hr, ← exists_hits_iff he hr']
    exact hsame node hits
  · rintro ⟨hl, hl', h⟩
    refine ⟨_, _, rows_eq he hl, rows_eq he hl', fun node hits => ?_⟩
    rw [exists_hits_iff he (rows_eq he hl), exists_hits_iff he (rows_eq he hl')]
    exact h node hits

theorem ownTimes_append_self (a : Analysis) (node : String) (l : List Submission) :
    a.ownTimes node (l ++ l) = (a.ownTimes node l).flatMap fun t => [t, t] := by
  have hpairs : ((a.ownTimes node l).flatMap fun t => [t, t]).Pairwise (· ≤ ·) := by
    refine List.pairwise_flatMap.2 ⟨fun t _ => by simp [Std.le_refl], ?_⟩
    exact (a.pairwise_ownTimes node l).imp fun h => by simpa using h
  refine List.Perm.eq_of_pairwise (fun _ _ _ _ => Std.le_antisymm) (a.pairwise_ownTimes node (l ++ l)) hpairs ?_
  have htimes : (a.ownTimes node l).Perm ((a.own node l).map (·.submittedAt)) := List.mergeSort_perm _ _
  have hown : a.own node (l ++ l) = a.own node l ++ a.own node l := List.filter_append _ _
  rw [ownTimes, hown, List.map_append]
  exact (List.mergeSort_perm _ _).trans ((htimes.append htimes).symm.trans (flatMap_pair_perm _).symm)

/-- Lists of the same submissions, however often each is there, give the same hits, as long as the calendar has the
end of the gap after every hit, as it is looked at when everything is there twice. -/
theorem sameHits_of_mem_iff (he : expectedCount a.sync a.period = .ok n) (hsync : 5 ≤ a.sync.toNat)
    (hl : a.StaysInCalendar (l ++ l)) (h : ∀ s, s ∈ l ↔ s ∈ l') : a.SameHits l l' := by
  have hown (node : String) (s : Submission) : s ∈ a.own node l ↔ s ∈ a.own node l' := by
    rw [mem_own_iff, mem_own_iff, h]
  have htimes (node : String) (t : Instant) : t ∈ a.ownTimes node l ↔ t ∈ a.ownTimes node l' := by
    simp only [ownTimes, List.mem_mergeSort, List.mem_map, hown]
  have hstays (node : String) : Timeline.StaysInCalendar a.sync ((a.ownTimes node l).flatMap fun t => [t, t]) := by
    rw [← ownTimes_append_self]
    exact hl node
  refine (sameHits_iff he).2 ⟨fun node => ?_, fun node => ?_, fun node hits => ?_⟩
  · exact (Timeline.replay?_congr hsync (a.pairwise_ownTimes node l) (a.pairwise_ownTimes node l) (fun _ => .rfl)
      (hstays node)).1
  · exact (Timeline.replay?_congr hsync (a.pairwise_ownTimes node l) (a.pairwise_ownTimes node l') (htimes node)
      (hstays node)).1
  · have hreplay := (Timeline.replay?_congr hsync (a.pairwise_ownTimes node l) (a.pairwise_ownTimes node l')
      (htimes node) (hstays node)).2
    simp only [hown, hreplay]

/-- With a sync period below the tolerance the hits of a node are its submissions in the period, copies
included. -/
theorem hits_eq_length_own (hsync : a.sync.toNat < 5) (hl : a.StaysInCalendar l) :
    (Timeline.replay a.sync (a.ownTimes node l)).hits = (a.own node l).length := by
  rw [← length_ownTimes]
  exact Timeline.hits_replay_of_lt hsync (a.pairwise_ownTimes node l) (hl node)

theorem not_sameHits_cons (he : expectedCount a.sync a.period = .ok n) (hsync : a.sync.toNat < 5) {s : Submission}
    (hs : s ∈ l) (hperiod : a.period.contains s.submittedAt) : ¬a.SameHits l (s :: l) := by
  intro h
  obtain ⟨hl, hl', hsame⟩ := (sameHits_iff he).1 h
  have hown : s ∈ a.own (Identity.of a.ignoreIps s).id l := mem_own_iff.2 ⟨hs, hperiod, rfl⟩
  have hmore : a.own (Identity.of a.ignoreIps s).id (s :: l) = s :: a.own (Identity.of a.ignoreIps s).id l :=
    List.filter_cons_of_pos (by simp [hperiod])
  have hhits := ((hsame _ _).1 ⟨⟨s, hown⟩, rfl⟩).2
  rw [hits_eq_length_own hsync hl, hits_eq_length_own hsync hl', hmore, List.length_cons] at hhits
  omega

/-- Copies of submissions that are there already, put in anywhere, leave the hits of every node as they were,
exactly if the sync period is no shorter than the tolerance and the analysis does not break off with everything there
twice, or nothing was submitted in the period. -/
theorem repeats_count_once_iff (he : expectedCount a.sync a.period = .ok n) :
    (∀ l', l.Sublist l' → l' ⊆ l → a.SameHits l l') ↔
      (5 ≤ a.sync.toNat ∧ a.StaysInCalendar (l ++ l)) ∨ ∀ s ∈ l, ¬a.period.contains s.submittedAt := by
  constructor
  · intro h
    by_contra hnot
    simp only [not_or, not_forall, not_not] at hnot
    obtain ⟨hbroken, s, hs, hperiod⟩ := hnot
    have htwice : l ++ l ⊆ l := List.append_subset.2 ⟨List.Subset.refl l, List.Subset.refl l⟩
    have hstays := ((sameHits_iff he).1 (h (l ++ l) (List.sublist_append_left l l) htwice)).2.1
    have hsync : a.sync.toNat < 5 := Nat.lt_of_not_le fun hle => hbroken ⟨hle, hstays⟩
    -- One copy of a submission in the period is enough: it is one more hit.
    have hcopied : s :: l ⊆ l := List.cons_subset.2 ⟨hs, List.Subset.refl l⟩
    exact not_sameHits_cons he hsync hs hperiod (h (s :: l) (List.sublist_cons_self s l) hcopied)
  · rintro (⟨hsync, hstays⟩ | hnone) l' hsub hcopies
    · exact sameHits_of_mem_iff he hsync hstays fun s => ⟨fun hs => hsub.subset hs, fun hs => hcopies hs⟩
    · have hown {m : List Submission} (hm : m ⊆ l) (node : String) : a.own node m = [] := by
        refine List.filter_eq_nil_iff.2 fun s hs => ?_
        simp [hnone s (hm hs)]
      have hstays {m : List Submission} (hm : m ⊆ l) : a.StaysInCalendar m := by
        intro node
        rw [ownTimes, hown hm node]
        exact Timeline.staysInCalendar_of_forall (by simp)
      refine (sameHits_iff he).2 ⟨hstays (List.Subset.refl l), hstays hcopies, fun node hits => ?_⟩
      simp [hown (List.Subset.refl l) node, hown hcopies node]

section FirstHour

def firstHour (sync : UInt32) : Analysis :=
  ⟨⟨.epoch, ⟨3600, 0, by decide, Instant.zero_nanosInRange⟩, Period.nanosPerHour⟩, sync, true⟩

def atMidnight : Submission := { submitter := "alice" }

theorem staysInCalendar_replicate {sync : UInt32}
    (he : expectedCount (firstHour sync).sync (firstHour sync).period = .ok n) (k : Nat) :
    (firstHour sync).StaysInCalendar (List.replicate k atMidnight) := by
  refine staysInCalendar_of_isInner he fun s hs => ?_
  rw [List.eq_of_mem_replicate hs]
  exact ⟨by decide, by decide, by decide⟩

/-- A sync period of five minutes is long enough, and one of four is not. -/
theorem repeats_count_once_iff_firstHour :
    (expectedCount 5 (firstHour 5).period = .ok 12 ∧
      (firstHour 5).SameHits [atMidnight] [atMidnight, atMidnight, atMidnight]) ∧
    expectedCount 4 (firstHour 4).period = .ok 15 ∧
      ¬∀ l', [atMidnight].Sublist l' → l' ⊆ [atMidnight] → (firstHour 4).SameHits [atMidnight] l' := by
  have hfive : expectedCount (firstHour 5).sync (firstHour 5).period = .ok 12 := by decide
  have hfour : expectedCount (firstHour 4).sync (firstHour 4).period = .ok 15 := by decide
  have hstays : (firstHour 5).StaysInCalendar ([atMidnight] ++ [atMidnight]) :=
    staysInCalendar_replicate hfive 2
  refine ⟨⟨hfive, ?_⟩, hfour, fun hall => ?_⟩
  · exact (repeats_count_once_iff hfive).2 (.inl ⟨by decide, hstays⟩) _ (by decide) (by decide)
  · rcases (repeats_count_once_iff hfour).1 hall with ⟨hsync, -⟩ | hnone
    · exact absurd hsync (by decide)
    · exact hnone atMidnight (by decide) (by decide)

/-- A configuration with a sync period of one minute passes its checks, and under it a copy of the only submission
is a second hit. -/
theorem copy_counted_again :
    let c : AnalyzerConfig :=
      { networkName := "testnet", source := .directory "/data", period := { start := some .epoch, minutes := some 60 },
        syncMinutes := 1, output := { stdout := true } }
    let a : Analysis := firstHour c.syncMinutes.toUInt32
    c.check = .ok () ∧ Period.resolve c.period.start c.period.stop c.period.minutes .epoch = .ok a.period ∧
      expectedCount a.sync a.period = .ok 60 ∧
      ∃ rows rows', a.rows [atMidnight] = .ok rows ∧ a.rows [atMidnight, atMidnight] = .ok rows' ∧
        ∃ u ∈ rows, ∃ u' ∈ rows', u'.identity.id = u.identity.id ∧ u.hits = 1 ∧ u'.hits = 2 := by
  intro c a
  have he : expectedCount a.sync a.period = .ok 60 := by decide
  have hown (k : Nat) : a.own (Identity.of true atMidnight).id (List.replicate k atMidnight) =
      List.replicate k atMidnight := by
    have hperiod : a.period.contains atMidnight.submittedAt := by decide
    refine List.filter_eq_self.2 fun s hs => ?_
    rw [List.eq_of_mem_replicate hs]
    exact decide_eq_true ⟨hperiod, rfl⟩
  have hrow (k : Nat) (hk : 0 < k) : ∃ rows, a.rows (List.replicate k atMidnight) = .ok rows ∧
      ∃ u ∈ rows, u.identity.id = (Identity.of true atMidnight).id ∧ u.hits = k := by
    have hstays : a.StaysInCalendar (List.replicate k atMidnight) := staysInCalendar_replicate he k
    obtain ⟨rows, hr⟩ := (exists_rows_iff he).2 hstays
    refine ⟨rows, hr, (exists_hits_iff he hr).2 ⟨⟨atMidnight, ?_⟩, ?_⟩⟩
    · rw [hown]
      exact List.mem_replicate.2 ⟨Nat.ne_of_gt hk, rfl⟩
    · rw [hits_eq_length_own (by decide) hstays, hown, List.length_replicate]
  obtain ⟨rows, hr, u, hu, hid, hhits⟩ := hrow 1 (by decide)
  obtain ⟨rows', hr', u', hu', hid', hhits'⟩ := hrow 2 (by decide)
  exact ⟨by decide +kernel, by decide +kernel, he, rows, rows', hr, hr', u, hu, u', hu', hid'.trans hid.symm, hhits,
    hhits'⟩

end FirstHour

end Analysis

end Rollcall
