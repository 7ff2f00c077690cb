import Mathlib.Data.List.Sort
import Rollcall.Proofs.Analysis.Period
import Rollcall.Proofs.Analysis.Uptime
import Rollcall.Proofs.Number.Binary64

/-! A node that submits at every turn of the sync period reaches full uptime. Its submissions at the turns are
one choice with the gap between each and the next, and the hits are no fewer than the submissions of any such
choice, whatever else was submitted in between. At least as many turns lie in the period as submissions are
expected, since both divisions of the expected count cut down. -/

namespace Rollcall

theorem percent_eq_of_le {hits n : Nat} (h0 : 0 < n) (hn : 100 * n < 2 ^ 53) (h : n ≤ hits) :
    percent hits n = .ofNat 100 := by
  rw [percent, if_neg h0.ne']
  refine Binary64.Reaches.least (Binary64.Reaches.dividedBy (by decide) h0 hn ?_)
  rw [Nat.mul_comm]
  exact Binary64.Reaches.times h0 (by omega) (by decide) (by decide) (Binary64.reaches_ofNat (by omega) h)

namespace Analysis

variable {a : Analysis} {node : String} {l : List Submission} {n : Nat}

/-- The nanoseconds from the start of the period to the turn after so many others. -/
def turn (sync : UInt32) (k : Nat) : Int := k * sync.toNat * Period.nanosPerMinute

theorem turn_gap (sync : UInt32) {i k : Nat} (h : i < k) : turn sync i + Timeline.gap sync < turn sync k := by
  have hnext : ((i + 1) * sync.toNat : Int) ≤ k * sync.toNat := by exact_mod_cast Nat.mul_le_mul_right _ h
  simp only [turn, Timeline.gap, Timeline.tolerance, Period.nanosPerMinute, billion]
  rw [Int.add_mul] at hnext
  omega

theorem turn_lt_turn {sync : UInt32} (hs : 0 < sync.toNat) {i k : Nat} :
    turn sync i < turn sync k ↔ i < k := by
  have hmul : (i * sync.toNat : Int) < k * sync.toNat ↔ i < k := by
    exact_mod_cast Nat.mul_lt_mul_right hs
  rw [← hmul]
  simp only [turn, Period.nanosPerMinute, billion]
  omega

theorem turn_nonneg (sync : UInt32) (k : Nat) : 0 ≤ turn sync k := by
  have h0 : (0 : Int) ≤ k * sync.toNat := by exact_mod_cast Nat.zero_le _
  simp only [turn, Period.nanosPerMinute, billion]
  omega

/-- The node submits at every turn in the period. -/
def IsLive (a : Analysis) (node : String) (l : List Submission) : Prop :=
  ∀ (k : Nat) (t : Instant), a.period.start.add? (turn a.sync k) = some t → t < a.period.stop →
    ∃ s ∈ l, s.submittedAt = t ∧ (Identity.of a.ignoreIps s).id = node

theorem expectedCount_ok (he : expectedCount a.sync a.period = .ok n) :
    0 < n ∧ 0 < a.sync.toNat ∧ n = 60 / a.sync.toNat * a.period.hours.toNat := by
  by_cases hs : a.sync = 0
  · simp [expectedCount, hs] at he
  · have hpos : a.sync.toNat ≠ 0 := fun h => hs (UInt32.toNat_inj.1 h)
    simp only [expectedCount, if_neg hs] at he
    split at he
    · cases he
    · rename_i hn
      cases he
      exact ⟨Nat.pos_of_ne_zero hn, Nat.pos_of_ne_zero hpos, rfl⟩

theorem hours_le {p : Period} (h : 0 < p.hours) : p.hours * Period.nanosPerHour ≤ p.interval := by
  have hi : 0 ≤ p.interval := by
    by_contra hneg
    have hneg : 0 ≤ (-p.interval).tdiv Period.nanosPerHour := Int.tdiv_nonneg (by omega) (by decide)
    rw [Int.neg_tdiv] at hneg
    rw [Period.hours] at h
    omega
  rw [Period.hours, Int.tdiv_eq_ediv_of_nonneg hi]
  exact Int.ediv_mul_le _ (by decide)

/-- The turns of the expected submissions fit into the interval. -/
theorem turn_expected_le (he : expectedCount a.sync a.period = .ok n) : turn a.sync n ≤ a.period.interval := by
  obtain ⟨hn, hs, heq⟩ := expectedCount_ok he
  have hh : 0 < a.period.hours := by
    by_contra h
    have h0 : a.period.hours.toNat = 0 := Int.toNat_of_nonpos (by omega)
    rw [h0] at heq
    omega
  have hminutes : n * a.sync.toNat ≤ 60 * a.period.hours.toNat := by
    calc n * a.sync.toNat = 60 / a.sync.toNat * a.sync.toNat * a.period.hours.toNat := by rw [heq]; ring
      _ ≤ 60 * a.period.hours.toNat := Nat.mul_le_mul_right _ (Nat.div_mul_le_self _ _)
  have := hours_le hh
  have hcast : (n * a.sync.toNat : Int) ≤ 60 * a.period.hours := by
    rw [← Int.toNat_of_nonneg hh.le]
    exact_mod_cast hminutes
  simp only [turn, Period.nanosPerHour, Period.nanosPerMinute, billion] at *
  omega

section Turns

variable (hi : a.period.interval = a.period.stop.sub a.period.start)
  (hstart : a.period.start.isLeap = false) (hstop : a.period.stop.isLeap = false)
  (he : expectedCount a.sync a.period = .ok n)

include hi hstart hstop he

theorem turn_lt {k : Nat} (hk : k < n) :
    a.period.start.unixNanos + turn a.sync k < a.period.stop.unixNanos := by
  have hle := turn_expected_le he
  rw [hi, Instant.sub_eq hstop hstart] at hle
  have := (turn_lt_turn (expectedCount_ok he).2.1).2 hk
  omega

theorem exists_turn {k : Nat} (hk : k < n) :
    ∃ t, a.period.start.add? (turn a.sync k) = some t ∧ t.isLeap = false ∧
      t.unixNanos = a.period.start.unixNanos + turn a.sync k ∧ a.period.contains t := by
  have h0 := turn_nonneg a.sync k
  have hlt := turn_lt hi hstart hstop he hk
  have hstarts := a.period.start.inRange
  have hstops := a.period.stop.inRange
  have := Instant.nanos_lt_billion hstart
  have := Instant.nanos_lt_billion hstop
  obtain ⟨t, hadd, hleap, hnanos⟩ := Instant.add?_eq (d := turn a.sync k) hstart (by
    simp only [Instant.unixNanos, billion] at *
    omega) (by
    simp only [Instant.unixNanos, billion] at *
    omega)
  refine ⟨t, hadd, hleap, hnanos, Period.contains_iff.2 ⟨?_, ?_⟩⟩
  · rw [Instant.le_iff_unixNanos hstart hleap]
    omega
  · rw [Instant.lt_iff_unixNanos hleap hstop]
    omega

/-- The submissions of a live node hold a choice of as many as are expected. -/
theorem IsLive.exists_spaced (hlive : a.IsLive node l) :
    ∃ c, c.Sublist (a.ownTimes node l) ∧ Timeline.Spaced a.sync c ∧ c.length = n := by
  have hturn : ∀ k : Fin n, ∃ t, a.period.start.add? (turn a.sync k) = some t ∧ t.isLeap = false ∧
      t.unixNanos = a.period.start.unixNanos + turn a.sync k ∧ a.period.contains t :=
    fun k => exists_turn hi hstart hstop he k.isLt
  choose t hadd hleap hnanos hin using hturn
  have hlt : (List.ofFn t).Pairwise fun b c => b < c ∧ Timeline.gap a.sync < c.sub b := by
    refine List.pairwise_ofFn.2 fun i k hik => ?_
    have hgap := turn_gap a.sync hik
    rw [Instant.lt_iff_unixNanos (hleap i) (hleap k), Instant.sub_eq (hleap k) (hleap i), hnanos, hnanos]
    have hlt := (turn_lt_turn (expectedCount_ok he).2.1).2 hik
    omega
  refine ⟨List.ofFn t, ?_, (hlt.imp And.right).isChain, List.length_ofFn⟩
  have hmem : List.ofFn t ⊆ a.ownTimes node l := by
    intro u hu
    obtain ⟨k, rfl⟩ := List.mem_ofFn.1 hu
    obtain ⟨s, hs, hst, hid⟩ := hlive k (t k) (hadd k) (Period.contains_iff.1 (hin k)).2
    rw [ownTimes, List.mem_mergeSort]
    exact List.mem_map.2 ⟨s, by simp [own, hs, hst, hin k, hid], hst⟩
  have hnodup : (List.ofFn t).Nodup := hlt.imp fun h => (Std.ne_of_lt h.1)
  have hsorted : (a.ownTimes node l).Pairwise (· ≤ ·) := pairwise_mergeSort_key id _
  exact List.sublist_of_subperm_of_pairwise (List.subperm_of_subset hnodup hmem)
    (hlt.imp fun h => Std.le_of_lt h.1) hsorted

/-- The calendar is too short for more submissions than the format of percentages can tell apart. -/
theorem expected_lt : 100 * n < 2 ^ 53 := by
  obtain ⟨-, hs, -⟩ := expectedCount_ok he
  have hle := turn_expected_le he
  rw [hi, Instant.sub_eq hstop hstart] at hle
  have hn : (n : Int) ≤ n * a.sync.toNat := by exact_mod_cast Nat.le_mul_of_pos_right n hs
  have hstarts := a.period.start.inRange
  have hstops := a.period.stop.inRange
  have := Instant.nanos_lt_billion hstop
  simp only [turn, Period.nanosPerMinute, Instant.unixNanos, billion] at *
  omega

end Turns

/-- For a live node analysis reports at least the expected hits, and full uptime, whatever else was submitted
and in whatever order. The interval of a period is the time from its start to its end, as
`Period.resolve_interval` says for the periods that are used. -/
theorem live_reaches_full (he : expectedCount a.sync a.period = .ok n)
    (hi : a.period.interval = a.period.stop.sub a.period.start) (hstart : a.period.start.isLeap = false)
    (hstop : a.period.stop.isLeap = false) (hl : ∀ s ∈ l, s.submittedAt.IsInner) (hlive : a.IsLive node l) :
    ∃ rows, a.rows l = .ok rows ∧ (∃ u ∈ rows, u.identity.id = node) ∧
      ∀ u ∈ rows, u.identity.id = node →
        u.expected = n ∧ u.expected ≤ u.hits ∧ u.percent = .ofNat 100 := by
  obtain ⟨hn, -, -⟩ := expectedCount_ok he
  obtain ⟨rows, hr⟩ := (exists_rows_iff he).2 (staysInCalendar_of_isInner he hl)
  refine ⟨rows, hr, ?_, ?_⟩
  · -- the submission at the start
    obtain ⟨t, hadd, -, -, hin⟩ := exists_turn hi hstart hstop he hn
    obtain ⟨s, hs, rfl, hid⟩ := hlive 0 t hadd (Period.contains_iff.1 hin).2
    obtain ⟨u, hu, huid⟩ := exists_row he hr hs hin
    exact ⟨u, hu, huid.trans hid⟩
  · intro u hu hid
    obtain ⟨c, hc, hspaced, hlen⟩ := hlive.exists_spaced hi hstart hstop he
    have hinner : ∀ t ∈ a.ownTimes node l, t.IsInner := by
      intro t ht
      obtain ⟨s, hs, rfl⟩ := a.mem_ownTimes _ l ht
      exact hl s hs
    obtain ⟨-, hreplay, hexpected⟩ := exists_of_mem_rows he hr hu
    have hhits : n ≤ u.hits := by
      rw [hreplay, hid]
      exact (Timeline.isGreatest_hits_replay (sync_le he) hinner (pairwise_mergeSort_key id _)).2
        ⟨c, hc, hspaced, hlen⟩
    refine ⟨hexpected, hexpected.symm ▸ hhits, ?_⟩
    rw [Uptime.percent, hexpected]
    exact percent_eq_of_le hn (expected_lt hi hstart hstop he) hhits

/-- Two submissions, the later one first, within an hour that expects two. -/
theorem live_reaches_full_hour :
    let a : Analysis := ⟨⟨.epoch, ⟨3600, 0, by decide, by decide⟩, Period.nanosPerHour⟩, 30, true⟩
    let l : List Submission := [{ submittedAt := ⟨1800, 0, by decide, by decide⟩ }, {}]
    let node := (Identity.of true {}).id
    (expectedCount a.sync a.period = .ok 2 ∧ a.period.interval = a.period.stop.sub a.period.start ∧
      a.period.start.isLeap = false ∧ a.period.stop.isLeap = false ∧ (∀ s ∈ l, s.submittedAt.IsInner) ∧
      a.IsLive node l) ∧
    ∃ rows, a.rows l = .ok rows ∧ ∃ u ∈ rows, 2 ≤ u.hits ∧ u.percent = .ofNat 100 := by
  intro a l node
  have he : expectedCount a.sync a.period = .ok 2 := by decide
  have hl : ∀ s ∈ l, s.submittedAt.IsInner := by
    intro s hs
    rcases List.mem_pair.1 hs with rfl | rfl <;> exact ⟨by decide, by decide, by decide⟩
  have hlive : a.IsLive node l := by
    intro k t hadd hlt
    obtain ⟨hleap, hnanos⟩ := Instant.of_add?_eq (by decide) hadd
    have hk : k < 2 := by
      have hsync : 0 < (30 : UInt32).toNat := by decide
      refine (turn_lt_turn hsync).1 ?_
      have hstop : a.period.start.unixNanos + turn 30 2 = a.period.stop.unixNanos := by decide
      rw [Instant.lt_iff_unixNanos hleap (by decide), hnanos, ← hstop] at hlt
      exact Int.lt_of_add_lt_add_left hlt
    -- the turn is the start or half an hour later
    have hk2 : k = 0 ∨ k = 1 := by omega
    rcases hk2 with rfl | rfl
    · exact ⟨{}, by simp [l], Option.some.inj (Eq.trans (by decide) hadd), rfl⟩
    · exact ⟨_, List.mem_cons_self, Option.some.inj (Eq.trans (by decide) hadd), rfl⟩
  obtain ⟨rows, hr, ⟨u, hu, hid⟩, hfull⟩ := live_reaches_full he (by decide) (by decide) (by decide) hl hlive
  obtain ⟨hexp, hhits, hpercent⟩ := hfull u hu hid
  exact ⟨⟨he, by decide, by decide, by decide, hl, hlive⟩, rows, hr, u, hu, hexp ▸ hhits, hpercent⟩

end Analysis

end Rollcall
