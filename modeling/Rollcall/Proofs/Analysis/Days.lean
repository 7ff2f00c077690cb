import Mathlib.Data.List.Chain
import Rollcall.Proofs.Analysis.Period
import Rollcall.Proofs.Time.Calendar

/-! The days of a period are the days that it touches, in order and with none left out. They are counted off
from the start to the last day before the end; a walk through the calendar, which takes one day after the other
as long as its midnight comes before the end, lists the same days and comes to an end. It may end because the
calendar does, so the last day of the calendar is one like any other. -/

namespace Rollcall.Period

variable {p : Period} {stop m t : Instant} {d : Int} {ds : List Int}

/-- A walk through the calendar that begins at a day, and the days that it lists. -/
inductive Walk (stop : Instant) : Int → List Int → Prop
  | arrived {d : Int} {m : Instant} (hm : midnight? d = some m) (hstop : stop ≤ m) : Walk stop d []
  | ranOut {d : Int} {m : Instant} (hm : midnight? d = some m) (hlt : m < stop) (hnext : midnight? (d + 1) = none) :
    Walk stop d [d]
  | onward {d : Int} {m : Instant} {ds : List Int} (hm : midnight? d = some m) (hlt : m < stop)
    (hnext : Walk stop (d + 1) ds) : Walk stop d (d :: ds)

section Walk

/-- The days from one day to another. -/
def daysTo (last d : Int) : List Int := (List.range (last + 1 - d).toNat).map fun (i : Nat) => d + i

theorem daysTo_of_lt {last : Int} (h : last < d) : daysTo last d = [] := by
  rw [daysTo, Int.toNat_of_nonpos (by omega)]
  rfl

theorem daysTo_of_le {last : Int} (h : d ≤ last) : daysTo last d = d :: daysTo last (d + 1) := by
  have hcount : (last + 1 - d).toNat = (last + 1 - (d + 1)).toNat + 1 := by omega
  rw [daysTo, daysTo, hcount, List.range_succ_eq_map, List.map_cons, List.map_map]
  refine congrArg₂ _ (by simp) (List.map_congr_left fun i _ => ?_)
  simp only [Function.comp_apply]
  omega

/-- No instant lies behind the last day of the calendar. -/
theorem day_le_of_last (hm : midnight? d = some m) (hnext : midnight? (d + 1) = none) (t : Instant) :
    t.day ≤ d := by
  by_contra hlt
  have hday := day_of_midnight? hm
  obtain ⟨m', hm'⟩ := exists_midnight? (s := m) (d := d + 1) (t := t) (by omega) (by omega)
  rw [hnext] at hm'
  contradiction

/-- From every day of the calendar the walk comes to an end. The number of days that are left decides how long it
is. -/
theorem walk_daysTo (hm : midnight? d = some m) : Walk stop d (daysTo (lastDayBefore stop) d) := by
  obtain ⟨n, hn⟩ : ∃ n, (lastDayBefore stop + 1 - d).toNat = n := ⟨_, rfl⟩
  induction n generalizing d m with
  | zero =>
    have hlast : lastDayBefore stop < d := by omega
    rw [daysTo_of_lt hlast]
    rw [← Int.not_le, ← midnight_lt_iff hm, Std.not_lt] at hlast
    exact .arrived hm hlast
  | succ n ih =>
    have hle : d ≤ lastDayBefore stop := by omega
    have hlt : m < stop := (midnight_lt_iff hm).2 hle
    rw [daysTo_of_le hle]
    rcases hnext : midnight? (d + 1) with _ | m'
    · have hlast := Int.le_trans (lastDayBefore_le stop) (day_le_of_last hm hnext stop)
      rw [daysTo_of_lt (by omega)]
      exact .ranOut hm hlt hnext
    · exact .onward hm hlt (ih hnext (by omega))

theorem Walk.eq_daysTo (h : Walk stop d ds) : ds = daysTo (lastDayBefore stop) d := by
  induction h with
  | arrived hm hstop =>
    rw [← Std.not_lt, midnight_lt_iff hm, Int.not_le] at hstop
    exact (daysTo_of_lt hstop).symm
  | ranOut hm hlt hnext =>
    have hlast := Int.le_trans (lastDayBefore_le stop) (day_le_of_last hm hnext stop)
    rw [daysTo_of_le ((midnight_lt_iff hm).1 hlt), daysTo_of_lt (by omega)]
  | onward hm hlt hnext ih => rw [daysTo_of_le ((midnight_lt_iff hm).1 hlt), ih]

/-- The walk from the start lists the days of the period and cannot list others. -/
theorem walk_iff : Walk p.stop p.start.day ds ↔ ds = p.days := by
  constructor
  · exact fun h => h.eq_daysTo
  · rintro rfl
    obtain ⟨m, hm⟩ := exists_midnight? (Int.le_refl p.start.day) (Int.le_refl p.start.day)
    exact walk_daysTo hm

/-- A walk takes one day after the other. -/
theorem Walk.isChain (h : Walk stop d ds) : (∀ e ∈ ds.head?, e = d) ∧ ds.IsChain fun d e => e = d + 1 := by
  induction h with
  | arrived => simp
  | ranOut => simp
  | onward hm hlt hnext ih =>
    obtain ⟨hhead, hchain⟩ := ih
    exact ⟨by simp, List.isChain_cons.2 ⟨hhead, hchain⟩⟩

end Walk

section Touched

theorem isChain_days (p : Period) : p.days.IsChain fun d e => e = d + 1 := (walk_iff.2 rfl).isChain.2

theorem days_pairwise_lt (p : Period) : p.days.Pairwise (· < ·) := by
  have hchain : p.days.IsChain (· < ·) := (isChain_days p).imp fun d e h => by omega
  exact List.isChain_iff_pairwise.1 hchain

/-- Of the first day the start is an instant of the period, of any other the midnight. -/
theorem exists_of_mem_days (h : p.start < p.stop) (hd : d ∈ p.days) : ∃ t, p.contains t ∧ t.day = d := by
  obtain ⟨hlo, hhi⟩ := mem_days.1 hd
  rcases Int.le_iff_lt_or_eq.1 hlo with hlt | rfl
  · obtain ⟨m, hm⟩ := exists_midnight? hlo (Int.le_trans hhi (lastDayBefore_le p.stop))
    have hstart : p.start ≤ m := by
      rw [← Std.not_lt]
      intro hbefore
      have hday := (midnight_le_iff hm).1 (Std.le_of_lt hbefore)
      omega
    exact ⟨m, contains_iff.2 ⟨hstart, (midnight_lt_iff hm).2 hhi⟩, day_of_midnight? hm⟩
  · exact ⟨p.start, contains_iff.2 ⟨Std.le_refl _, h⟩, rfl⟩

theorem mem_days_iff (h : p.start < p.stop) : d ∈ p.days ↔ ∃ t, p.contains t ∧ t.day = d := by
  constructor
  · exact exists_of_mem_days h
  · rintro ⟨t, ht, rfl⟩
    exact day_mem_days ht

theorem mem_dates_iff (h : p.start < p.stop) {c : Date} :
    c ∈ p.days.map Date.ofDay ↔ ∃ t, p.contains t ∧ t.date = c := by
  constructor
  · intro hc
    obtain ⟨d, hd, rfl⟩ := List.mem_map.1 hc
    obtain ⟨t, ht, rfl⟩ := (mem_days_iff h).1 hd
    exact ⟨t, ht, rfl⟩
  · rintro ⟨t, ht, rfl⟩
    exact List.mem_map.2 ⟨t.day, day_mem_days ht, rfl⟩

/-- The walk from the day of the start comes to an end and lists the days of the period, one after the other with
none left out; their dates ascend, and they are the dates of the instants from the start up to but not including
the end. A period that ends at midnight does not touch the day that begins then. -/
theorem days_touched (h : p.start < p.stop) :
    (∀ ds, Walk p.stop p.start.day ds ↔ ds = p.days) ∧ p.days.IsChain (fun d e => e = d + 1) ∧
      (p.days.map Date.ofDay).Pairwise Date.Before ∧
      (∀ c, c ∈ p.days.map Date.ofDay ↔ ∃ t, p.contains t ∧ t.date = c) ∧
      (p.stop.secondOfDay = 0 → p.stop.nanos = 0 → p.stop.date ∉ p.days.map Date.ofDay) := by
  refine ⟨fun ds => walk_iff, isChain_days p, ?_, fun c => mem_dates_iff h, fun hsecond hnanos hmem => ?_⟩
  · rw [List.pairwise_map]
    exact (days_pairwise_lt p).imp fun hlt => Date.before_ofDay hlt
  · obtain ⟨d, hd, hdate⟩ := List.mem_map.1 hmem
    obtain rfl : d = p.stop.day := Date.ofDay_injective hdate
    have hlast := (mem_days.1 hd).2
    rw [lastDayBefore, if_pos (by simp [hsecond, hnanos])] at hlast
    omega

/-- The last day and a half of the calendar. -/
theorem days_touched_lastDays :
    let p : Period := ⟨⟨8210266747200, 0, by decide, by decide⟩, ⟨8210266876799, 999999999, by decide, by decide⟩,
      129599999999999⟩
    p.start < p.stop ∧ Walk p.stop p.start.day [95026235, 95026236] ∧ midnight? 95026237 = none ∧
      p.days.map Date.ofDay = [⟨262142, 12, 30⟩, ⟨262142, 12, 31⟩] := by
  intro p
  have h : p.start < p.stop := by decide
  have hdays : p.days = [95026235, 95026236] := by decide
  obtain ⟨hwalk, -⟩ := days_touched h
  rw [hdays] at hwalk ⊢
  exact ⟨h, (hwalk _).2 rfl, by decide, by decide⟩

end Touched

end Rollcall.Period
