import Mathlib.Order.Bounds.Basic
import Rollcall.Proofs.Analysis.Period
import Rollcall.Proofs.Time.Calendar

/-! What comes of the bounds and the length that are asked for. A length is refused if it is not positive or
needs more than sixty-four bits in milliseconds; of the lengths that are left, one that two given bounds do not
have is a mismatch, and a bound that has to be found is out of range if the calendar has no such instant. In all
other cases there is a period, with all that was given in it, and with the last midnight or noon for its end if no
bound was given. Bounds are taken to lie outside leap seconds, where sums and differences are those of numbers. -/

namespace Rollcall

namespace Instant

variable {a b t now : Instant} {d : Int}

/-- Some instant outside leap seconds is so many nanoseconds after the epoch. -/
def InCalendar (n : Int) : Prop := ∃ t : Instant, t.isLeap = false ∧ t.unixNanos = n

theorem add?_eq_none_iff (ha : a.isLeap = false) : a.add? d = none ↔ ¬InCalendar (a.unixNanos + d) := by
  rw [InCalendar, ← not_iff_not, not_not, ← Ne, Option.ne_none_iff_exists']
  exact exists_congr fun t => add?_eq_some_iff ha

/-- Midnight or noon. -/
def IsHalfDay (t : Instant) : Prop := t.nanos = 0 ∧ (t.secondOfDay = 0 ∨ t.secondOfDay = 43200)

theorem isHalfDay_iff : t.IsHalfDay ↔ t.isLeap = false ∧ t.unixNanos % Period.defaultInterval = 0 := by
  have hday : t.IsHalfDay ↔ t.nanos = 0 ∧ t.seconds % 43200 = 0 := by
    simp only [IsHalfDay, secondOfDay, secondsPerDay]
    omega
  have hinterval : Period.defaultInterval = 43200 * billion := by decide
  rw [hday, hinterval]
  constructor
  · rintro ⟨hn, hs⟩
    refine ⟨decide_eq_false (by rw [hn]; decide), ?_⟩
    simp only [unixNanos, billion]
    omega
  · rintro ⟨hleap, hmod⟩
    have := nanos_lt_billion hleap
    simp only [unixNanos, billion] at *
    omega

end Instant

open Instant

theorem Date.day_bounds_of_year {n : Int} (hlo : 1678 ≤ (ofDay n).year) (hhi : (ofDay n).year ≤ 2261) :
    -106751 ≤ n ∧ n < 106751 := by
  obtain ⟨y, d, heq, rfl, hd, -⟩ := exists_marchDay n
  simp only [heq, ofMarch] at hlo hhi
  rw [marchDay]
  split_ifs at hlo hhi <;> omega

namespace Period

variable {p : Period} {a b : Option Instant} {minutes : Option Int} {now : Instant} {m : Int}

section HalfDay

/-- In the years whose nanoseconds can be counted in sixty-four bits the default end is found. -/
theorem isGreatest_defaultStop (hnow : now.isLeap = false) (hlo : 1678 ≤ now.date.year)
    (hhi : now.date.year ≤ 2261) : IsGreatest {t | t.IsHalfDay ∧ t ≤ now} (defaultStop now) := by
  obtain ⟨hday, hday'⟩ := Date.day_bounds_of_year hlo hhi
  have hnanos := nanos_lt_billion hnow
  have hfits : Decimal.fitsSigned now.unixNanos = true := by
    have hword : ((twoTo 63 : Nat) : Int) = 2 ^ 63 := by decide
    simp only [Decimal.fitsSigned, hword, Bool.and_eq_true, decide_eq_true_eq]
    simp only [unixNanos, Instant.day, secondsPerDay, billion] at *
    omega
  have hinterval : defaultInterval = 43200 * billion := by decide
  obtain ⟨e, hadd, hleap, hcount⟩ := Instant.add?_eq (d := -(now.unixNanos % defaultInterval)) hnow (by
    simp only [hinterval, unixNanos, Instant.day, secondsPerDay, billion] at *
    omega) (by
    simp only [hinterval, unixNanos, Instant.day, secondsPerDay, billion] at *
    omega)
  have hstop : defaultStop now = e := by rw [defaultStop, if_pos hfits, hadd, Option.getD_some]
  rw [hstop]
  constructor
  · refine ⟨isHalfDay_iff.2 ⟨hleap, ?_⟩, (Instant.le_iff_unixNanos hleap hnow).2 ?_⟩
    · rw [hcount, hinterval]
      simp only [billion]
      omega
    · rw [hcount, hinterval]
      simp only [billion]
      omega
  · rintro t ⟨hhalf, hle⟩
    obtain ⟨htleap, hmod⟩ := isHalfDay_iff.1 hhalf
    rw [Instant.le_iff_unixNanos htleap hnow] at hle
    rw [Instant.le_iff_unixNanos htleap hleap, hcount]
    rw [hinterval] at *
    simp only [billion] at *
    omega

end HalfDay

section Length

/-- So many minutes are more milliseconds than a number of sixty-four bits with a sign can tell. -/
def TooLong (m : Int) : Prop := twoTo 63 ≤ m * 60000

theorem mostMinutes_lt_iff : mostMinutes < m ↔ TooLong m := by
  have hmost : mostMinutes = 153722867280912 := by decide
  have hbound : (twoTo 63 : Int) = 9223372036854775808 := by decide
  rw [hmost, TooLong, hbound]
  omega

theorem readInterval_eq_nonPositive_iff :
    readInterval minutes = .error (.nonPositive m) ↔ minutes = some m ∧ m ≤ 0 := by
  cases minutes with
  | none => simp [readInterval]
  | some k =>
    rw [readInterval]
    split
    · simp only [Except.error.injEq, PeriodError.nonPositive.injEq, Option.some.injEq]
      constructor
      · rintro rfl
        exact ⟨rfl, by assumption⟩
      · exact And.left
    · split <;> simp <;> omega

theorem readInterval_eq_outOfRange_iff :
    readInterval minutes = .error .outOfRange ↔ ∃ m, minutes = some m ∧ TooLong m := by
  cases minutes with
  | none => simp [readInterval]
  | some k =>
    simp only [Option.some.injEq, exists_eq_left', ← mostMinutes_lt_iff, readInterval]
    have hpos : 0 ≤ mostMinutes := by decide
    split
    · simp
      omega
    · split
      · simpa
      · simp
        omega

theorem readable_iff : Readable minutes ↔ ∀ m, minutes = some m → 0 < m ∧ ¬TooLong m := by
  cases minutes with
  | none => simp [Readable, readInterval]
  | some k =>
    simp only [Option.some.injEq, forall_eq', ← mostMinutes_lt_iff, Readable, readInterval]
    split
    · simp
      omega
    · split
      · simp
        omega
      · simp
        omega

theorem Readable.ne_error (h : Readable minutes) (e : PeriodError) : readInterval minutes ≠ .error e := by
  rw [Readable] at h
  rw [h]
  nofun

end Length

section Resolve

variable {start stop : Instant} {d : Int}

theorem fromStart_eq_outOfRange_iff : fromStart start d = .error .outOfRange ↔ start.add? d = none := by
  rw [fromStart, shift]
  cases start.add? d <;> simp [bind, Except.bind, pure, Except.pure]

theorem upTo_eq_outOfRange_iff : upTo stop d = .error .outOfRange ↔ stop.add? (-d) = none := by
  rw [upTo, shift]
  cases stop.add? (-d) <;> simp [bind, Except.bind, pure, Except.pure]

/-- The end, given or else the last midnight or noon. -/
def IsEnd (b : Option Instant) (now stop : Instant) : Prop :=
  b = some stop ∨ b = none ∧ IsGreatest {t | t.IsHalfDay ∧ t ≤ now} stop

/-- The bound that has to be found is one that the calendar does not have. -/
inductive Unreachable (a b : Option Instant) (minutes : Option Int) (now : Instant) : Prop
  | stop (start : Instant) (ha : a = some start) (hb : b = none)
      (hout : ¬InCalendar (start.unixNanos + lengthOf minutes))
  | start (stop : Instant) (ha : a = none) (hend : IsEnd b now stop)
      (hout : ¬InCalendar (stop.unixNanos - lengthOf minutes))

theorem not_unreachable_between : ¬Unreachable (some start) (some stop) minutes now := by
  intro h
  cases h with
  | stop _ _ hb => cases hb
  | start _ ha => cases ha

theorem unreachable_forward_iff : Unreachable (some start) none minutes now ↔
    ¬InCalendar (start.unixNanos + lengthOf minutes) := by
  constructor
  · intro h
    cases h with
    | stop _ ha _ hout => exact Option.some.inj ha ▸ hout
    | start _ ha => cases ha
  · exact .stop start rfl rfl

theorem lengthOf_some (m : Int) : lengthOf (some m) = m * nanosPerMinute := rfl

theorem lengthOf_none : lengthOf none = defaultInterval := rfl

/-- Whatever is given is in the period, and the default length otherwise, unless both bounds are given. -/
theorem given_of_resolve (h : resolve a b minutes now = .ok p) :
    (∀ t, a = some t → p.start = t) ∧ (∀ t, b = some t → p.stop = t) ∧
      (∀ m, minutes = some m → p.interval = m * nanosPerMinute) ∧
      (minutes = none → a = none ∨ b = none → p.interval = defaultInterval) ∧
      (a = none → p.stop = b.getD (defaultStop now)) := by
  have hways := resolved a b minutes now
  rw [h] at hways
  cases hways with
  | refused _ _ hr => cases hr
  | between s e hs he hr hread hagree =>
    cases hr
    subst hs he
    exact ⟨fun _ => Option.some.inj, fun _ => Option.some.inj, hagree, by simp, by simp⟩
  | mismatched _ _ _ _ _ _ _ hr => cases hr
  | forward s hs he hr =>
    obtain ⟨hstart, hinterval, -⟩ := fromStart_ok hr
    subst hs he
    refine ⟨fun _ ht => hstart.trans (Option.some.inj ht), by simp, ?_, ?_, by simp⟩
    · rintro m rfl
      rw [hinterval, lengthOf_some]
    · rintro rfl -
      rw [hinterval, lengthOf_none]
  | backward hs hr =>
    obtain ⟨hend, hinterval, -⟩ := upTo_ok hr
    subst hs
    refine ⟨by simp, ?_, ?_, ?_, fun _ => hend⟩
    · rintro t rfl
      exact hend
    · rintro m rfl
      rw [hinterval, lengthOf_some]
    · rintro rfl -
      rw [hinterval, lengthOf_none]

theorem resolve_eq_nonPositive_iff :
    resolve a b minutes now = .error (.nonPositive m) ↔ minutes = some m ∧ m ≤ 0 := by
  rw [← readInterval_eq_nonPositive_iff]
  have hways := resolved a b minutes now
  generalize resolve a b minutes now = r at hways
  cases hways with
  | refused e hread hr => rw [hr, hread]; simp
  | between _ _ _ _ hr hread => exact iff_of_false (by simp [hr]) (hread.ne_error _)
  | mismatched _ _ _ _ _ _ _ hr hread => exact iff_of_false (by simp [hr]) (hread.ne_error _)
  | forward _ _ _ hr hread => exact iff_of_false (fun h => nomatch fromStart_error (hr.trans h)) (hread.ne_error _)
  | backward _ hr hread => exact iff_of_false (fun h => nomatch upTo_error (hr.trans h)) (hread.ne_error _)

theorem resolve_eq_mismatch_iff : resolve a b minutes now = .error (.mismatch start stop m) ↔
    a = some start ∧ b = some stop ∧ minutes = some m ∧ Readable minutes ∧
      stop.sub start ≠ m * nanosPerMinute := by
  have hways := resolved a b minutes now
  generalize resolve a b minutes now = r at hways
  cases hways with
  | refused e hread hr =>
    refine iff_of_false (fun h => ?_) (fun h => h.2.2.2.1.ne_error e hread)
    obtain rfl : e = .mismatch start stop m := Except.error.inj (hr.symm.trans h)
    rcases readInterval_error hread with ⟨_, _, _, he⟩ | he <;> contradiction
  | between s e ha hb hr hread hagree =>
    refine iff_of_false (by simp [hr]) ?_
    rintro ⟨hs, he, hm, -, hne⟩
    obtain rfl := Option.some.inj (ha.symm.trans hs)
    obtain rfl := Option.some.inj (hb.symm.trans he)
    exact hne (hagree m hm)
  | mismatched s e k ha hb hm hne hr hread =>
    rw [hr, ha, hb, hm]
    constructor
    · rintro ⟨⟩
      exact ⟨rfl, rfl, rfl, hm ▸ hread, hne⟩
    · rintro ⟨⟨⟩, ⟨⟩, ⟨⟩, -⟩
      rfl
  | forward s ha hb hr => exact iff_of_false (fun h => nomatch fromStart_error (hr.trans h)) (by simp [hb])
  | backward ha hr => exact iff_of_false (fun h => nomatch upTo_error (hr.trans h)) (by simp [ha])

section Bounds

variable (ha : ∀ t, a = some t → t.isLeap = false) (hb : ∀ t, b = some t → t.isLeap = false)
  (hstop : IsGreatest {t | t.IsHalfDay ∧ t ≤ now} (defaultStop now))

include hstop

/-- There is one end. -/
theorem isEnd_iff : IsEnd b now stop ↔ stop = b.getD (defaultStop now) := by
  cases b with
  | some t => simp [IsEnd, eq_comm]
  | none =>
    simp only [IsEnd, reduceCtorEq, true_and, false_or, Option.getD_none]
    constructor
    · intro h
      exact Std.le_antisymm (hstop.2 h.1) (h.2 hstop.1)
    · rintro rfl
      exact hstop

theorem unreachable_backward_iff : Unreachable none b minutes now ↔
    ¬InCalendar ((b.getD (defaultStop now)).unixNanos - lengthOf minutes) := by
  constructor
  · intro h
    cases h with
    | stop _ ha => cases ha
    | start stop _ hend hout => exact (isEnd_iff hstop).1 hend ▸ hout
  · exact .start _ rfl ((isEnd_iff hstop).2 rfl)

include hb

theorem isLeap_end : (b.getD (defaultStop now)).isLeap = false := by
  cases b with
  | some t => exact hb t rfl
  | none => exact (isHalfDay_iff.1 hstop.1.1).1

include ha

theorem resolve_eq_outOfRange_iff : resolve a b minutes now = .error .outOfRange ↔
    (∃ m, minutes = some m ∧ TooLong m) ∨ Readable minutes ∧ Unreachable a b minutes now := by
  rw [← readInterval_eq_outOfRange_iff]
  have hways := resolved a b minutes now
  generalize resolve a b minutes now = r at hways
  cases hways with
  | refused e hread hr =>
    have hrefused : ¬Readable minutes := fun h => h.ne_error e hread
    rw [hr, hread]
    simp [hrefused]
  | between s e hs he hr hread =>
    subst hs he
    simp [hr, hread.ne_error, not_unreachable_between]
  | mismatched s e k hs he hm hne hr hread =>
    subst hs he
    simp [hr, hread.ne_error, not_unreachable_between]
  | forward s hs he hr hread =>
    subst hs he
    rw [← hr, fromStart_eq_outOfRange_iff, add?_eq_none_iff (ha s rfl), unreachable_forward_iff]
    simp [hread, hread.ne_error]
  | backward hs hr hread =>
    subst hs
    rw [← hr, upTo_eq_outOfRange_iff, add?_eq_none_iff (isLeap_end hb hstop), ← Int.sub_eq_add_neg,
      unreachable_backward_iff hstop]
    simp [hread, hread.ne_error]

/-- The end of a period that is found is as far from its start as the interval says. -/
theorem add?_interval_of_resolve (h : resolve a b minutes now = .ok p) :
    p.start.add? p.interval = some p.stop := by
  have hways := resolved a b minutes now
  rw [h] at hways
  cases hways with
  | refused _ _ hr => cases hr
  | between s e hs he hr =>
    cases hr
    rw [add?_eq_some_iff (ha s hs), sub_eq (hb e he) (ha s hs)]
    exact ⟨hb e he, by dsimp only; omega⟩
  | mismatched _ _ _ _ _ _ _ hr => cases hr
  | forward s hs _ hr =>
    obtain ⟨rfl, hinterval, hadd⟩ := fromStart_ok hr
    rw [hinterval, hadd]
  | backward _ hr =>
    have hleap := isLeap_end hb hstop
    obtain ⟨hend, hinterval, hadd⟩ := upTo_ok hr
    obtain ⟨hstart, hcount⟩ := of_add?_eq hleap hadd
    rw [add?_eq_some_iff hstart, hend, hinterval]
    exact ⟨hleap, by omega⟩

end Bounds

/-- The bounds and the length that are asked for, outside leap seconds and at a time whose nanoseconds can be
counted in sixty-four bits, are refused for exactly these reasons, the first one that applies: the length is not
positive, it is too long, it is not that of the two bounds, the bound that has to be found is not in the calendar.
Otherwise the period has what was given, its end is as far from its start as its interval says, and what was left
open is twelve hours and the last midnight or noon. -/
theorem resolve_exact (a b : Option Instant) (minutes : Option Int) {now : Instant}
    (ha : ∀ t, a = some t → t.isLeap = false) (hb : ∀ t, b = some t → t.isLeap = false)
    (hnow : now.isLeap = false) (hlo : 1678 ≤ now.date.year) (hhi : now.date.year ≤ 2261) :
    (∀ m, resolve a b minutes now = .error (.nonPositive m) ↔ minutes = some m ∧ m ≤ 0) ∧
    (∀ start stop m, resolve a b minutes now = .error (.mismatch start stop m) ↔
      a = some start ∧ b = some stop ∧ minutes = some m ∧ 0 < m ∧ ¬TooLong m ∧
        stop.unixNanos - start.unixNanos ≠ m * nanosPerMinute) ∧
    (resolve a b minutes now = .error .outOfRange ↔ (∃ m, minutes = some m ∧ TooLong m) ∨
      (∀ m, minutes = some m → 0 < m ∧ ¬TooLong m) ∧ Unreachable a b minutes now) ∧
    ∀ p, resolve a b minutes now = .ok p → p.start.add? p.interval = some p.stop ∧
      (∀ t, a = some t → p.start = t) ∧ (∀ t, b = some t → p.stop = t) ∧
      (∀ m, minutes = some m → p.interval = m * nanosPerMinute) ∧
      (minutes = none → a = none ∨ b = none → p.interval = 12 * 60 * nanosPerMinute) ∧
      (a = none → b = none → IsGreatest {t | t.IsHalfDay ∧ t ≤ now} p.stop) := by
  have hstop := isGreatest_defaultStop hnow hlo hhi
  refine ⟨fun m => resolve_eq_nonPositive_iff, fun start stop m => ?_, ?_, fun p hp => ?_⟩
  · rw [resolve_eq_mismatch_iff, readable_iff]
    constructor
    · rintro ⟨hs, he, hm, hread, hne⟩
      rw [sub_eq (hb stop he) (ha start hs)] at hne
      exact ⟨hs, he, hm, (hread m hm).1, (hread m hm).2, hne⟩
    · rintro ⟨hs, he, rfl, hpos, hfits, hne⟩
      rw [← sub_eq (hb stop he) (ha start hs)] at hne
      exact ⟨hs, he, rfl, fun k hk => Option.some.inj hk ▸ ⟨hpos, hfits⟩, hne⟩
  · rw [resolve_eq_outOfRange_iff ha hb hstop, readable_iff]
  · obtain ⟨hstart, hend, hlength, hdefault, hfound⟩ := given_of_resolve hp
    refine ⟨add?_interval_of_resolve ha hb hstop hp, hstart, hend, hlength, hdefault, ?_⟩
    rintro rfl rfl
    rw [hfound rfl]
    exact hstop

/-- Half a day does not fit behind the last second of the calendar; half a second before the epoch the last noon
lies behind. -/
theorem resolve_exact_edges :
    let lastSecond : Instant := ⟨8210266876799, 0, by decide, by decide⟩
    let now : Instant := ⟨-1, 500000000, by decide, by decide⟩
    let p : Period := ⟨⟨-46800, 0, by decide, by decide⟩, ⟨-43200, 0, by decide, by decide⟩, 60 * nanosPerMinute⟩
    ((∀ t, some lastSecond = some t → t.isLeap = false) ∧ now.isLeap = false ∧ 1678 ≤ now.date.year ∧
      now.date.year ≤ 2261) ∧
    (resolve (some lastSecond) none none now = .error .outOfRange ∧ Unreachable (some lastSecond) none none now) ∧
    resolve none none (some 60) now = .ok p ∧ p.start.add? p.interval = some p.stop ∧
      IsGreatest {t | t.IsHalfDay ∧ t ≤ now} p.stop := by
  intro lastSecond now p
  have ha : ∀ t, some lastSecond = some t → t.isLeap = false := by
    rintro t ⟨⟩
    decide
  have hnow : now.isLeap = false := by decide
  have hlo : 1678 ≤ now.date.year := by decide
  have hhi : now.date.year ≤ 2261 := by decide
  have hlate : resolve (some lastSecond) none none now = .error .outOfRange := by decide +kernel
  have hp : resolve none none (some 60) now = .ok p := by decide +kernel
  obtain ⟨-, -, hout, -⟩ := resolve_exact (some lastSecond) none none ha (by simp) hnow hlo hhi
  obtain ⟨-, -, -, hok⟩ := resolve_exact none none (some 60) (by simp) (by simp) hnow hlo hhi
  refine ⟨⟨ha, hnow, hlo, hhi⟩, ⟨hlate, ?_⟩, hp, (hok p hp).1, (hok p hp).2.2.2.2.2 rfl rfl⟩
  rcases hout.1 hlate with ⟨m, hm, -⟩ | ⟨-, h⟩
  · cases hm
  · exact h

end Resolve

end Period

end Rollcall
