import Rollcall.Config.Analyzer
import Rollcall.Proofs.Analysis.Period
import Rollcall.Analysis.Run
import Rollcall.Analysis.Uptime

/-! What the checks of a configured analysis are good for. They look at the period as far as it is given and at
the minutes between two submissions; whatever else of the period is found at whatever time, it lasts for an hour
at least, and in each hour a submission is expected. -/

namespace Rollcall

namespace Config

section Check

variable {e : ConfigError} {x rest : Check}

theorem throw_bind : (do throw e; rest : Check) = throw e := rfl

theorem throw_ne_ok : (throw e : Check) ≠ .ok () := nofun

/-- What passes a guard and the rest of a check. -/
theorem guard_eq_ok_iff {c : Prop} [Decidable c] :
    (if c then throw e else rest) = .ok () ↔ ¬c ∧ rest = .ok () := by
  by_cases h : c <;> simp [h, throw_ne_ok]

theorem bind_eq_ok_iff : (do x; rest : Check) = .ok () ↔ x = .ok () ∧ rest = .ok () := by
  rcases x with e | u
  · constructor
    · intro h
      cases h
    · rintro ⟨h, -⟩
      cases h
  · exact ⟨fun h => ⟨rfl, h⟩, And.right⟩

end Check

namespace PeriodBounds

variable {p : PeriodBounds}

theorem check_eq_ok_iff : p.check = .ok () ↔
    (∀ m, p.minutes = some m → leastMinutes ≤ m) ∧
      ∀ a b, p.start = some a → p.stop = some b → leastMinutes * (60 * billion) ≤ b.sub a := by
  obtain ⟨start, stop, minutes⟩ := p
  cases minutes <;> cases start <;> cases stop <;>
    simp [check, pure, Except.pure, throw_bind, guard_eq_ok_iff, throw_ne_ok]

theorem nanosPerHour_le_lengthOf (h : ∀ m, p.minutes = some m → leastMinutes ≤ m) :
    Period.nanosPerHour ≤ Period.lengthOf p.minutes := by
  rcases hm : p.minutes with _ | m
  · decide
  · have hle := h m hm
    show Period.nanosPerHour ≤ m * Period.nanosPerMinute
    simp only [leastMinutes, Period.nanosPerHour, Period.nanosPerMinute, billion] at *
    omega

/-- A period that is found for checked bounds lasts for an hour at least, and ends after it starts. -/
theorem resolve_of_check {q : Period} {now : Instant} (h : p.check = .ok ())
    (hq : Period.resolve p.start p.stop p.minutes now = .ok q) :
    Period.nanosPerHour ≤ q.interval ∧ q.start < q.stop := by
  obtain ⟨hminutes, hbounds⟩ := check_eq_ok_iff.1 h
  have hlength := nanosPerHour_le_lengthOf hminutes
  have hhour : (3 * billion : Int) ≤ Period.nanosPerHour := by decide
  have hways := Period.resolved p.start p.stop p.minutes now
  rw [hq] at hways
  cases hways with
  | refused _ _ hr => cases hr
  | between a b ha hb hr =>
    cases hr
    have hsub : Period.nanosPerHour ≤ b.sub a := hbounds a b ha hb
    exact ⟨hsub, Instant.lt_of_le_sub (Int.le_trans hhour hsub)⟩
  | mismatched _ _ _ _ _ _ _ hr => cases hr
  | forward a _ _ hr =>
    obtain ⟨hstart, hinterval, hadd⟩ := Period.fromStart_ok hr
    rw [← hinterval] at hlength
    rw [← hstart, ← hinterval] at hadd
    exact ⟨hlength, Instant.lt_of_add? hadd (Int.le_trans hhour hlength)⟩
  | backward _ hr =>
    obtain ⟨hstop, hinterval, hadd⟩ := Period.upTo_ok hr
    rw [← hinterval] at hlength
    rw [← hstop, ← hinterval] at hadd
    exact ⟨hlength, Instant.add?_lt hadd (by omega)⟩

/-- Checked bounds are not refused for their length. -/
theorem resolve_ne_nonPositive (h : p.check = .ok ()) (now : Instant) (m : Int) :
    Period.resolve p.start p.stop p.minutes now ≠ .error (.nonPositive m) := by
  intro hm
  have hways := Period.resolved p.start p.stop p.minutes now
  rw [hm] at hways
  cases hways with
  | refused e hread hr =>
    cases hr
    rcases Period.readInterval_error hread with ⟨k, hk, hpos, -⟩ | he
    · have hleast := (check_eq_ok_iff.1 h).1 k hk
      simp only [leastMinutes] at hleast
      omega
    · cases he
  | between _ _ _ _ hr => cases hr
  | mismatched _ _ _ _ _ _ _ hr => cases hr
  | forward _ _ _ hr => cases Period.fromStart_error hr
  | backward _ hr => cases Period.upTo_error hr

end PeriodBounds

end Config

/-- In a period of an hour or more a submission is expected, if there is one in each hour. -/
theorem exists_expectedCount {sync : UInt32} {p : Period} (hpos : 1 ≤ sync.toNat) (hle : sync.toNat ≤ 60)
    (hp : Period.nanosPerHour ≤ p.interval) : ∃ n, 0 < n ∧ expectedCount sync p = .ok n := by
  have hhours : 1 ≤ p.hours := by
    rw [Period.hours, Int.tdiv_eq_ediv_of_nonneg (Int.le_trans (by decide) hp)]
    exact (Int.le_ediv_iff_mul_le (by decide)).2 (by omega)
  have hcount : 0 < 60 / sync.toNat * p.hours.toNat :=
    Nat.mul_pos (Nat.div_pos hle hpos) (by omega)
  have hsync : sync ≠ 0 := by
    rintro rfl
    exact absurd hpos (by decide)
  refine ⟨60 / sync.toNat * p.hours.toNat, hcount, ?_⟩
  simp only [expectedCount, if_neg hsync, if_neg (Nat.ne_of_gt hcount)]

namespace AnalyzerConfig

open Config

variable {c : AnalyzerConfig}

theorem of_check_eq_ok (h : c.check = .ok ()) :
    1 ≤ c.syncMinutes ∧ c.syncMinutes ≤ 60 ∧ c.period.check = .ok () := by
  simp only [check, throw_bind, bind_eq_ok_iff, guard_eq_ok_iff] at h
  obtain ⟨-, hsync, -, hperiod, -⟩ := h
  exact ⟨by omega, by omega, hperiod⟩

/-- For a configuration that passes its checks, and at whatever time: the period is never refused because its
length is not positive, and if it is found, it ends after it starts, lasts for an hour at least, and submissions
are expected in it. -/
theorem check_expects (h : c.check = .ok ()) (now : Instant) :
    (∀ m, Period.resolve c.period.start c.period.stop c.period.minutes now ≠ .error (.nonPositive m)) ∧
    ∀ p, Period.resolve c.period.start c.period.stop c.period.minutes now = .ok p →
      p.start < p.stop ∧ Period.nanosPerHour ≤ p.interval ∧
        ∃ n, 0 < n ∧ expectedCount c.syncMinutes.toUInt32 p = .ok n := by
  obtain ⟨hpos, hle, hperiod⟩ := of_check_eq_ok h
  constructor
  · exact PeriodBounds.resolve_ne_nonPositive hperiod now
  · intro p hp
    obtain ⟨hinterval, hlt⟩ := PeriodBounds.resolve_of_check hperiod hp
    have hsync : c.syncMinutes.toUInt32.toNat = c.syncMinutes :=
      UInt32.toNat_ofNat_of_lt' (Nat.lt_of_le_of_lt hle (by decide))
    rw [← hsync] at hpos hle
    exact ⟨hlt, hinterval, exists_expectedCount hpos hle hinterval⟩

/-- The shortest period, from within a leap second on, with a single submission. -/
theorem check_expects_leapHour :
    let start : Instant := ⟨1483228799, 1500000000, by decide, by decide⟩
    let c : AnalyzerConfig :=
      { networkName := "testnet", source := .directory "/data", period := { start := some start, minutes := some 60 },
        syncMinutes := 60, output := { stdout := true } }
    let p : Period := ⟨start, ⟨1483232399, 500000000, by decide, by decide⟩, Period.nanosPerHour⟩
    (c.check = .ok () ∧ Period.resolve c.period.start c.period.stop c.period.minutes .epoch = .ok p) ∧
      p.start < p.stop ∧ ∃ n, 0 < n ∧ expectedCount 60 p = .ok n := by
  intro start c p
  have h : c.check = .ok () := by decide +kernel
  have hp : Period.resolve c.period.start c.period.stop c.period.minutes .epoch = .ok p := by decide +kernel
  obtain ⟨hlt, -, hn⟩ := (check_expects h .epoch).2 p hp
  exact ⟨⟨h, hp⟩, hlt, hn⟩

end AnalyzerConfig

end Rollcall
