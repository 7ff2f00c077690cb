import Rollcall.Proofs.Time.Clock
import Rollcall.Proofs.Time.Field

/-! The date and the clock of an instant are read back part by part. A stamp has nothing else, so it reads
back as the instant that they show, cut down to the whole second. -/

namespace Rollcall

namespace Time

/-- What dates and stamps are written with. -/
def isStampChar (c : Char) : Bool := c.isDigit || ['-', '+', ':', 'T', 'Z'].contains c

end Time

namespace Date

open Time

theorem isStampChar_of_mem_writeYear {y : Int} {c : Char} (h : c ∈ writeYear y) : isStampChar c := by
  rw [isStampChar, Bool.or_eq_true]
  rw [writeYear] at h
  split at h
  · rcases List.mem_cons.1 h with rfl | h
    · exact .inr (by decide)
    · exact .inl (Decimal.isDigit_of_mem_padded h)
  · split at h
    · rcases List.mem_cons.1 h with rfl | h
      · exact .inr (by decide)
      · exact .inl (Decimal.isDigit_of_mem_digits h)
    · exact .inl (Decimal.isDigit_of_mem_padded h)

theorem isStampChar_of_mem_padded {w n : Nat} {c : Char} (h : c ∈ Decimal.padded w n) :
    isStampChar c := by
  simp [isStampChar, Decimal.isDigit_of_mem_padded h]

theorem isStampChar_of_mem_write {d : Date} {c : Char} (h : c ∈ d.write) : isStampChar c := by
  simp only [write, List.append_assoc, List.cons_append, List.mem_append, List.mem_cons] at h
  rcases h with h | rfl | h | rfl | h
  · exact isStampChar_of_mem_writeYear h
  · decide
  · exact isStampChar_of_mem_padded h
  · decide
  · exact isStampChar_of_mem_padded h

theorem write_append (d : Date) (r : List Char) : d.write ++ r =
    writeYear d.year ++ '-' :: (Decimal.padded 2 d.month ++ '-' :: (Decimal.padded 2 d.day ++ r)) := by
  simp [write]

end Date

namespace Instant

open Time

variable (t : Instant) (r : List Char)

theorem year_date : Field.year (Date.writeYear t.date.year ++ '-' :: r) = .ok (t.date.year, '-' :: r) := by
  have hyears : manyYears < twoTo 31 := by decide
  obtain ⟨hlo, hhi⟩ := t.year_date_bounds
  exact Field.year_writeYear (by omega) (by omega)

theorem month_date : Field.month (Decimal.padded 2 t.date.month ++ r) = .ok (t.date.month, r) := by
  obtain ⟨hlo, hhi, -⟩ : t.date.Valid := Date.valid_ofDay t.day
  exact Field.within_padded hlo hhi (by decide)

theorem day_date : Field.day (Decimal.padded 2 t.date.day ++ r) = .ok (t.date.day, r) := by
  obtain ⟨-, -, hlo, hhi⟩ : t.date.Valid := Date.valid_ofDay t.day
  exact Field.within_padded hlo (Nat.le_trans hhi (Date.monthLength_le _ _)) (by decide)

theorem hour_clock : Field.hour (Decimal.padded 2 (t.secondOfDay / 3600) ++ r) =
    .ok (t.secondOfDay / 3600, r) := by
  have := t.secondOfDay_lt
  exact Field.within_padded (Nat.zero_le _) (by omega) (by decide)

theorem minute_clock : Field.minute (Decimal.padded 2 (t.secondOfDay / 60 % 60) ++ r) =
    .ok (t.secondOfDay / 60 % 60, r) :=
  Field.within_padded (Nat.zero_le _) (by omega) (by decide)

theorem second_clock : Field.second (Decimal.padded 2 t.shownSecond ++ r) = .ok (t.shownSecond, r) :=
  Field.within_padded (Nat.zero_le _) t.shownSecond_le (by decide)

/-- Instants with the same date in writing lie on the same day. -/
theorem day_eq_of_write {t u : Instant} (h : t.date.write = u.date.write) : t.day = u.day := by
  have hwrite := congrArg (· ++ ([] : List Char)) h
  simp only [Date.write_append] at hwrite
  have hyear := t.year_date (Decimal.padded 2 t.date.month ++ '-' :: (Decimal.padded 2 t.date.day ++ []))
  rw [hwrite, u.year_date] at hyear
  injection hyear with hyear
  obtain ⟨hyear, hrest⟩ := Prod.mk.inj hyear
  have hmonth := t.month_date ('-' :: (Decimal.padded 2 t.date.day ++ []))
  rw [← (List.cons.inj hrest).2, u.month_date] at hmonth
  injection hmonth with hmonth
  obtain ⟨hmonth, hrest⟩ := Prod.mk.inj hmonth
  have hday := t.day_date []
  rw [← (List.cons.inj hrest).2, u.day_date] at hday
  injection hday with hday
  have hdate : t.date = u.date := by
    rcases hd : t.date with ⟨_, _, _⟩
    rcases hu : u.date with ⟨_, _, _⟩
    simp_all
  exact Date.ofDay_injective hdate

end Instant

namespace Time

open Rollcall.Time.Field

theorem writeStamp_eq (t : Instant) :
    writeStamp t = t.date.write ++ 'T' :: (t.writeClock ++ ['Z']) := by
  simp [writeStamp, Instant.writeLocal]

theorem isStampChar_of_mem_writeStamp {t : Instant} {c : Char} (h : c ∈ writeStamp t) :
    isStampChar c := by
  simp only [writeStamp_eq, t.writeClock_append, List.mem_append, List.mem_cons, List.not_mem_nil,
    or_false] at h
  rcases h with h | rfl | h | rfl | h | rfl | h | rfl
  · exact Date.isStampChar_of_mem_write h
  · decide
  · exact Date.isStampChar_of_mem_padded h
  · decide
  · exact Date.isStampChar_of_mem_padded h
  · decide
  · exact Date.isStampChar_of_mem_padded h
  · decide

/-- An instant without a fraction of a second is read back from its stamp, if that shows it. -/
theorem readStamp_of_whole {t : Instant} (ht : t.IsShown) (h : t.nanos % billion = 0) :
    readStamp (writeStamp t) = .ok t := by
  have hclock := ht.ofClock?
  rw [h] at hclock
  rw [writeStamp_eq, Date.write_append, t.writeClock_append, readStamp]
  rw [bind_of_ok (t.year_date _), bind_of_ok (literal_cons _ _), bind_of_ok (t.month_date _),
    bind_of_ok (literal_cons _ _), bind_of_ok (t.day_date _), bind_of_ok (literal_cons _ _),
    bind_of_ok (t.hour_clock _), bind_of_ok (literal_cons _ _), bind_of_ok (t.minute_clock _),
    bind_of_ok (literal_cons _ _), bind_of_ok (t.second_clock _), bind_of_ok (literal_cons _ _)]
  simp only [pure_run, pure_bind, hclock]
  rfl

/-- A stamp tells all of the instant that it shows but the fraction of a second. -/
theorem readStamp_writeStamp (t : Instant) : readStamp (writeStamp t) = .ok t.shown.wholeSecond := by
  have hstamp : writeStamp t = writeStamp t.shown.wholeSecond := by
    rw [writeStamp, writeStamp, t.shown.writeLocal_wholeSecond, t.writeLocal_shown]
  rw [hstamp, readStamp_of_whole t.isShown_shown.wholeSecond t.shown.nanos_wholeSecond_mod]

end Time

end Rollcall
