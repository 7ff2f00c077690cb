import Rollcall.Time.Instant
import Rollcall.Proofs.Time.Calendar
import Rollcall.Proofs.Time.Instant

/-! An instant is its date and the time on the clock, where second 60 stands for a leap second behind the last
second of a minute. A leap second behind any other second is not told: date and clock show the second that comes
next. Cutting an instant down to the whole second changes neither. -/

namespace Rollcall

/-- Far more years than instants have, in either direction. -/
def manyYears : Nat := 300000

theorem Date.year_ofDay_bounds {n : Int} (hlo : -100000000 ≤ n) (hhi : n ≤ 100000000) :
    -manyYears ≤ (ofDay n).year ∧ (ofDay n).year ≤ manyYears := by
  obtain ⟨y, d, heq, hn, hd, -⟩ := exists_marchDay n
  have hyear : (ofDay n).year = y ∨ (ofDay n).year = y + 1 := by
    rw [heq]
    simp only [ofMarch]
    omega
  have hy : -manyYears ≤ y ∧ y < manyYears := by
    rw [marchDay] at hn
    rw [manyYears]
    omega
  omega

namespace Instant

variable (t : Instant)

theorem secondOfDay_lt : t.secondOfDay < 86400 := by
  simp only [secondOfDay, secondsPerDay]
  omega

theorem year_date_bounds : -manyYears ≤ t.date.year ∧ t.date.year ≤ manyYears := by
  have hday : -100000000 ≤ t.day ∧ t.day ≤ 100000000 := by
    have := t.inRange
    simp only [day, secondsPerDay]
    omega
  exact Date.year_ofDay_bounds hday.1 hday.2

section Shown

/-- Date and clock show the instant itself, not the second that comes after it. -/
def IsShown : Prop := t.isLeap → t.seconds % 60 = 59

instance : Decidable t.IsShown := inferInstanceAs (Decidable (_ → _))

/-- The instant that date and clock show. -/
def shown : Instant :=
  if h : t.isLeap ∧ t.seconds % 60 ≠ 59 then
    ⟨t.seconds + 1, t.nanos - billion, by have := t.inRange; omega, by have := t.nanosInRange; omega⟩
  else t

variable {t}

theorem IsShown.shown_eq (h : t.IsShown) : t.shown = t :=
  dif_neg fun hodd => hodd.2 (h hodd.1)

/-- A leap second that is not told is shown as the next second, with the same fraction. -/
theorem shown_of_not_isShown (h : ¬t.IsShown) : t.isLeap ∧ t.seconds % 60 ≠ 59 ∧
    t.shown.seconds = t.seconds + 1 ∧ t.shown.nanos = t.nanos - billion := by
  have hodd : t.isLeap ∧ t.seconds % 60 ≠ 59 := Classical.not_imp.1 h
  rw [shown, dif_pos hodd]
  exact ⟨hodd.1, hodd.2, rfl, rfl⟩

theorem isShown_shown (t : Instant) : t.shown.IsShown := by
  by_cases h : t.IsShown
  · rwa [h.shown_eq]
  · obtain ⟨-, -, -, hnanos⟩ := shown_of_not_isShown h
    have hrange := t.nanosInRange
    intro hleap
    rw [isLeap_iff] at hleap
    omega

theorem isLeap_shown_of_not_isShown (h : ¬t.IsShown) : t.shown.isLeap = false := by
  obtain ⟨-, -, -, hnanos⟩ := shown_of_not_isShown h
  have hrange := t.nanosInRange
  refine decide_eq_false ?_
  omega

/-- The next second is of the same minute. -/
theorem secondOfDay_shown_of_not_isShown (h : ¬t.IsShown) : t.shown.day = t.day ∧
    t.shown.secondOfDay = t.secondOfDay + 1 ∧ t.secondOfDay % 60 ≠ 59 := by
  obtain ⟨-, hsecond, hseconds, -⟩ := shown_of_not_isShown h
  simp only [day, secondOfDay, secondsPerDay, hseconds]
  omega

variable (t)

@[simp] theorem day_shown : t.shown.day = t.day := by
  by_cases h : t.IsShown
  · rw [h.shown_eq]
  · exact (secondOfDay_shown_of_not_isShown h).1

@[simp] theorem date_shown : t.shown.date = t.date := by
  rw [date, day_shown, date]

theorem writeClock_shown : t.shown.writeClock = t.writeClock := by
  by_cases h : t.IsShown
  · rw [h.shown_eq]
  · obtain ⟨-, hsecond, hlast⟩ := secondOfDay_shown_of_not_isShown h
    have hhour : (t.secondOfDay + 1) / 3600 = t.secondOfDay / 3600 := by omega
    have hminute : (t.secondOfDay + 1) / 60 % 60 = t.secondOfDay / 60 % 60 := by omega
    have hshown : (t.secondOfDay + 1) % 60 = t.secondOfDay % 60 + 1 := by omega
    simp [writeClock, isLeap_shown_of_not_isShown h, (shown_of_not_isShown h).1, hsecond, hhour, hminute, hshown]

theorem writeFraction_shown : t.shown.writeFraction = t.writeFraction := by
  have hfraction : t.shown.nanos % billion = t.nanos % billion := by
    by_cases h : t.IsShown
    · rw [h.shown_eq]
    · obtain ⟨hleap, -, -, hnanos⟩ := shown_of_not_isShown h
      rw [isLeap_iff] at hleap
      rw [hnanos, ← Nat.mod_eq_sub_mod hleap]
  simp only [writeFraction, hfraction]

/-- What an instant is written as says no more of it. -/
theorem write_shown : t.shown.write = t.write := by
  rw [write, write, date_shown, writeClock_shown, writeFraction_shown]

theorem writeLocal_shown : t.shown.writeLocal = t.writeLocal := by
  rw [writeLocal, writeLocal, date_shown, writeClock_shown]

/-- A third of a second into a leap second behind 23:56:04. -/
def untold : Instant := ⟨1704153364, 1333333333, by decide, by decide⟩

example : untold.shown = ⟨1704153365, 333333333, by decide, by decide⟩ := by decide

end Shown

section Clock

/-- The second that the clock shows. -/
def shownSecond : Nat := t.secondOfDay % 60 + if t.isLeap then 1 else 0

theorem shownSecond_le : t.shownSecond ≤ 60 := by
  rw [shownSecond]
  split <;> omega

theorem writeClock_append (r : List Char) : t.writeClock ++ r =
    Decimal.padded 2 (t.secondOfDay / 3600) ++ ':' :: (Decimal.padded 2 (t.secondOfDay / 60 % 60) ++
      ':' :: (Decimal.padded 2 t.shownSecond ++ r)) := by
  simp [writeClock, shownSecond]

theorem nanos_eq : t.nanos = if t.isLeap then billion + t.nanos % billion else t.nanos % billion := by
  have hrange := t.nanosInRange
  split
  · rename_i h
    have hle : billion ≤ t.nanos := t.isLeap_iff.1 h
    simp only [billion] at *
    omega
  · rename_i h
    have hlt : ¬billion ≤ t.nanos := fun hle => h (t.isLeap_iff.2 hle)
    simp only [billion] at *
    omega

variable {t} (h : t.IsShown)

include h

theorem IsShown.secondOfDay_mod (hleap : t.isLeap) : t.secondOfDay % 60 = 59 := by
  have hmod := h hleap
  simp only [secondOfDay, secondsPerDay]
  omega

theorem IsShown.shownSecond_eq_sixty_iff : t.shownSecond = 60 ↔ t.isLeap := by
  by_cases hleap : t.isLeap
  · have := h.secondOfDay_mod hleap
    simp [shownSecond, hleap, this]
  · have : t.secondOfDay % 60 < 60 := Nat.mod_lt _ (by decide)
    simp only [shownSecond, hleap]
    simp
    omega

/-- Date, clock and fraction of an instant that they show are those of no other one that they show. -/
theorem IsShown.ofClock? : ofClock? t.date (t.secondOfDay / 3600) (t.secondOfDay / 60 % 60) t.shownSecond
    (t.nanos % billion) = some t := by
  have hvalid : t.date.Valid := Date.valid_ofDay t.day
  have hsecond : (if t.isLeap then 59 else t.shownSecond) = t.secondOfDay % 60 := by
    split
    · rename_i hleap
      exact (h.secondOfDay_mod hleap).symm
    · rename_i hleap
      simp [shownSecond, hleap]
  have hseconds : t.day * secondsPerDay +
      (3600 * (t.secondOfDay / 3600) + 60 * (t.secondOfDay / 60 % 60) + t.secondOfDay % 60 : Nat) =
        t.seconds := by
    rw [t.seconds_eq]
    omega
  have hleap : t.nanos < billion ∨ t.seconds % 60 = 59 := by
    rcases Nat.lt_or_ge t.nanos billion with hlt | hge
    · exact .inl hlt
    · exact .inr (h (t.isLeap_iff.2 hge))
  simp only [Instant.ofClock?, if_pos hvalid, h.shownSecond_eq_sixty_iff, hsecond, ← nanos_eq]
  rw [date, Date.toDay_ofDay, hseconds, ofUnix?, if_pos hleap, ofParts?_self]

end Clock

section WholeSecond

@[simp] theorem seconds_wholeSecond : t.wholeSecond.seconds = t.seconds := rfl

@[simp] theorem isLeap_wholeSecond : t.wholeSecond.isLeap = t.isLeap := by
  by_cases h : t.isLeap
  · simp only [wholeSecond, h, if_pos]
    rfl
  · simp only [wholeSecond, h]
    rfl

@[simp] theorem nanos_wholeSecond_mod : t.wholeSecond.nanos % billion = 0 := by
  by_cases h : t.isLeap <;> simp [wholeSecond, h]

theorem writeLocal_wholeSecond : t.wholeSecond.writeLocal = t.writeLocal := by
  simp [writeLocal, writeClock, date, day, secondOfDay]

variable {t}

theorem IsShown.wholeSecond (h : t.IsShown) : t.wholeSecond.IsShown := by
  rw [IsShown, isLeap_wholeSecond, seconds_wholeSecond]
  exact h

theorem isShown_of_wholeSecond_eq (h : t.shown.wholeSecond = t.wholeSecond) : t.IsShown := by
  refine Decidable.byContradiction fun hnot => ?_
  obtain ⟨-, -, hseconds, -⟩ := shown_of_not_isShown hnot
  have heq := congrArg seconds h
  simp only [seconds_wholeSecond] at heq
  omega

end WholeSecond

end Instant

end Rollcall
