import Rollcall.Time.Rfc3339
import Rollcall.Proofs.Time.Stamp

/-! The instant that an RFC 3339 text shows reads back from it without any loss: the fraction is written with as
many digits as it needs, and what is left out at its end are zeros. -/

namespace Rollcall.Time

open Rollcall.Time.Field

theorem modify_bind {β : Type} {f : Unit → Field β} {s : List Char} (g : List Char → List Char) :
    ((modify g : Field Unit) >>= f) s = f () (g s) := rfl

/-- The digits of a fraction that ends before the zone stand for themselves and the zeros left out. -/
theorem fraction_padded {w n : Nat} (hw0 : 0 < w) (hw : w ≤ 9) (hn : n < 10 ^ w) :
    fraction ('.' :: (Decimal.padded w n ++ ['Z'])) = .ok (n * tenTo (9 - w), ['Z']) := by
  have hend : EndsDigits ['Z'] := by simp [EndsDigits]
  have hlen : (Decimal.padded w n).length = w := Decimal.length_padded hw0 hn
  have hfit : n < twoTo 63 :=
    Nat.lt_of_lt_of_le hn ((Nat.pow_le_pow_right (by decide) hw).trans (by decide))
  have hnum : number 9 (Decimal.padded w n ++ ['Z']) = .ok (n, ['Z']) := by
    have h := number_append (r := ['Z']) (w := 9) (fun c => Decimal.isDigit_of_mem_padded)
      (Decimal.padded_ne_nil w n) (by rwa [Decimal.value_padded]) (.inr ⟨by omega, hend⟩)
    rwa [Decimal.value_padded] at h
  have hused : (Decimal.padded w n ++ ['Z']).length - 1 = w := by simp [hlen]
  rw [fraction, get_bind]
  simp only [set_bind]
  rw [bind_of_ok hnum, get_bind, modify_bind, List.length_singleton, hused]
  rfl

theorem fraction_writeFraction (t : Instant) :
    fraction (t.writeFraction ++ ['Z']) = .ok (t.nanos % billion, ['Z']) := by
  obtain ⟨n, hn⟩ : ∃ n, n = t.nanos % billion := ⟨_, rfl⟩
  have hlt : n < 10 ^ 9 := hn ▸ Nat.mod_lt _ (by decide)
  have hread (w m : Nat) (hw0 : 0 < w) (hw : w ≤ 9) (hm : m < 10 ^ w) (hnm : m * tenTo (9 - w) = n) :
      fraction ('.' :: Decimal.padded w m ++ ['Z']) = .ok (n, ['Z']) := by
    rw [List.cons_append, fraction_padded hw0 hw hm, hnm]
  simp only [Instant.writeFraction, ← hn]
  split
  · rename_i h0
    rw [h0]
    rfl
  · split
    · exact hread 3 (n / 1000000) (by decide) (by decide) (by omega) (by simp; omega)
    · split
      · exact hread 6 (n / 1000) (by decide) (by decide) (by omega) (by simp; omega)
      · exact hread 9 n (by decide) (by decide) hlt (by simp)

theorem skipBlanks_mark {c : Char} (hc : Text.isBlank c = false) (r : List Char) :
    skipBlanks (c :: r) = .ok ((), c :: r) :=
  skipBlanks_of_not_blank (by simpa using hc)

/-- The parts of a written instant, in the zone of its own clock. -/
theorem zoned_write (t : Instant) : zoned t.write = .ok (⟨t.date, t.secondOfDay / 3600,
    t.secondOfDay / 60 % 60, t.shownSecond, t.nanos % billion, 0⟩, []) := by
  have htext : t.write = t.date.write ++ 'T' :: (t.writeClock ++ (t.writeFraction ++ ['Z'])) := by
    simp [Instant.write]
  have hmark (r : List Char) : dateOrTimeMark ('T' :: r) = .ok ((), r) := by simp [dateOrTimeMark]
  have hdash (r : List Char) := skipBlanks_mark (c := '-') (by decide) r
  have hcolon (r : List Char) := skipBlanks_mark (c := ':') (by decide) r
  have hzone : zone ['Z'] = .ok (0, []) := by rfl
  rw [htext, Date.write_append, t.writeClock_append, zoned]
  rw [bind_of_ok (t.year_date _), bind_of_ok (hdash _), bind_of_ok (literal_cons _ _),
    bind_of_ok (t.month_date _), bind_of_ok (hdash _), bind_of_ok (literal_cons _ _),
    bind_of_ok (t.day_date _), bind_of_ok (hmark _), bind_of_ok (t.hour_clock _),
    bind_of_ok (hcolon _), bind_of_ok (literal_cons _ _), bind_of_ok (t.minute_clock _),
    bind_of_ok (hcolon _), bind_of_ok (literal_cons _ _), bind_of_ok (t.second_clock _),
    bind_of_ok (fraction_writeFraction t), bind_of_ok hzone]
  rfl

theorem readRfc3339?_of_isShown {t : Instant} (h : t.IsShown) : readRfc3339? t.write = some t := by
  simp only [readRfc3339?, zoned_write, Zoned.toInstant?, h.ofClock?]
  change (if _ then Instant.ofParts? (t.seconds - 0) t.nanos else none) = _
  rw [Int.sub_zero, Instant.ofParts?_self]
  rfl

/-- The text of an instant tells all of the instant that it shows. -/
theorem readRfc3339?_write (t : Instant) : readRfc3339? t.write = some t.shown := by
  rw [← t.write_shown, readRfc3339?_of_isShown t.isShown_shown]

end Rollcall.Time
