import Mathlib.Tactic.SplitIfs
import Rollcall.Time.Calendar

/-! Every day has a date that exists, and the date determines the day; later days have later dates. A day is
the year that began in the last March and the days since then; the day that leap years add is the last one of
such a year, so both directions meet there. -/

namespace Rollcall.Date

/-- Days from 1970-01-01 to the first of March. -/
def marchDay (y : Int) : Int := 365 * y + y / 4 - y / 100 + y / 400 - 719468

/-- The date `d` days after the first of March. -/
def ofMarch (y : Int) (d : Nat) : Date :=
  let m := (5 * d + 2) / 153
  let month := if m < 10 then m + 3 else m - 9
  ⟨if month ≤ 2 then y + 1 else y, month, d - (153 * m + 2) / 5 + 1⟩

theorem isLeap_iff {y : Int} : isLeap y ↔ y % 4 = 0 ∧ (y % 100 ≠ 0 ∨ y % 400 = 0) := by
  simp [isLeap]

theorem monthLength_le (y : Int) (m : Nat) : monthLength y m ≤ 31 := by
  rw [monthLength]
  split
  · split <;> omega
  · split <;> omega

/-- A day of 400 years is split by centuries, groups of four years and years; the last of each may have a
day more than the others. -/
theorem exists_parts {k : Nat} (hk : k < 146097) : ∃ c f o d, c = min 3 (k / 36524) ∧
    f = (k - 36524 * c) / 1461 ∧ o = min 3 ((k - 36524 * c - 1461 * f) / 365) ∧
    d = k - 36524 * c - 1461 * f - 365 * o ∧ c ≤ 3 ∧ f ≤ 24 ∧ o ≤ 3 ∧ d ≤ 365 ∧
    k = 36524 * c + 1461 * f + 365 * o + d ∧ (d = 365 → o = 3 ∧ (f = 24 → c = 3)) := by
  obtain ⟨c, hc⟩ : ∃ c, c = min 3 (k / 36524) := ⟨_, rfl⟩
  obtain ⟨f, hf⟩ : ∃ f, f = (k - 36524 * c) / 1461 := ⟨_, rfl⟩
  obtain ⟨o, ho⟩ : ∃ o, o = min 3 ((k - 36524 * c - 1461 * f) / 365) := ⟨_, rfl⟩
  refine ⟨c, f, o, _, hc, hf, ho, rfl, ?_⟩
  omega

/-- A year has one more day than usual if it ends with the February of a leap year. -/
theorem exists_marchDay (n : Int) : ∃ y d, ofDay n = ofMarch y d ∧ n = marchDay y + d ∧ d ≤ 365 ∧
    (d = 365 → isLeap (y + 1)) := by
  obtain ⟨e, he⟩ : ∃ e, e = (n + 719468) / 146097 := ⟨_, rfl⟩
  obtain ⟨k, hk⟩ : ∃ k : Nat, (n + 719468) % 146097 = k := Int.eq_ofNat_of_zero_le (by omega)
  obtain ⟨c, f, o, d, hc, hf, ho, hd, hc3, hf24, ho3, hd365, hsum, hlast⟩ :=
    exists_parts (k := k) (by omega)
  obtain ⟨y, hy⟩ : ∃ y : Int, y = 400 * e + (100 * c + 4 * f + o : Nat) := ⟨_, rfl⟩
  refine ⟨y, d, ?_, ?_, hd365, fun h => ?_⟩
  · simp only [ofDay, ofMarch, hk, Int.toNat_natCast, ← he, ← hc, ← hf, ← ho, ← hd, ← hy]
  · have h4 : y / 4 = 100 * e + 25 * c + f := by omega
    have h100 : y / 100 = 4 * e + c := by omega
    have h400 : y / 400 = e := by omega
    rw [marchDay, h4, h100, h400]
    omega
  · obtain ⟨rfl, hcentury⟩ := hlast h
    rw [isLeap_iff]
    omega

theorem toDay_ofMarch (y : Int) {d : Nat} (hd : d ≤ 365) : (ofMarch y d).toDay = marchDay y + d := by
  obtain ⟨m, hm⟩ : ∃ m, m = (5 * d + 2) / 153 := ⟨_, rfl⟩
  have hm11 : m ≤ 11 := by omega
  have hle : (153 * m + 2) / 5 ≤ d := by omega
  by_cases hmarch : m < 10
  · simp only [toDay, ofMarch, ← hm, marchDay, if_pos hmarch, if_neg (show ¬m + 3 ≤ 2 by omega),
      Nat.add_sub_cancel]
    omega
  · simp only [toDay, ofMarch, ← hm, marchDay, if_neg hmarch, if_pos (show m - 9 ≤ 2 by omega),
      Nat.sub_add_cancel (show 9 ≤ m by omega), Int.add_sub_cancel]
    omega

theorem valid_ofMarch (y : Int) {d : Nat} (hd : d ≤ 365) (hleap : d = 365 → isLeap (y + 1)) :
    (ofMarch y d).Valid := by
  obtain ⟨m, hm⟩ : ∃ m, m = (5 * d + 2) / 153 := ⟨_, rfl⟩
  have hm11 : m ≤ 11 := by omega
  by_cases hfeb : m = 11
  · -- the February that ends the year
    have hlen : d - 337 + 1 ≤ if isLeap (y + 1) then 29 else 28 := by
      split
      · omega
      · rename_i h
        have : d ≠ 365 := fun h365 => h (hleap h365)
        omega
    simpa [Valid, ofMarch, ← hm, hfeb, monthLength] using hlen
  · have hlen : d - (153 * m + 2) / 5 + 1 ≤ if m = 1 ∨ m = 3 ∨ m = 6 ∨ m = 8 then 30 else 31 := by
      split <;> omega
    by_cases hmarch : m < 10
    · simpa [Valid, ofMarch, ← hm, monthLength, hmarch, or_assoc, show m ≤ 9 by omega] using hlen
    · obtain rfl : m = 10 := by omega
      simpa [Valid, ofMarch, ← hm, monthLength] using hlen

@[simp] theorem toDay_ofDay (n : Int) : (ofDay n).toDay = n := by
  obtain ⟨y, d, heq, hn, hd, -⟩ := exists_marchDay n
  rw [heq, toDay_ofMarch y hd, hn]

theorem valid_ofDay (n : Int) : (ofDay n).Valid := by
  obtain ⟨y, d, heq, -, hd, hleap⟩ := exists_marchDay n
  rw [heq]
  exact valid_ofMarch y hd hleap

/-- Different days have different dates. -/
theorem ofDay_injective {m n : Int} (h : ofDay m = ofDay n) : m = n := by
  rw [← toDay_ofDay m, h, toDay_ofDay]

section Order

/-- The order in which dates are compared: by year, then by month, then by day. -/
def Before (a b : Date) : Prop :=
  a.year < b.year ∨ a.year = b.year ∧ (a.month < b.month ∨ a.month = b.month ∧ a.day < b.day)

variable {y z : Int} {d e : Nat}

theorem before_ofMarch_of_day (hlt : d < e) (he : e ≤ 365) : (ofMarch y d).Before (ofMarch y e) := by
  simp only [Before, ofMarch]
  split_ifs <;> omega

/-- The January and the February at the end of one such year come before the next March. -/
theorem before_ofMarch_of_year (hlt : y < z) (hd : d ≤ 365) : (ofMarch y d).Before (ofMarch z e) := by
  simp only [Before, ofMarch]
  split_ifs <;> omega

theorem before_ofDay {m n : Int} (h : m < n) : (ofDay m).Before (ofDay n) := by
  obtain ⟨y, d, hm, hmd, hd, -⟩ := exists_marchDay m
  obtain ⟨z, e, hn, hne, he, hleap⟩ := exists_marchDay n
  rw [hm, hn]
  rcases Int.lt_trichotomy y z with hyz | rfl | hzy
  · exact before_ofMarch_of_year hyz hd
  · exact before_ofMarch_of_day (by omega) he
  · -- the year of the later day cannot have begun first: it would be over by then
    have hlast : e ≤ 364 ∨ isLeap (z + 1) := by
      by_cases h365 : e = 365
      · exact .inr (hleap h365)
      · exact .inl (by omega)
    rw [isLeap_iff] at hlast
    simp only [marchDay] at hmd hne
    omega

end Order

end Rollcall.Date
