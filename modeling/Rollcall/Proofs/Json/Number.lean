import Rollcall.Json.Number
import Rollcall.Proofs.Json.Text
import Rollcall.Proofs.Text.Decimal

/-! A natural number that is written in JSON reads back, as long as what follows does not go on with it. -/

namespace Rollcall.Json

open Text (octets)

theorem isDigit_toUInt8 {c : Char} (h : c.isDigit) :
    isDigit c.toNat.toUInt8 ∧ Char.ofNat c.toNat.toUInt8.toNat = c := by
  have hc := Decimal.toNat_of_isDigit h
  have hnat : c.toNat.toUInt8.toNat = c.toNat := by
    rw [Nat.toUInt8, UInt8.toNat_ofNat']
    omega
  constructor
  · simp only [isDigit, UInt8.le_iff_toNat_le, hnat, Bool.and_eq_true, decide_eq_true_eq]
    exact hc
  · rw [hnat, Char.ofNat_toNat]

theorem octets_digits {d : List Char} (hd : ∀ c ∈ d, c.isDigit) :
    octets (String.ofList d) = d.map (·.toNat.toUInt8) := by
  have hascii : ∀ c ∈ (String.ofList d).toList, c.toNat < 128 := by
    intro c hc
    have := Decimal.toNat_of_isDigit (hd c (by simpa using hc))
    omega
  rw [Text.octets_of_ascii hascii, String.toList_ofList]

/-- No digit, point or mark of an exponent comes first. -/
def EndsNumber (r : Input) : Prop := ∀ c ∈ r.head?, isDigit c = false ∧ c ≠ 46 ∧ c ≠ 101 ∧ c ≠ 69

theorem digitRun_octets {d : List Char} (hd : ∀ c ∈ d, c.isDigit) {r : Input} (hr : EndsNumber r) :
    digitRun (octets (String.ofList d) ++ r) = (d, r) := by
  have hall : ∀ b ∈ d.map (·.toNat.toUInt8), isDigit b := by
    intro b hb
    obtain ⟨c, hc, rfl⟩ := List.mem_map.1 hb
    exact (isDigit_toUInt8 (hd c hc)).1
  have hstop : r.takeWhile isDigit = [] ∧ r.dropWhile isDigit = r := by
    cases r with
    | nil => exact ⟨rfl, rfl⟩
    | cons c r => simp [(hr c rfl).1]
  have hback : d.map (fun c => Char.ofNat c.toNat.toUInt8.toNat) = d :=
    (List.map_congr_left fun c hc => (isDigit_toUInt8 (hd c hc)).2).trans (List.map_id d)
  rw [octets_digits hd, digitRun, List.takeWhile_append_of_pos hall, List.dropWhile_append_of_pos hall,
    hstop.1, hstop.2, List.append_nil, List.map_map]
  exact congrArg (·, r) hback

namespace Reader

variable {r : Input} {n : Nat}

theorem run_someDigits (hr : EndsNumber r) (n : Nat) :
    someDigits.run (octets (Decimal.nat n) ++ r) = .ok (Decimal.digits n, r) := by
  have hrun : digits.run (octets (Decimal.nat n) ++ r) = .ok (Decimal.digits n, r) :=
    congrArg Except.ok (digitRun_octets (fun c => Decimal.isDigit_of_mem_digits) hr)
  rw [someDigits, run_bind_of_ok hrun]
  obtain ⟨c, t, ht⟩ := List.exists_cons_of_ne_nil (Decimal.digits_ne_nil n)
  rw [ht]
  rfl

theorem run_exponent (hr : EndsNumber r) : exponent.run r = .ok (none, r) := by
  cases r with
  | nil => rfl
  | cons c r =>
    obtain ⟨-, -, he, hE⟩ := hr c rfl
    rw [exponent, run_bind_of_ok (a := some c) rfl]
    simp only [he, hE, or_self, if_false]
    rfl

theorem run_unsigned (hr : EndsNumber r) (hn : n < twoTo 64) :
    (unsigned false).run (octets (Decimal.nat n) ++ r) = .ok (.natural n, r) := by
  have hzero : ¬(1 < (Decimal.digits n).length ∧ (Decimal.digits n).head? = some '0') := by
    rintro ⟨hlen, hhead⟩
    by_cases h : n = 0
    · subst h
      exact absurd hlen (by decide)
    · exact Decimal.head?_digits_ne h hhead
  rw [unsigned, run_bind_of_ok (run_someDigits hr n)]
  have hvalue : Decimal.value (Decimal.digits n ++ (none : Option (List Char)).getD []) = n := by simp
  rw [if_neg hzero]
  change (peek >>= _).run r = _
  rw [run_bind_of_ok (a := r.head?) rfl]
  -- no point follows, so the digits are all there is
  have hhead : r.head? = none ∨ ∃ c, r.head? = some c ∧ c ≠ 46 := by
    cases r with
    | nil => exact .inl rfl
    | cons c r => exact .inr ⟨c, rfl, (hr c rfl).2.1⟩
  rcases hhead with h | ⟨c, h, hpoint⟩ <;> rw [h] <;> simp only
  on_goal 2 => rw [if_neg hpoint]
  all_goals
    rw [run_bind_of_ok (a := none) rfl, run_bind_of_ok (run_exponent hr), hvalue,
      if_pos ⟨rfl, rfl, hn⟩]
    rfl

theorem exists_octets_nat (n : Nat) : ∃ c t, octets (Decimal.nat n) = c :: t ∧ isDigit c := by
  obtain ⟨d, l, hd⟩ := List.exists_cons_of_ne_nil (Decimal.digits_ne_nil n)
  have hdigit : d.isDigit := Decimal.isDigit_of_mem_digits (hd ▸ List.mem_cons_self)
  refine ⟨d.toNat.toUInt8, l.map (·.toNat.toUInt8), ?_, (isDigit_toUInt8 hdigit).1⟩
  rw [Decimal.nat, octets_digits fun c => Decimal.isDigit_of_mem_digits, hd, List.map_cons]

theorem run_number (hr : EndsNumber r) (hn : n < twoTo 64) :
    number.run (octets (Decimal.nat n) ++ r) = .ok (.natural n, r) := by
  obtain ⟨c, t, ht, hc⟩ := exists_octets_nat n
  have hminus : c ≠ 45 := by
    rintro rfl
    exact absurd hc (by decide)
  have hfirst : peek.run (octets (Decimal.nat n) ++ r) = .ok (some c, octets (Decimal.nat n) ++ r) := by
    rw [ht]
    rfl
  rw [number, run_bind_of_ok hfirst]
  simp only
  rw [if_neg hminus, run_unsigned hr hn]

end Reader

end Rollcall.Json
