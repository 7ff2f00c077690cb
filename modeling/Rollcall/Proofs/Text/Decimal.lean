import Mathlib.Algebra.Group.Nat.Defs
import Mathlib.Data.List.Basic
import Rollcall.Text.Decimal

/-! Digits read back. A written number is made of digits, as many as its size asks for or its width, and its
value is the number; zeros in front change nothing. -/

namespace Rollcall.Decimal

theorem value_eq_ofDigitChars (s : List Char) : value s = Nat.ofDigitChars 10 s 0 :=
  Nat.ofDigitChars_eq_foldl.symm

@[simp] theorem value_digits (n : Nat) : value (digits n) = n := by
  rw [value_eq_ofDigitChars, digits, Nat.ofDigitChars_ten_toDigits]

@[simp] theorem value_padded (w n : Nat) : value (padded w n) = n := by
  rw [padded, value_eq_ofDigitChars, Nat.ofDigitChars_append, Nat.ofDigitChars_replicate_zero,
    Nat.mul_zero, ← value_eq_ofDigitChars, value_digits]

theorem toNat_of_isDigit {c : Char} (h : c.isDigit) : 48 ≤ c.toNat ∧ c.toNat ≤ 57 := by
  simpa [Char.isDigit, UInt32.le_iff_toNat_le] using h

theorem digits_ne_nil (n : Nat) : digits n ≠ [] := Nat.toDigits_ne_nil

theorem isDigit_of_mem_digits {n : Nat} {c : Char} (h : c ∈ digits n) : c.isDigit :=
  Nat.isDigit_of_mem_toDigits (by decide) (by decide) h

@[simp] theorem nat?_digits (n : Nat) : nat? (digits n) = some n := by
  have hdigits : (digits n).all Char.isDigit := List.all_eq_true.2 fun _ => isDigit_of_mem_digits
  simp [nat?, digits_ne_nil, hdigits]

theorem toList_int (n : Int) : (int n).toList = (if n < 0 then ['-'] else []) ++ digits n.natAbs := by
  by_cases hn : n < 0
  · simp [int, nat, hn]
  · have habs : n.toNat = n.natAbs := by omega
    simp [int, nat, hn, habs]

/-- A number that fits is read back from its digits. -/
theorem signed?_int {n : Int} (h : fitsSigned n) : signed? (int n).toList = some n := by
  rw [toList_int]
  by_cases hn : n < 0
  · obtain ⟨k, rfl⟩ : ∃ k : Nat, n = -k := ⟨n.natAbs, by omega⟩
    rw [if_pos hn]
    simp [signed?, h]
  · have habs : (n.natAbs : Int) = n := by omega
    obtain ⟨c, r, hcr⟩ := List.exists_cons_of_ne_nil (digits_ne_nil n.natAbs)
    have hc : c.isDigit := isDigit_of_mem_digits (hcr ▸ List.mem_cons_self)
    have hread : nat? (c :: r) = some n.natAbs := hcr ▸ nat?_digits n.natAbs
    have hsign {d : Char} (hd : ¬d.isDigit) (t : List Char) (ht : c :: r = d :: t) : False :=
      hd ((List.cons.inj ht).1 ▸ hc)
    rw [if_neg hn, List.nil_append, hcr, signed?]
    · rw [hread, Option.map_some, Int.ofNat_eq_natCast, habs]
      simp [h]
    · exact hsign (by decide)
    · exact hsign (by decide)

theorem not_mem_int {c : Char} (hdigit : c.isDigit = false) (hsign : c ≠ '-') (n : Int) :
    c ∉ (int n).toList := by
  rw [toList_int, List.mem_append, not_or]
  refine ⟨?_, fun hc => ?_⟩
  · split <;> simp [hsign]
  · rw [isDigit_of_mem_digits hc] at hdigit
    contradiction

theorem length_digits_le {w n : Nat} (hw : 0 < w) (h : n < 10 ^ w) : (digits n).length ≤ w :=
  (Nat.length_toDigits_le_iff (by decide) hw).2 h

/-- Only zero itself begins with a zero. -/
theorem head?_digits_ne {n : Nat} (h : n ≠ 0) : (digits n).head? ≠ some '0' := by
  have hdigit : ∀ n < 10, n ≠ 0 → [n.digitChar].head? ≠ some '0' := by decide
  induction n using Nat.strongRecOn with
  | ind n ih =>
    by_cases hn : n < 10
    · rw [digits, Nat.toDigits_of_lt_base hn]
      exact hdigit n hn h
    · rw [digits, Nat.toDigits_of_base_le (by decide) (Nat.not_lt.1 hn),
        List.head?_append_of_ne_nil _ Nat.toDigits_ne_nil]
      exact ih (n / 10) (by omega) (by omega)

theorem padded_ne_nil (w n : Nat) : padded w n ≠ [] := by
  simp [padded, digits_ne_nil]

theorem isDigit_of_mem_padded {w n : Nat} {c : Char} (h : c ∈ padded w n) : c.isDigit := by
  rcases List.mem_append.1 h with h | h
  · rw [List.eq_of_mem_replicate h]
    decide
  · exact isDigit_of_mem_digits h

theorem length_padded {w n : Nat} (hw : 0 < w) (h : n < 10 ^ w) : (padded w n).length = w := by
  have := length_digits_le hw h
  rw [padded, List.length_append, List.length_replicate]
  omega

end Rollcall.Decimal
