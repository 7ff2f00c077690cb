import Mathlib.Data.List.Basic
import Mathlib.Data.List.TakeWhile
import Rollcall.Time.Field
import Rollcall.Proofs.Text.Blank
import Rollcall.Proofs.Text.Decimal

/-! The parts of a date read back as they are written. Each part is followed by whatever is still to come:
a number of full width ends by itself, any other one before the first character that is no digit. -/

namespace Rollcall.Time.Field

variable {α β : Type} {x : Field α} {f : α → Field β} {s r d : List Char} {a : α}

theorem bind_of_ok (h : x s = .ok (a, r)) : (x >>= f) s = f a r := by
  change (x s >>= fun p => f p.1 p.2) = _
  rw [h]
  rfl

theorem pure_run (a : α) (r : List Char) : (pure a : Field α) r = pure (a, r) := rfl

theorem map_of_ok {g : α → β} (h : x s = .ok (a, r)) : (g <$> x) s = .ok (g a, r) := by
  change (x s >>= fun p => pure (g p.1, p.2)) = _
  rw [h]
  rfl

theorem literal_cons (c : Char) (r : List Char) : literal c (c :: r) = .ok ((), r) := by
  simp [literal]

/-- What does not begin with a digit. -/
def EndsDigits (r : List Char) : Prop := ∀ c ∈ r.head?, c.isDigit = false

theorem takeWhile_take (hd : ∀ c ∈ d, c.isDigit) {w : Nat}
    (hw : d.length = w ∨ d.length ≤ w ∧ EndsDigits r) :
    ((d ++ r).take w).takeWhile Char.isDigit = d := by
  rcases hw with rfl | ⟨hw, hr⟩
  · rw [List.take_left]
    exact List.takeWhile_eq_self_iff.2 hd
  · obtain ⟨k, rfl⟩ := Nat.exists_eq_add_of_le hw
    rw [List.take_length_add_append, List.takeWhile_append_of_pos hd]
    have hnil : (r.take k).takeWhile Char.isDigit = [] := by
      cases r with
      | nil => simp
      | cons c r =>
        cases k with
        | zero => simp
        | succ k => simp [show c.isDigit = false from hr c rfl]
    rw [hnil, List.append_nil]

theorem number_append (hd : ∀ c ∈ d, c.isDigit) (hne : d ≠ []) (hv : Decimal.value d < twoTo 63) {w : Nat}
    (hw : d.length = w ∨ d.length ≤ w ∧ EndsDigits r) :
    number w (d ++ r) = .ok (Decimal.value d, r) := by
  simp only [number, takeWhile_take hd hw]
  rw [if_neg (by simp [hne]), if_neg hne, if_neg (by omega), List.drop_left]

/-- As many digits as there are. -/
theorem number_rest (hd : ∀ c ∈ d, c.isDigit) (hne : d ≠ []) (hv : Decimal.value d < twoTo 63)
    (hr : EndsDigits r) : number (d ++ r).length (d ++ r) = .ok (Decimal.value d, r) :=
  number_append hd hne hv (.inr ⟨by simp, hr⟩)

theorem not_isBlank_of_isDigit {c : Char} (h : c.isDigit) : Text.isBlank c = false := by
  have := Decimal.toNat_of_isDigit h
  simp only [Text.isBlank, Bool.or_eq_false_iff, Bool.and_eq_false_iff, decide_eq_false_iff_not,
    beq_eq_false_iff_ne]
  omega

theorem skipBlanks_of_not_blank (h : ∀ c ∈ s.head?, Text.isBlank c = false) :
    skipBlanks s = .ok ((), s) := by
  change Except.ok ((), Text.trimStart s) = _
  rw [Text.trimStart_eq_self h]

theorem skipBlanks_digits (hd : ∀ c ∈ d, c.isDigit) (hne : d ≠ []) :
    skipBlanks (d ++ r) = .ok ((), d ++ r) := by
  refine skipBlanks_of_not_blank fun c hc => ?_
  rw [List.head?_append_of_ne_nil _ hne] at hc
  exact not_isBlank_of_isDigit (hd c (List.mem_of_head? hc))

/-- Two digits are read back as long as the range allows them. -/
theorem within_padded {lo hi n : Nat} (hlo : lo ≤ n) (hn : n ≤ hi) (hhi : hi < 100) :
    within lo hi (Decimal.padded 2 n ++ r) = .ok (n, r) := by
  have hd : ∀ c ∈ Decimal.padded 2 n, c.isDigit := fun c => Decimal.isDigit_of_mem_padded
  have hne := Decimal.padded_ne_nil 2 n
  have hlen : (Decimal.padded 2 n).length = 2 := Decimal.length_padded (by omega) (by omega)
  have hv : Decimal.value (Decimal.padded 2 n) < twoTo 63 := by
    rw [Decimal.value_padded]
    exact Nat.lt_trans (Nat.lt_of_le_of_lt hn hhi) (by decide)
  rw [within, bind_of_ok (skipBlanks_digits hd hne), bind_of_ok (number_append hd hne hv (.inl hlen)),
    Decimal.value_padded, if_pos ⟨hlo, hn⟩]
  rfl

theorem get_bind {f : List Char → Field β} : (get >>= f) s = f s s := rfl

theorem set_bind {f : Unit → Field β} (t : List Char) : ((set t : Field Unit) >>= f) s = f () t := rfl

section Year

variable {n : Nat}

theorem year_minus (h : number s.length s = .ok (n, r)) (hn : n ≤ twoTo 31) :
    year ('-' :: s) = .ok (-(n : Int), r) := by
  rw [year, bind_of_ok (skipBlanks_of_not_blank (by simp; decide)), get_bind]
  simp only [set_bind]
  have hpos : 0 < twoTo 31 := by decide
  rw [bind_of_ok (map_of_ok (a := (n : Int)) (bind_of_ok h)), if_pos (by omega)]
  rfl

theorem year_plus (h : number s.length s = .ok (n, r)) (hn : n < twoTo 31) :
    year ('+' :: s) = .ok ((n : Int), r) := by
  rw [year, bind_of_ok (skipBlanks_of_not_blank (by simp; decide)), get_bind]
  simp only [set_bind]
  rw [bind_of_ok (map_of_ok h), Int.ofNat_eq_natCast, if_pos (by omega)]
  rfl

theorem year_unsigned {c : Char} (hc : c.isDigit) (h : number 4 (c :: s) = .ok (n, r))
    (hn : n < twoTo 31) : year (c :: s) = .ok ((n : Int), r) := by
  rw [year, bind_of_ok (skipBlanks_of_not_blank (by simpa using not_isBlank_of_isDigit hc)), get_bind]
  have hminus : c ≠ '-' := by rintro rfl; exact absurd hc (by decide)
  have hplus : c ≠ '+' := by rintro rfl; exact absurd hc (by decide)
  simp only [List.cons.injEq, hminus, hplus, false_and, imp_self, implies_true]
  rw [bind_of_ok (map_of_ok h), Int.ofNat_eq_natCast, if_pos (by omega)]
  rfl

end Year

/-- A year is read back with its sign; the dash behind it ends its digits. -/
theorem year_writeYear {y : Int} (hlo : -twoTo 31 ≤ y) (hhi : y < twoTo 31) :
    year (Date.writeYear y ++ '-' :: r) = .ok (y, '-' :: r) := by
  have hend : EndsDigits ('-' :: r) := by simp [EndsDigits]
  have hfits : ∀ n : Nat, n ≤ twoTo 31 → n < twoTo 63 := fun n hn =>
    Nat.lt_of_le_of_lt hn (by decide)
  by_cases hneg : y < 0
  · have hnum := number_rest (d := Decimal.padded 4 y.natAbs) (fun c => Decimal.isDigit_of_mem_padded)
      (Decimal.padded_ne_nil 4 _) (by rw [Decimal.value_padded]; exact hfits _ (by omega)) hend
    rw [Decimal.value_padded] at hnum
    rw [Date.writeYear, if_pos hneg, List.cons_append, year_minus hnum (by omega)]
    congr 2
    omega
  · by_cases hlong : 9999 < y
    · have hnum := number_rest (d := Decimal.digits y.toNat) (fun c => Decimal.isDigit_of_mem_digits)
        (Decimal.digits_ne_nil _) (by rw [Decimal.value_digits]; exact hfits _ (by omega)) hend
      rw [Decimal.value_digits] at hnum
      rw [Date.writeYear, if_neg hneg, if_pos hlong, List.cons_append, year_plus hnum (by omega)]
      congr 2
      omega
    · have hlen : (Decimal.padded 4 y.toNat).length = 4 := Decimal.length_padded (by omega) (by omega)
      have hnum := number_append (r := '-' :: r) (d := Decimal.padded 4 y.toNat)
        (fun c => Decimal.isDigit_of_mem_padded) (Decimal.padded_ne_nil 4 _)
        (by rw [Decimal.value_padded]; exact hfits _ (by omega)) (.inl hlen)
      rw [Decimal.value_padded] at hnum
      obtain ⟨c, t, ht⟩ := List.exists_cons_of_ne_nil (Decimal.padded_ne_nil 4 y.toNat)
      have hc : c.isDigit := Decimal.isDigit_of_mem_padded (ht ▸ List.mem_cons_self)
      rw [Date.writeYear, if_neg hneg, if_neg hlong]
      rw [ht, List.cons_append] at hnum ⊢
      rw [year_unsigned hc hnum (by omega)]
      congr 2
      omega

end Rollcall.Time.Field
