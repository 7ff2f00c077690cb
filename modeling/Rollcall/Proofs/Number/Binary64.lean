import Mathlib.Data.Rat.Cast.Order
import Mathlib.Algebra.Order.Field.Power
import Mathlib.Tactic.Linarith
import Mathlib.Tactic.Ring
import Mathlib.Tactic.FieldSimp
import Rollcall.Number.Binary64

/-! Rounding keeps its side of every whole number of fifty-three bits: what is at least such a number, or at
most, is still so once it is rounded. So these numbers themselves are held exactly, and a product or a quotient
that reaches one does not fall short of it. -/

namespace Rollcall

section Whole

variable {n d c : Nat}

theorem le_divEven (hd : 0 < d) (h : c * d ≤ n) : c ≤ divEven n d := by
  have hq : c ≤ n / d := (Nat.le_div_iff_mul_le hd).2 h
  rw [divEven]
  split
  · exact hq
  · split <;> omega

theorem divEven_le (hd : 0 < d) (h : n ≤ c * d) : divEven n d ≤ c := by
  rw [divEven]
  rcases Nat.lt_or_ge (n / d) c with hq | hq
  · split
    · exact hq.le
    · split <;> omega
  · -- the quotient is exact
    obtain rfl : n = c * d := Nat.le_antisymm h ((Nat.le_div_iff_mul_le hd).1 hq)
    simp [Nat.mul_div_cancel _ hd, hd]

theorem cast_twoTo (k : Nat) : (twoTo k : ℚ) = 2 ^ k := by
  simp [twoTo]

theorem zpow_toNat {e : Int} (h : 0 ≤ e) : (2 : ℚ) ^ e.toNat = 2 ^ e := by
  rw [← zpow_natCast, Int.toNat_of_nonneg h]

/-- The scaled quotient, as a quotient of whole numbers. -/
theorem scaleEven_eq (n d : Nat) (hd : 0 < d) (e : Int) : ∃ n' d' : Nat, 0 < d' ∧
    scaleEven n d e = divEven n' d' ∧ (n' / d' : ℚ) = n / d * 2 ^ e := by
  rw [scaleEven]
  split
  · rename_i h
    refine ⟨n * twoTo e.toNat, d, hd, rfl, ?_⟩
    rw [Nat.cast_mul, cast_twoTo, zpow_toNat h]
    ring
  · rename_i h
    refine ⟨n, d * twoTo (-e).toNat, Nat.mul_pos hd (Nat.two_pow_pos _), rfl, ?_⟩
    rw [Nat.cast_mul, cast_twoTo, zpow_toNat (by omega), zpow_neg]
    field_simp

theorem le_scaleEven (hd : 0 < d) {e : Int} (h : (c : ℚ) ≤ n / d * 2 ^ e) : c ≤ scaleEven n d e := by
  obtain ⟨n', d', hd', hs, hq⟩ := scaleEven_eq n d hd e
  rw [← hq, le_div_iff₀ (by exact_mod_cast hd')] at h
  rw [hs]
  exact le_divEven hd' (by exact_mod_cast h)

theorem scaleEven_le (hd : 0 < d) {e : Int} (h : n / d * 2 ^ e ≤ (c : ℚ)) : scaleEven n d e ≤ c := by
  obtain ⟨n', d', hd', hs, hq⟩ := scaleEven_eq n d hd e
  rw [← hq, div_le_iff₀ (by exact_mod_cast hd')] at h
  rw [hs]
  exact divEven_le hd' (by exact_mod_cast h)

/-- The power of two at or below a quotient. -/
theorem zpow_log_le (hn : 0 < n) (hd : 0 < d) :
    let k : Int := (n.log2 : Int) - d.log2
    let isBelow : Bool := if 0 ≤ k then n < d * twoTo k.toNat else n * twoTo (-k).toNat < d
    let j := if isBelow then k - 1 else k
    (2 : ℚ) ^ j ≤ n / d ∧ (n / d : ℚ) < 2 ^ (j + 1) := by
  intro k isBelow j
  have hd' : (0 : ℚ) < d := by exact_mod_cast hd
  have hbelow : isBelow ↔ (n / d : ℚ) < 2 ^ k := by
    rw [div_lt_iff₀ hd']
    simp only [isBelow]
    split
    · rename_i h
      rw [decide_eq_true_eq, ← zpow_toNat h, ← cast_twoTo, mul_comm _ (d : ℚ)]
      exact_mod_cast Iff.rfl
    · rename_i h
      have hk : (2 : ℚ) ^ k = (2 ^ (-k).toNat)⁻¹ := by
        rw [zpow_toNat (by omega), zpow_neg, inv_inv]
      rw [decide_eq_true_eq, hk, ← cast_twoTo, inv_mul_eq_div, lt_div_iff₀ (by simp)]
      exact_mod_cast Iff.rfl
  have hnlo : (2 : ℚ) ^ (n.log2 : Int) ≤ n := by exact_mod_cast Nat.log2_self_le hn.ne'
  have hnhi : (n : ℚ) < 2 ^ ((n.log2 : Int) + 1) := by exact_mod_cast Nat.lt_log2_self
  have hdlo : (2 : ℚ) ^ (d.log2 : Int) ≤ d := by exact_mod_cast Nat.log2_self_le hd.ne'
  have hdhi : (d : ℚ) < 2 ^ ((d.log2 : Int) + 1) := by exact_mod_cast Nat.lt_log2_self
  have hlo : (2 : ℚ) ^ (k - 1) ≤ n / d := by
    rw [le_div_iff₀ hd']
    calc (2 : ℚ) ^ (k - 1) * d ≤ 2 ^ (k - 1) * 2 ^ ((d.log2 : Int) + 1) := by gcongr
      _ = 2 ^ (n.log2 : Int) := by rw [← zpow_add₀ two_ne_zero]; congr 1; omega
      _ ≤ n := hnlo
  have hhi : (n / d : ℚ) < 2 ^ (k + 1) := by
    rw [div_lt_iff₀ hd']
    calc (n : ℚ) < 2 ^ ((n.log2 : Int) + 1) := hnhi
      _ = 2 ^ (k + 1) * 2 ^ (d.log2 : Int) := by rw [← zpow_add₀ two_ne_zero]; congr 1; omega
      _ ≤ 2 ^ (k + 1) * d := by gcongr
  by_cases h : isBelow
  · have hj : j = k - 1 := if_pos h
    rw [hj, Int.sub_add_cancel]
    exact ⟨hlo, hbelow.1 h⟩
  · have hj : j = k := if_neg h
    rw [hj]
    exact ⟨not_lt.1 fun hlt => h (hbelow.2 hlt), hhi⟩

end Whole

namespace Binary64

/-- What a positive quotient is rounded to: a number of the format, on the same side of every whole number of
fifty-three bits as the quotient is, or, for a huge one, infinity. -/
inductive Rounds (q : ℚ) : Binary64 → Prop
  | infinite (h : 2 ^ 53 ≤ q) : Rounds q (.infinite false)
  | finite {m : Nat} {e : Int} (hm : m < 2 ^ 53) (hfull : 2 ^ 52 ≤ m ∨ e = leastExponent)
      (hlo : ∀ c : Nat, c < 2 ^ 53 → c ≤ q → (c : ℚ) ≤ m * 2 ^ e)
      (hhi : ∀ c : Nat, c < 2 ^ 53 → q ≤ c → (m * 2 ^ e : ℚ) ≤ c) : Rounds q (.finite false m e)

section Round

variable {n d : Nat} {j e : Int}

/-- With an exponent of at most zero whole numbers can be held as they are, with a greater one the mantissa is
full. -/
theorem exponent_cases (hd : 0 < d) (hlo : (2 : ℚ) ^ j ≤ n / d) (he : e = max leastExponent (j - 52)) :
    (e ≤ 0 ∨ (2 : ℚ) ^ 53 ≤ n / d) ∧ (2 ^ 52 ≤ scaleEven n d (-e) ∨ e = leastExponent) := by
  rcases Int.le_total (j - 52) leastExponent with hj | hj
  · exact ⟨.inl (by simp only [leastExponent] at *; omega), .inr (by omega)⟩
  obtain rfl : e = j - 52 := by omega
  constructor
  · by_cases h0 : j - 52 ≤ 0
    · exact .inl h0
    · have h53 : (2 : ℚ) ^ (53 : Int) ≤ 2 ^ j := zpow_le_zpow_right₀ one_le_two (by omega)
      exact .inr (le_trans (by exact_mod_cast h53) hlo)
  · refine .inl (le_scaleEven hd ?_)
    calc ((2 ^ 52 : Nat) : ℚ) = 2 ^ j * 2 ^ (-(j - 52)) := by
          rw [← zpow_add₀ two_ne_zero, show j + -(j - 52) = 52 by omega]; norm_num
      _ ≤ n / d * 2 ^ (-(j - 52)) := by gcongr

theorem scaleEven_le_bound (hd : 0 < d) (hhi : (n / d : ℚ) < 2 ^ (j + 1))
    (he : e = max leastExponent (j - 52)) : scaleEven n d (-e) ≤ 2 ^ 53 := by
  refine scaleEven_le hd ?_
  calc (n / d : ℚ) * 2 ^ (-e) ≤ 2 ^ (j + 1) * 2 ^ (-e) := by gcongr
    _ = 2 ^ (j + 1 - e) := by rw [← zpow_add₀ two_ne_zero]; rfl
    _ ≤ 2 ^ (53 : Int) := zpow_le_zpow_right₀ one_le_two (by omega)
    _ = ((2 ^ 53 : Nat) : ℚ) := by norm_num

/-- A whole number in units of a power of two. -/
theorem cast_units (c : Nat) {e : Int} (h : e ≤ 0) : ((c * twoTo (-e).toNat : Nat) : ℚ) = c * 2 ^ (-e) := by
  rw [Nat.cast_mul, cast_twoTo, zpow_toNat (by omega)]

theorem units_mul (c : ℚ) (e : Int) : c * 2 ^ (-e) * 2 ^ e = c := by
  rw [mul_assoc, ← zpow_add₀ two_ne_zero]
  simp

theorem le_scaleEven_mul (hd : 0 < d) (hlo : (2 : ℚ) ^ j ≤ n / d) (he : e = max leastExponent (j - 52))
    {c : Nat} (hc : c < 2 ^ 53) (h : (c : ℚ) ≤ n / d) : (c : ℚ) ≤ scaleEven n d (-e) * 2 ^ e := by
  obtain ⟨hexp, hfull⟩ := exponent_cases hd hlo he
  by_cases h0 : e ≤ 0
  · have hm : c * twoTo (-e).toNat ≤ scaleEven n d (-e) := by
      refine le_scaleEven hd ?_
      rw [cast_units c h0]
      gcongr
    calc (c : ℚ) = (c * twoTo (-e).toNat : Nat) * 2 ^ e := by rw [cast_units c h0, units_mul]
      _ ≤ scaleEven n d (-e) * 2 ^ e := by gcongr
  · have hm : 2 ^ 52 ≤ scaleEven n d (-e) := by
      rcases hfull with hm | hm
      · exact hm
      · simp only [leastExponent] at hm
        omega
    calc (c : ℚ) ≤ (2 ^ 53 : Nat) := by exact_mod_cast hc.le
      _ = (2 ^ 52 : Nat) * 2 ^ (1 : Int) := by norm_num
      _ ≤ scaleEven n d (-e) * 2 ^ e := by
        gcongr
        · exact one_le_two
        · omega

theorem scaleEven_mul_le (hd : 0 < d) (hlo : (2 : ℚ) ^ j ≤ n / d) (he : e = max leastExponent (j - 52))
    {c : Nat} (hc : c < 2 ^ 53) (h : n / d ≤ (c : ℚ)) : (scaleEven n d (-e) * 2 ^ e : ℚ) ≤ c := by
  rcases (exponent_cases hd hlo he).1 with h0 | hhuge
  · have hm : scaleEven n d (-e) ≤ c * twoTo (-e).toNat := by
      refine scaleEven_le hd ?_
      rw [cast_units c h0]
      gcongr
    calc (scaleEven n d (-e) * 2 ^ e : ℚ) ≤ (c * twoTo (-e).toNat : Nat) * 2 ^ e := by gcongr
      _ = c := by rw [cast_units c h0, units_mul]
  · have : (c : ℚ) < 2 ^ 53 := by exact_mod_cast hc
    linarith

end Round

variable {n d c : Nat} {q : ℚ} {x : Binary64}

theorem rounds_ofRatio (hn : 0 < n) (hd : 0 < d) : Rounds (n / d) (ofRatio false n d) := by
  obtain ⟨hlo, hhi⟩ := zpow_log_le hn hd
  rw [ofRatio, if_neg hn.ne']
  extract_lets k isBelow e m at *
  have he : e = max leastExponent ((if isBelow then k - 1 else k) - 52) := by
    simp only [e]
    split
    · rw [show k - 1 - 52 = k - 53 by omega]
    · rfl
  obtain ⟨hexp, hfull⟩ := exponent_cases hd hlo he
  have hm : m ≤ 2 ^ 53 := scaleEven_le_bound hd hhi he
  have hle : ∀ c : Nat, c < 2 ^ 53 → (c : ℚ) ≤ n / d → (c : ℚ) ≤ m * 2 ^ e :=
    fun _ => le_scaleEven_mul hd hlo he
  have hge : ∀ c : Nat, c < 2 ^ 53 → n / d ≤ (c : ℚ) → (m * 2 ^ e : ℚ) ≤ c :=
    fun _ => scaleEven_mul_le hd hlo he
  by_cases hb : m = mantissaBound
  · -- the mantissa gives a factor of two to the exponent
    have hvalue : (m * 2 ^ e : ℚ) = (2 ^ 52 : Nat) * 2 ^ (e + 1) := by
      rw [hb, zpow_add_one₀ two_ne_zero, mantissaBound, cast_twoTo]
      push_cast
      ring
    simp only [hb, if_true]
    split
    · refine .infinite (hexp.resolve_left ?_)
      simp only [greatestExponent] at *
      omega
    · simp only [hvalue] at hle hge
      exact .finite (by norm_num) (.inl le_rfl) hle hge
  · simp only [hb, if_false]
    split
    · refine .infinite (hexp.resolve_left ?_)
      simp only [greatestExponent] at *
      omega
    · exact .finite (lt_of_le_of_ne hm hb) hfull hle hge

theorem rounds_ofNat (hn : 0 < n) : Rounds n (ofNat n) := by
  have h := rounds_ofRatio hn Nat.one_pos
  rwa [Nat.cast_one, div_one] at h

/-- A whole number of fifty-three bits is held as it is. -/
theorem ofNat_eq (h0 : 0 < c) (hc : c < 2 ^ 53) :
    ∃ m e, ofNat c = .finite false m e ∧ (m * 2 ^ e : ℚ) = c := by
  have hr := rounds_ofNat h0
  generalize ofNat c = x at hr
  cases hr with
  | infinite h => exact absurd h (not_le.2 (by exact_mod_cast hc))
  | finite hm hfull hlo hhi => exact ⟨_, _, rfl, le_antisymm (hhi c hc le_rfl) (hlo c hc le_rfl)⟩

theorem fraction_eq (m : Nat) (e : Int) :
    0 < (fraction m e).2 ∧ ((fraction m e).1 / (fraction m e).2 : ℚ) = m * 2 ^ e := by
  rw [fraction]
  split
  · rename_i h
    refine ⟨Nat.one_pos, ?_⟩
    rw [Nat.cast_one, div_one, Nat.cast_mul, cast_twoTo, zpow_toNat h]
  · rename_i h
    refine ⟨Nat.two_pow_pos _, ?_⟩
    rw [cast_twoTo, zpow_toNat (by omega), zpow_neg, div_inv_eq_mul]

theorem fraction_pos {m : Nat} {e : Int} (h : (0 : ℚ) < m * 2 ^ e) : 0 < (fraction m e).1 := by
  rw [← (fraction_eq m e).2] at h
  rcases Nat.eq_zero_or_pos (fraction m e).1 with h0 | h0
  · simp [h0] at h
  · exact h0

/-- The rounding of a quotient that is no less than `c`. -/
def Reaches (c : Nat) (x : Binary64) : Prop := ∃ q : ℚ, c ≤ q ∧ Rounds q x

theorem Reaches.cases (hc : c < 2 ^ 53) (h : Reaches c x) :
    x = .infinite false ∨ ∃ m e, x = .finite false m e ∧ (c : ℚ) ≤ m * 2 ^ e := by
  obtain ⟨q, hq, hx⟩ := h
  cases hx with
  | infinite h => exact .inl rfl
  | finite hm hfull hlo hhi => exact .inr ⟨_, _, rfl, hlo c hc hq⟩

theorem reaches_ofNat (h0 : 0 < n) (h : c ≤ n) : Reaches c (.ofNat n) :=
  ⟨n, by exact_mod_cast h, rounds_ofNat h0⟩

theorem reaches_infinite (c : Nat) : Reaches c (.infinite false) :=
  ⟨max c (2 ^ 53), le_max_left _ _, .infinite (le_max_right _ _)⟩

variable {k : Nat}

theorem times_finite (s t : Bool) (m k : Nat) (e f : Int) : times (.finite s m e) (.finite t k f) =
    ofRatio s ((fraction m e).1 * (fraction k f).1) ((fraction m e).2 * (fraction k f).2) := rfl

theorem dividedBy_finite (s t : Bool) (m k : Nat) (e f : Int) : dividedBy (.finite s m e) (.finite t k f) =
    ofRatio s ((fraction m e).1 * (fraction k f).2) ((fraction m e).2 * (fraction k f).1) := rfl

theorem Reaches.times (h0 : 0 < c) (hc : c < 2 ^ 53) (k0 : 0 < k) (hk : k < 2 ^ 53) (h : Reaches c x) :
    Reaches (c * k) (x.times (.ofNat k)) := by
  obtain ⟨m₁, e₁, hy, hv⟩ := ofNat_eq k0 hk
  rw [hy]
  obtain rfl | ⟨m, e, rfl, hm⟩ := h.cases hc
  · exact reaches_infinite _
  · obtain ⟨hd, hq⟩ := fraction_eq m e
    obtain ⟨hd₁, hq₁⟩ := fraction_eq m₁ e₁
    have hn : 0 < (fraction m e).1 := fraction_pos (lt_of_lt_of_le (by exact_mod_cast h0) hm)
    have hn₁ : 0 < (fraction m₁ e₁).1 := fraction_pos (by rw [hv]; exact_mod_cast k0)
    rw [times_finite]
    refine ⟨_, ?_, rounds_ofRatio (Nat.mul_pos hn hn₁) (Nat.mul_pos hd hd₁)⟩
    rw [Nat.cast_mul, Nat.cast_mul, Nat.cast_mul, mul_div_mul_comm, hq, hq₁, hv]
    gcongr

theorem Reaches.dividedBy (h0 : 0 < c) (k0 : 0 < k) (hck : c * k < 2 ^ 53) (h : Reaches (c * k) x) :
    Reaches c (x.dividedBy (.ofNat k)) := by
  obtain ⟨m₁, e₁, hy, hv⟩ := ofNat_eq k0 (lt_of_le_of_lt (Nat.le_mul_of_pos_left k h0) hck)
  rw [hy]
  obtain rfl | ⟨m, e, rfl, hm⟩ := h.cases hck
  · exact reaches_infinite _
  · obtain ⟨hd, hq⟩ := fraction_eq m e
    obtain ⟨hd₁, hq₁⟩ := fraction_eq m₁ e₁
    have hn : 0 < (fraction m e).1 :=
      fraction_pos (lt_of_lt_of_le (by exact_mod_cast Nat.mul_pos h0 k0) hm)
    have hn₁ : 0 < (fraction m₁ e₁).1 := fraction_pos (by rw [hv]; exact_mod_cast k0)
    rw [dividedBy_finite]
    refine ⟨_, ?_, rounds_ofRatio (Nat.mul_pos hn hd₁) (Nat.mul_pos hd hn₁)⟩
    have hquot : ((((fraction m e).1 * (fraction m₁ e₁).2 : Nat) : ℚ) /
        ((fraction m e).2 * (fraction m₁ e₁).1 : Nat)) = m * 2 ^ e / k := by
      rw [← hv, ← hq₁, ← hq]
      push_cast
      field_simp
    rw [hquot, le_div_iff₀ (by exact_mod_cast k0)]
    exact_mod_cast hm

theorem toBits_of_le {m : Nat} {e : Int} (h : 2 ^ 52 ≤ m) :
    toBits (.finite false m e) = (e + 1075).toNat * 2 ^ 52 + (m - 2 ^ 52) := by
  have hm : ¬ m < twoTo 52 := not_lt.2 h
  rw [toBits, signBit, if_neg hm, if_neg Bool.false_ne_true, Nat.zero_add]
  rfl

/-- What reaches a hundred is cut down to it. -/
theorem Reaches.least (h : Reaches 100 x) : x.least (.ofNat 100) = .ofNat 100 := by
  have hy : Binary64.ofNat 100 = .finite false (100 * 2 ^ 46) (-46) := by decide
  rw [hy, Binary64.least]
  split
  · rename_i hbits
    obtain ⟨q, hq, hx⟩ := h
    cases hx with
    | infinite h => exact absurd hbits (by decide)
    | @finite m e hm hfull hlo hhi =>
      have hv : (100 : ℚ) ≤ m * 2 ^ e := by exact_mod_cast hlo 100 (by norm_num) hq
      have hm' : (m : ℚ) < 2 ^ 53 := by exact_mod_cast hm
      have he : -46 ≤ e := by
        by_contra hlt
        have : (m * 2 ^ e : ℚ) ≤ 2 ^ 53 * 2 ^ (-47 : Int) := by
          gcongr
          · exact one_le_two
          · omega
        norm_num at this
        linarith
      have hfull' : 2 ^ 52 ≤ m := by
        rcases hfull with h | h
        · exact h
        · simp only [leastExponent] at h
          omega
      -- neither the exponent nor, with the same exponent, the mantissa can be greater
      have htop : toBits (.finite false (100 * 2 ^ 46) (-46)) = 1029 * 2 ^ 52 + (100 * 2 ^ 46 - 2 ^ 52) := by
        decide
      rw [toBits_of_le hfull', htop] at hbits
      obtain rfl : e = -46 := by omega
      have hle : (100 * 2 ^ 46 : ℚ) ≤ m := by
        norm_num at hv
        linarith
      have hle' : 100 * 2 ^ 46 ≤ m := by exact_mod_cast hle
      obtain rfl : m = 100 * 2 ^ 46 := by omega
      rfl
  · rfl

end Binary64

end Rollcall
