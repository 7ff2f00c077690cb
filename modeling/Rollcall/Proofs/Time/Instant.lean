import Rollcall.Time.Instant

/-! Instants in the order of time, and instants outside leap seconds as plain numbers of nanoseconds: their
order, their differences and their sums with a span are those of the numbers. Leap seconds blur differences and
sums by no more than a few seconds, so that longer spans tell the order all the same. -/

namespace Rollcall.Instant

variable {a b c : Instant}

theorem lt_iff : a < b ↔ a.seconds < b.seconds ∨ a.seconds = b.seconds ∧ a.nanos < b.nanos := by
  change a.before b = true ↔ _
  simp [before]

theorem le_iff : a ≤ b ↔ a.seconds < b.seconds ∨ a.seconds = b.seconds ∧ a.nanos ≤ b.nanos := by
  change b.before a = false ↔ _
  simp only [before, Bool.or_eq_false_iff, Bool.and_eq_false_iff, decide_eq_false_iff_not]
  omega

theorem eq_of_seconds_of_nanos (hs : a.seconds = b.seconds) (hn : a.nanos = b.nanos) : a = b := by
  cases a; cases b; simp_all

instance : Std.IsLinearOrder Instant where
  le_refl a := le_iff.2 (.inr ⟨rfl, Nat.le_refl _⟩)
  le_trans a b c hab hbc := by rw [le_iff] at *; omega
  le_antisymm a b hab hba := by
    rw [le_iff] at hab hba
    exact eq_of_seconds_of_nanos (by omega) (by omega)
  le_total a b := by rw [le_iff, le_iff]; omega

instance : Std.LawfulOrderLT Instant where
  lt_iff a b := by rw [lt_iff, le_iff, le_iff]; omega

theorem seconds_eq (t : Instant) : t.seconds = t.day * secondsPerDay + t.secondOfDay := by
  simp only [day, secondOfDay, secondsPerDay]
  omega

theorem isLeap_iff (t : Instant) : t.isLeap ↔ billion ≤ t.nanos := by
  simp [isLeap]

section Shift

variable {d : Int}

theorem of_ofParts?_eq {s : Int} {n : Nat} (h : ofParts? s n = some a) : a.seconds = s ∧ a.nanos = n := by
  rw [ofParts?] at h
  split at h
  · cases h
    exact ⟨rfl, rfl⟩
  · contradiction

theorem of_ofUnix?_eq {s : Int} {n : Nat} (h : ofUnix? s n = some a) : a.seconds = s ∧ a.nanos = n := by
  rw [ofUnix?] at h
  split at h
  · exact of_ofParts?_eq h
  · contradiction

/-- A span moves an instant by its whole seconds, give or take two for the fractions and a leap second. -/
theorem seconds_of_add? (h : a.add? d = some b) :
    a.seconds + d.tdiv billion - 2 ≤ b.seconds ∧ b.seconds ≤ a.seconds + d.tdiv billion + 2 := by
  have hpart : -billion < d.tmod billion ∧ d.tmod billion < billion :=
    ⟨Int.lt_tmod_of_pos d (by decide), Int.tmod_lt_of_pos d (by decide)⟩
  have hrange := a.nanosInRange
  have hleap := a.isLeap_iff
  rw [add?] at h
  dsimp only at h
  split at h
  · obtain ⟨hs, -⟩ := of_ofParts?_eq h
    omega
  · obtain ⟨hs, -⟩ := of_ofParts?_eq h
    by_cases hl : a.isLeap
    · simp only [hl, true_and, if_true, true_iff, billion] at *
      omega
    · simp only [hl, Bool.false_eq_true, false_and, if_false, false_iff, billion] at *
      omega

theorem lt_of_add? (h : a.add? d = some b) (hd : 3 * billion ≤ d) : a < b := by
  have := seconds_of_add? h
  have := Int.tdiv_mul_add_tmod d billion
  have : d.tmod billion < billion := Int.tmod_lt_of_pos d (by decide)
  simp only [lt_iff, billion] at *
  omega

theorem add?_lt (h : a.add? d = some b) (hd : d ≤ -3 * billion) : b < a := by
  have := seconds_of_add? h
  have := Int.tdiv_mul_add_tmod d billion
  have : -billion < d.tmod billion := Int.lt_tmod_of_pos d (by decide)
  simp only [lt_iff, billion] at *
  omega

/-- Going on never leads back, not even within a leap second. -/
theorem le_of_add? (h : a.add? d = some b) (hd : 0 ≤ d) : a ≤ b := by
  have hwhole : 0 ≤ d.tdiv billion := Int.tdiv_nonneg hd (by decide)
  have hpart : 0 ≤ d.tmod billion := Int.tmod_nonneg _ hd
  have hrange := a.nanosInRange
  have hleap := a.isLeap_iff
  rw [le_iff]
  rw [add?] at h
  dsimp only at h
  split at h
  · obtain ⟨hs, hn⟩ := of_ofParts?_eq h
    omega
  · obtain ⟨hs, hn⟩ := of_ofParts?_eq h
    by_cases hl : a.isLeap
    · simp only [hl, true_and, if_true, true_iff, billion] at *
      omega
    · simp only [hl, Bool.false_eq_true, false_and, if_false, false_iff, billion] at *
      omega

/-- Leap seconds cannot feign a difference of three seconds. A smaller one does not tell which of two instants
comes first. -/
theorem lt_of_le_sub (h : 3 * billion ≤ b.sub a) : a < b := by
  have ha := a.seconds_eq
  have hb := b.seconds_eq
  have := a.nanosInRange
  have := b.nanosInRange
  rw [sub] at h
  rw [lt_iff]
  simp only [secondsPerDay, billion] at *
  split at h
  · omega
  · split at h
    · omega
    · omega

end Shift

section Ordinary

theorem nanos_lt_billion (ha : a.isLeap = false) : a.nanos < billion := by
  simpa [isLeap] using ha

theorem le_iff_unixNanos (ha : a.isLeap = false) (hb : b.isLeap = false) :
    a ≤ b ↔ a.unixNanos ≤ b.unixNanos := by
  have := nanos_lt_billion ha
  have := nanos_lt_billion hb
  simp only [le_iff, unixNanos, billion] at *
  omega

theorem lt_iff_unixNanos (ha : a.isLeap = false) (hb : b.isLeap = false) :
    a < b ↔ a.unixNanos < b.unixNanos := by
  have := nanos_lt_billion ha
  have := nanos_lt_billion hb
  simp only [lt_iff, unixNanos, billion] at *
  omega

theorem sub_eq (ha : a.isLeap = false) (hb : b.isLeap = false) :
    a.sub b = a.unixNanos - b.unixNanos := by
  simp only [sub, ha, hb, unixNanos, Bool.false_eq_true, and_false, if_false]
  rw [a.seconds_eq, b.seconds_eq]
  simp only [secondsPerDay, billion]
  omega

theorem add?_eq_ofParts? (ha : a.isLeap = false) (d : Int) : a.add? d =
    ofParts? ((a.unixNanos + d) / billion) ((a.unixNanos + d) % billion).toNat := by
  have hd : d.tdiv billion * billion + d.tmod billion = d := Int.tdiv_mul_add_tmod d billion
  have hsec : a.seconds + d.tdiv billion + (a.nanos + d.tmod billion) / billion =
      (a.unixNanos + d) / billion := by
    simp only [unixNanos, billion] at hd ⊢
    omega
  have hpart : (a.nanos + d.tmod billion) % billion = (a.unixNanos + d) % billion := by
    simp only [unixNanos, billion] at hd ⊢
    omega
  simp only [add?, ha, Bool.false_eq_true, false_and, if_false, hsec, hpart]

/-- A span added to an instant is added to its number, as long as the sum is in range. -/
theorem add?_eq (ha : a.isLeap = false) {d : Int}
    (hlo : -8334601228800 ≤ (a.unixNanos + d) / billion) (hhi : (a.unixNanos + d) / billion ≤ 8210266876799) :
    ∃ t, a.add? d = some t ∧ t.isLeap = false ∧ t.unixNanos = a.unixNanos + d := by
  have hnanos : ((a.unixNanos + d) % billion).toNat < billion := by
    simp only [billion]
    omega
  have hfit : ((a.unixNanos + d) % billion).toNat < 2 * billion := by omega
  refine ⟨⟨(a.unixNanos + d) / billion, ((a.unixNanos + d) % billion).toNat, ⟨hlo, hhi⟩, hfit⟩, ?_, ?_, ?_⟩
  · rw [add?_eq_ofParts? ha, ofParts?]
    exact dif_pos ⟨⟨hlo, hhi⟩, hfit⟩
  · simpa [isLeap] using hnanos
  · simp only [unixNanos, billion]
    omega

theorem of_add?_eq (ha : a.isLeap = false) {d : Int} (h : a.add? d = some b) :
    b.isLeap = false ∧ b.unixNanos = a.unixNanos + d := by
  rw [add?_eq_ofParts? ha] at h
  obtain ⟨hs, hn⟩ := of_ofParts?_eq h
  constructor
  · refine decide_eq_false ?_
    rw [hn]
    simp only [billion]
    omega
  · rw [unixNanos, hs, hn]
    simp only [unixNanos, billion]
    omega

theorem ofParts?_self (t : Instant) : ofParts? t.seconds t.nanos = some t := dif_pos ⟨t.inRange, t.nanosInRange⟩

theorem add?_eq_some_iff (ha : a.isLeap = false) {d : Int} :
    a.add? d = some b ↔ b.isLeap = false ∧ b.unixNanos = a.unixNanos + d := by
  constructor
  · exact of_add?_eq ha
  · rintro ⟨hb, hsum⟩
    have hnanos := nanos_lt_billion hb
    have hs : b.unixNanos / billion = b.seconds := by
      simp only [unixNanos, billion] at *
      omega
    have hn : (b.unixNanos % billion).toNat = b.nanos := by
      simp only [unixNanos, billion] at *
      omega
    rw [add?_eq_ofParts? ha, ← hsum, hs, hn, ofParts?_self]

end Ordinary

/-- Outside leap seconds, and at least an hour away from the first and from the last instant. -/
structure IsInner (t : Instant) : Prop where
  isLeap : t.isLeap = false
  le_seconds : -8334601228800 + 3600 ≤ t.seconds
  seconds_le : t.seconds ≤ 8210266876799 - 3600

/-- An hour more or less is always there. -/
theorem IsInner.add?_eq (h : a.IsInner) {d : Int} (hlo : -3600 * billion ≤ d) (hhi : d ≤ 3600 * billion) :
    ∃ t, a.add? d = some t ∧ t.isLeap = false ∧ t.unixNanos = a.unixNanos + d := by
  have := nanos_lt_billion h.isLeap
  have := h.le_seconds
  have := h.seconds_le
  refine Instant.add?_eq h.isLeap ?_ ?_ <;> simp only [unixNanos, billion] at * <;> omega

end Rollcall.Instant
