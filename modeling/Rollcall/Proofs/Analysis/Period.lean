import Mathlib.Data.List.Nodup
import Rollcall.Analysis.Period
import Rollcall.Proofs.Time.Instant

/-! The days of a period: every instant of the period lies on one of them, each is listed once, and each is
the day of some instant, so its date can be told from other dates. The ways in which a period is found for the
bounds and the length asked for, or is not, are said once; in all of them the interval is the time from the start
to the end. -/

namespace Rollcall.Period

variable {p : Period} {t : Instant} {d : Int}

theorem contains_iff : p.contains t ↔ p.start ≤ t ∧ t < p.stop := by
  simp [contains]

theorem mem_days : d ∈ p.days ↔ p.start.day ≤ d ∧ d ≤ lastDayBefore p.stop := by
  simp only [days, List.mem_map, List.mem_range]
  constructor
  · rintro ⟨i, hi, rfl⟩
    omega
  · rintro ⟨hlo, hhi⟩
    exact ⟨(d - p.start.day).toNat, by omega, by omega⟩

theorem nodup_days (p : Period) : p.days.Nodup := by
  refine List.Nodup.map (fun i j h => ?_) List.nodup_range
  omega

section Midnight

variable {stop m : Instant}

/-- The instant at which a day begins, if the calendar has the day. -/
def midnight? (d : Int) : Option Instant := Instant.ofUnix? (d * secondsPerDay) 0

theorem of_midnight? (h : midnight? d = some m) : m.seconds = d * secondsPerDay ∧ m.nanos = 0 :=
  Instant.of_ofUnix?_eq h

theorem day_of_midnight? (h : midnight? d = some m) : m.day = d := by
  have := of_midnight? h
  simp only [Instant.day, secondsPerDay] at *
  omega

/-- The calendar has the days of any two instants and all days between them. -/
theorem exists_midnight? {s t : Instant} (hlo : s.day ≤ d) (hhi : d ≤ t.day) : ∃ m, midnight? d = some m := by
  have hs := s.inRange
  have ht := t.inRange
  rw [midnight?, Instant.ofUnix?, if_pos (.inl (by decide))]
  refine ⟨_, dif_pos ⟨?_, by decide⟩⟩
  simp only [Instant.day, secondsPerDay] at *
  omega

theorem midnight_le_iff (h : midnight? d = some m) : m ≤ t ↔ d ≤ t.day := by
  obtain ⟨hs, hn⟩ := of_midnight? h
  rw [Instant.le_iff, hs, hn]
  simp only [Instant.day, secondsPerDay]
  omega

theorem midnight_lt_iff (h : midnight? d = some m) : m < stop ↔ d ≤ lastDayBefore stop := by
  obtain ⟨hs, hn⟩ := of_midnight? h
  rw [Instant.lt_iff, hs, hn]
  simp only [lastDayBefore, Bool.and_eq_true, decide_eq_true_eq]
  split
  · simp only [Instant.secondOfDay, Instant.day, secondsPerDay] at *
    omega
  · simp only [Instant.secondOfDay, Instant.day, secondsPerDay] at *
    omega

theorem lastDayBefore_le (stop : Instant) : lastDayBefore stop ≤ stop.day := by
  rw [lastDayBefore]
  split <;> omega

end Midnight

/-- The midnight of an instant before the end is before the end as well. -/
theorem day_le_lastDayBefore (h : t < p.stop) : t.day ≤ lastDayBefore p.stop := by
  obtain ⟨m, hm⟩ := exists_midnight? (Int.le_refl t.day) (Int.le_refl t.day)
  have hle : m ≤ t := (midnight_le_iff hm).2 (Int.le_refl _)
  exact (midnight_lt_iff hm).1 (Std.lt_of_le_of_lt hle h)

theorem day_mem_days (h : p.contains t) : t.day ∈ p.days := by
  obtain ⟨hstart, hstop⟩ := contains_iff.1 h
  refine mem_days.2 ⟨?_, day_le_lastDayBefore hstop⟩
  rw [Instant.le_iff] at hstart
  simp only [Instant.day, secondsPerDay]
  omega

/-- Midnight of a listed day is an instant. -/
theorem exists_day_eq (h : d ∈ p.days) : ∃ t : Instant, t.day = d := by
  obtain ⟨hlo, hhi⟩ := mem_days.1 h
  obtain ⟨m, hm⟩ := exists_midnight? hlo (Int.le_trans hhi (lastDayBefore_le p.stop))
  exact ⟨m, day_of_midnight? hm⟩

section Resolve

variable {start stop : Instant} {d : Int}

theorem shift_ok {t t' : Instant} (h : shift t d = .ok t') : t.add? d = some t' := by
  rw [shift] at h
  split at h <;> cases h
  assumption

theorem of_bind_pure_ok {α β : Type} {x : Except PeriodError α} {f : α → β} {b : β}
    (h : (x >>= fun a => pure (f a)) = .ok b) : ∃ a, x = .ok a ∧ f a = b := by
  cases x with
  | error e => cases h
  | ok a => exact ⟨a, rfl, Except.ok.inj h⟩

theorem shift_error {t : Instant} {e : PeriodError} (h : shift t d = .error e) : e = .outOfRange := by
  rw [shift] at h
  split at h <;> cases h
  rfl

theorem of_bind_pure_error {α β : Type} {x : Except PeriodError α} {f : α → β} {e : PeriodError}
    (h : (x >>= fun a => pure (f a)) = .error e) : x = .error e := by
  cases x with
  | error e' =>
    cases h
    rfl
  | ok a => cases h

theorem fromStart_error {e : PeriodError} (h : fromStart start d = .error e) : e = .outOfRange :=
  shift_error (of_bind_pure_error h)

theorem upTo_error {e : PeriodError} (h : upTo stop d = .error e) : e = .outOfRange :=
  shift_error (of_bind_pure_error h)

theorem fromStart_ok (h : fromStart start d = .ok p) : p.start = start ∧ p.interval = d ∧
    start.add? d = some p.stop := by
  obtain ⟨t, ht, rfl⟩ := of_bind_pure_ok h
  exact ⟨rfl, rfl, shift_ok ht⟩

theorem upTo_ok (h : upTo stop d = .ok p) : p.stop = stop ∧ p.interval = d ∧
    stop.add? (-d) = some p.start := by
  obtain ⟨t, ht, rfl⟩ := of_bind_pure_ok h
  exact ⟨rfl, rfl, shift_ok ht⟩

/-- The length that is asked for, or the default one. -/
def lengthOf (minutes : Option Int) : Int := (minutes.map (· * nanosPerMinute)).getD defaultInterval

theorem readInterval_ok {minutes d : Option Int} (h : readInterval minutes = .ok d) :
    d = minutes.map (· * nanosPerMinute) := by
  unfold readInterval at h
  split at h
  · cases h
    rfl
  · split at h
    · cases h
    · split at h
      · cases h
      · cases h
        rfl

theorem readInterval_error {minutes : Option Int} {e : PeriodError} (h : readInterval minutes = .error e) :
    (∃ m, minutes = some m ∧ m ≤ 0 ∧ e = .nonPositive m) ∨ e = .outOfRange := by
  unfold readInterval at h
  split at h
  · cases h
  · rename_i m
    split at h
    · rename_i hm
      cases h
      exact .inl ⟨m, rfl, hm, rfl⟩
    · split at h
      · cases h
        exact .inr rfl
      · cases h

variable {a b : Option Instant} {minutes : Option Int} {now : Instant}

/-- The length that is asked for, if any, can be had. -/
def Readable (minutes : Option Int) : Prop := readInterval minutes = .ok (minutes.map (· * nanosPerMinute))

/-- What a period comes from, its two bounds, its start, or its end or the default end, and why there may be
none. -/
inductive Resolved (a b : Option Instant) (minutes : Option Int) (now : Instant) (r : Except PeriodError Period) :
    Prop where
  | refused (e : PeriodError) (hread : readInterval minutes = .error e) (hr : r = .error e)
  | between (start stop : Instant) (ha : a = some start) (hb : b = some stop)
      (hr : r = .ok ⟨start, stop, stop.sub start⟩) (hread : Readable minutes)
      (hagree : ∀ m, minutes = some m → stop.sub start = m * nanosPerMinute)
  | mismatched (start stop : Instant) (m : Int) (ha : a = some start) (hb : b = some stop) (hm : minutes = some m)
      (hne : stop.sub start ≠ m * nanosPerMinute) (hr : r = .error (.mismatch start stop m))
      (hread : Readable minutes)
  | forward (start : Instant) (ha : a = some start) (hb : b = none) (hr : fromStart start (lengthOf minutes) = r)
      (hread : Readable minutes)
  | backward (ha : a = none) (hr : upTo (b.getD (defaultStop now)) (lengthOf minutes) = r)
      (hread : Readable minutes)

theorem resolved (a b : Option Instant) (minutes : Option Int) (now : Instant) :
    Resolved a b minutes now (resolve a b minutes now) := by
  cases hread : readInterval minutes with
  | error e =>
    rw [resolve, hread]
    exact .refused e hread rfl
  | ok interval =>
    rw [resolve, hread]
    obtain rfl := readInterval_ok hread
    cases a with
    | none => cases b <;> exact .backward rfl rfl hread
    | some start =>
      cases b with
      | none => exact .forward start rfl rfl rfl hread
      | some stop =>
        cases minutes with
        | none => exact .between start stop rfl rfl rfl hread nofun
        | some m =>
          by_cases heq : stop.sub start = m * nanosPerMinute
          · refine .between start stop rfl rfl ((if_pos heq).trans ?_) hread ?_
            · rw [heq]
              rfl
            · rintro _ ⟨⟩
              exact heq
          · exact .mismatched start stop m rfl rfl rfl heq (if_neg heq) hread

/-- The interval of a period that was found is the time from its start to its end. -/
theorem resolve_interval (h : resolve a b minutes now = .ok p) (hstart : p.start.isLeap = false)
    (hstop : p.stop.isLeap = false) : p.interval = p.stop.sub p.start := by
  have hways := resolved a b minutes now
  rw [h] at hways
  cases hways with
  | refused e _ hr => cases hr
  | between start stop _ _ hr =>
    cases hr
    rfl
  | mismatched _ _ _ _ _ _ _ hr => cases hr
  | forward start _ _ hr =>
    obtain ⟨rfl, hi, hadd⟩ := fromStart_ok hr
    rw [hi, Instant.sub_eq hstop hstart, (Instant.of_add?_eq hstart hadd).2]
    omega
  | backward _ hr =>
    obtain ⟨hs, hi, hadd⟩ := upTo_ok hr
    rw [← hs] at hadd
    rw [hi, Instant.sub_eq hstop hstart, (Instant.of_add?_eq hstop hadd).2]
    omega

end Resolve

end Rollcall.Period
