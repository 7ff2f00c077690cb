import Rollcall.Retry

/-! Contracts of steps that may fail. A contract says what holds after a success and what after a failure,
and contracts compose along the steps; for a retried operation it is enough that a failed call keeps what
the next one needs. -/

namespace Rollcall

namespace Act

variable {σ ε ε' α β : Type} {P : σ → Prop} {Q : α → σ → Prop} {E : ε → σ → Prop}

theorem bind_of_ok {x : Act σ ε α} {f : α → Act σ ε β} {s t : σ} {a : α} (h : x s = (.ok a, t)) :
    (x >>= f) s = f a t := by
  show ExceptT.bindCont f (x s).1 (x s).2 = _
  rw [h]
  rfl

theorem bind_of_error {x : Act σ ε α} {f : α → Act σ ε β} {s t : σ} {e : ε}
    (h : x s = (.error e, t)) : (x >>= f) s = (.error e, t) := by
  show ExceptT.bindCont f (x s).1 (x s).2 = _
  rw [h]
  rfl

theorem mapError_of_ok {x : Act σ ε α} {s t : σ} {a : α} (h : x s = (.ok a, t)) (g : ε → ε') :
    x.mapError g s = (.ok a, t) := by
  rw [mapError, h]
  rfl

theorem mapError_of_error {x : Act σ ε α} {s t : σ} {e : ε} (h : x s = (.error e, t)) (g : ε → ε') :
    x.mapError g s = (.error (g e), t) := by
  rw [mapError, h]
  rfl

theorem outcome_of_eq {x : Act σ ε α} {s t : σ} {r : Except ε α} (h : x s = (r, t)) :
    (x.outcome : Act σ ε' (Except ε α)) s = (.ok r, t) := by
  rw [outcome, h]

/-- From every world with `P` the step succeeds with `Q` or fails with `E`. -/
def Ensures (x : Act σ ε α) (P : σ → Prop) (Q : α → σ → Prop) (E : ε → σ → Prop) : Prop :=
  ∀ s, P s → match x s with
    | (.ok a, t) => Q a t
    | (.error e, t) => E e t

theorem Ensures.of_ok {x : Act σ ε α} (h : x.Ensures P Q E) {s t : σ} {a : α} (hs : P s)
    (hx : x s = (.ok a, t)) : Q a t := by
  simpa [hx] using h s hs

theorem Ensures.of_error {x : Act σ ε α} (h : x.Ensures P Q E) {s t : σ} {e : ε} (hs : P s)
    (hx : x s = (.error e, t)) : E e t := by
  simpa [hx] using h s hs

theorem Ensures.intro {x : Act σ ε α} (ok : ∀ s t a, P s → x s = (.ok a, t) → Q a t)
    (error : ∀ s t e, P s → x s = (.error e, t) → E e t) : x.Ensures P Q E := by
  intro s hs
  rcases hx : x s with ⟨_ | _, t⟩
  · exact error s t _ hs hx
  · exact ok s t _ hs hx

theorem Ensures.mono {x : Act σ ε α} {P' : σ → Prop} {Q' : α → σ → Prop} {E' : ε → σ → Prop}
    (h : x.Ensures P Q E) (hp : ∀ s, P' s → P s) (hq : ∀ a s, Q a s → Q' a s)
    (he : ∀ e s, E e s → E' e s) : x.Ensures P' Q' E' :=
  .intro (fun _ _ _ hs hx => hq _ _ (h.of_ok (hp _ hs) hx))
    fun _ _ _ hs hx => he _ _ (h.of_error (hp _ hs) hx)

theorem Ensures.pure {a : α} (h : ∀ s, P s → Q a s) : (pure a : Act σ ε α).Ensures P Q E := h

theorem Ensures.throw {e : ε} (h : ∀ s, P s → E e s) : (throw e : Act σ ε α).Ensures P Q E := h

theorem Ensures.bind {x : Act σ ε α} {f : α → Act σ ε β} {R : β → σ → Prop} (hx : x.Ensures P Q E)
    (hf : ∀ a, (f a).Ensures (Q a) R E) : (x >>= f).Ensures P R E := by
  intro s hs
  rcases h : x s with ⟨e | a, t⟩
  · rw [bind_of_error h]
    exact hx.of_error hs h
  · rw [bind_of_ok h]
    exact hf a t (hx.of_ok hs h)

theorem Ensures.mapError {x : Act σ ε α} {g : ε → ε'} {E' : ε' → σ → Prop}
    (h : x.Ensures P Q fun e => E' (g e)) : (x.mapError g).Ensures P Q E' := by
  intro s hs
  rcases hx : x s with ⟨e | a, t⟩
  · rw [mapError_of_error hx]
    exact h.of_error hs hx
  · rw [mapError_of_ok hx]
    exact h.of_ok hs hx

end Act

namespace Budget

variable {σ ε α : Type} [Clocked σ] {op : Act σ ε α} {P : σ → Prop} {Q : α → σ → Prop}

theorem retryFrom_of_ok {s t : σ} {a : α} (h : op s = (.ok a, t)) (left delay attempt : Nat) :
    retryFrom op left delay attempt s = (.ok a, t) := by
  cases left with
  | zero => exact Act.mapError_of_ok h _
  | succ left => simp [retryFrom, h]

theorem retryFrom_of_error {s t : σ} {e : ε} (h : op s = (.error e, t)) (left delay attempt : Nat) :
    retryFrom op (left + 1) delay attempt s =
      retryFrom op left (doubledDelay delay) (attempt + 1) (Clocked.sleep delay t) := by
  simp [retryFrom, h]

theorem ensures_retryFrom (hop : op.Ensures P Q fun _ => P)
    (hsleep : ∀ d s, P s → P (Clocked.sleep d s)) (left delay attempt : Nat) :
    (retryFrom op left delay attempt).Ensures P Q fun e s => e.attempts = attempt + left ∧ P s := by
  induction left generalizing delay attempt with
  | zero => exact .mapError (hop.mono (fun _ => id) (fun _ _ => id) fun _ _ h => ⟨rfl, h⟩)
  | succ left ih =>
    intro s hs
    rcases hx : op s with ⟨e | a, t⟩
    · have ht : P (Clocked.sleep delay t) := hsleep delay t (hop.of_error hs hx)
      rw [retryFrom_of_error hx, ← Nat.add_assoc, Nat.add_right_comm]
      exact ih (doubledDelay delay) (attempt + 1) _ ht
    · rw [retryFrom_of_ok hx]
      exact hop.of_ok hs hx

/-- A retried operation ends like its last call, before which all failed. -/
theorem ensures_retry (b : Budget) (hop : op.Ensures P Q fun _ => P)
    (hsleep : ∀ d s, P s → P (Clocked.sleep d s)) :
    (b.retry op).Ensures P Q fun e s => e.attempts = 1 + (b.maxAttempts - 1) ∧ P s :=
  fun s hs => ensures_retryFrom hop hsleep (b.maxAttempts - 1) b.initialDelay 1 s hs

/-- The operation failed with these errors in turn, and behind each of them the world slept, twice as long
as before. -/
inductive Failures (op : Act σ ε α) : (delay : Nat) → σ → List ε → σ → Prop
  | none (delay : Nat) (s : σ) : Failures op delay s [] s
  | call {delay : Nat} {s t u : σ} {e : ε} {l : List ε} : op s = (.error e, t) →
    Failures op (doubledDelay delay) (Clocked.sleep delay t) l u → Failures op delay s (e :: l) u

/-- What is left of a retry behind some failures. -/
theorem Failures.exists_retryFrom_eq {delay : Nat} {s t : σ} {l : List ε} (h : Failures op delay s l t)
    (left attempt : Nat) : ∃ d, retryFrom op (left + l.length) delay attempt s =
      retryFrom op left d (attempt + l.length) t := by
  induction h generalizing attempt with
  | none delay s => exact ⟨delay, rfl⟩
  | @call delay s t u e l hs _ ih =>
    obtain ⟨d, hd⟩ := ih (attempt + 1)
    refine ⟨d, ?_⟩
    rw [List.length_cons, ← Nat.add_assoc, retryFrom_of_error hs, hd, Nat.add_right_comm, Nat.add_assoc]

/-- A call that works behind fewer failures than the budget allows is the outcome. -/
theorem Failures.retry_of_ok {b : Budget} {s t u : σ} {l : List ε} {a : α}
    (h : Failures op b.initialDelay s l t) (hl : l.length < b.maxAttempts) (ht : op t = (.ok a, u)) :
    b.retry op s = (.ok a, u) := by
  obtain ⟨d, hd⟩ := h.exists_retryFrom_eq (b.maxAttempts - 1 - l.length) 1
  rw [Nat.sub_add_cancel (by omega)] at hd
  rw [retry, hd]
  exact retryFrom_of_ok ht _ _ _

theorem exists_failures_of_retryFrom (op : Act σ ε α) (left delay attempt : Nat) (s : σ) :
    ∃ l t, Failures op delay s l t ∧ l.length ≤ left ∧
      ((∃ a u, op t = (.ok a, u) ∧ retryFrom op left delay attempt s = (.ok a, u)) ∨
        l.length = left ∧
          ∃ e u, op t = (.error e, u) ∧ retryFrom op left delay attempt s = (.error ⟨attempt + left, e⟩, u)) := by
  induction left generalizing delay attempt s with
  | zero =>
    refine ⟨[], s, .none delay s, Nat.le_refl _, ?_⟩
    rcases hs : op s with ⟨e | a, t⟩
    · exact .inr ⟨rfl, e, t, rfl, Act.mapError_of_error hs _⟩
    · exact .inl ⟨a, t, rfl, Act.mapError_of_ok hs _⟩
  | succ left ih =>
    rcases hs : op s with ⟨e | a, t⟩
    · obtain ⟨l, u, hl, hle, h⟩ := ih (doubledDelay delay) (attempt + 1) (Clocked.sleep delay t)
      refine ⟨e :: l, u, .call hs hl, by simpa using hle, ?_⟩
      rw [retryFrom_of_error hs, ← Nat.add_assoc, Nat.add_right_comm]
      simpa using h
    · exact ⟨[], s, .none delay s, Nat.zero_le _, .inl ⟨a, t, hs, retryFrom_of_ok hs _ _ _⟩⟩

/-- A retried operation is its failures and one more call, whose outcome it has; if that call fails too, the
budget is spent. -/
theorem exists_failures_of_retry (b : Budget) (op : Act σ ε α) (s : σ) :
    ∃ l t, Failures op b.initialDelay s l t ∧ l.length ≤ b.maxAttempts - 1 ∧
      ((∃ a u, op t = (.ok a, u) ∧ b.retry op s = (.ok a, u)) ∨
        l.length = b.maxAttempts - 1 ∧
          ∃ e u, op t = (.error e, u) ∧ b.retry op s = (.error ⟨1 + (b.maxAttempts - 1), e⟩, u)) :=
  exists_failures_of_retryFrom op (b.maxAttempts - 1) b.initialDelay 1 s

end Budget

section Trail

variable {σ ε α ι : Type} [Clocked σ]

/-- From the first world to the second these steps were taken, with these outcomes, and the world slept in
between. -/
inductive Act.Trail (step : ι → Act σ ε α) : σ → List (ι × Except ε α) → σ → Prop
  | none (s : σ) : Trail step s [] s
  | pause {s t : σ} {l : List (ι × Except ε α)} (d : Nat) :
    Trail step (Clocked.sleep d s) l t → Trail step s l t
  | step {s t u : σ} {i : ι} {r : Except ε α} {l : List (ι × Except ε α)} :
    step i s = (r, t) → Trail step t l u → Trail step s ((i, r) :: l) u

namespace Act.Trail

variable {step : ι → Act σ ε α} {s t u : σ} {l m : List (ι × Except ε α)} {i : ι}

theorem append (h : Trail step s l t) (h' : Trail step t m u) : Trail step s (l ++ m) u := by
  induction h with
  | none => exact h'
  | pause d _ ih => exact .pause d (ih h')
  | step hi _ ih => exact .step hi (ih h')

theorem exists_of_append (h : Trail step s (l ++ m) u) : ∃ t, Trail step s l t ∧ Trail step t m u := by
  generalize hlm : l ++ m = k at h
  induction h generalizing l with
  | none s =>
    obtain ⟨rfl, rfl⟩ := List.append_eq_nil_iff.1 hlm
    exact ⟨s, .none s, .none s⟩
  | pause d _ ih =>
    obtain ⟨t, ht, hu⟩ := ih hlm
    exact ⟨t, .pause d ht, hu⟩
  | @step s t u i r k hi hk ih =>
    cases l with
    | nil =>
      obtain rfl : m = (i, r) :: k := hlm
      exact ⟨s, .none s, .step hi hk⟩
    | cons e l =>
      obtain ⟨rfl, hrest⟩ := List.cons.inj hlm
      obtain ⟨v, hv, hu⟩ := ih hrest
      exact ⟨v, .step hi hv, hu⟩

theorem of_failures {delay : Nat} {es : List ε} (h : Budget.Failures (step i) delay s es t) :
    Trail step s (es.map fun e => (i, .error e)) t := by
  induction h with
  | none delay s => exact .none s
  | call hs _ ih => exact .step hs (.pause _ ih)

end Act.Trail

/-- A retried step is taken once more after its failures, and this outcome counts. It fails only once the budget
is spent. -/
theorem Budget.exists_trail_of_retry (b : Budget) (step : ι → Act σ ε α) (i : ι) (s : σ) :
    ∃ (es : List ε) (r : Except ε α) (t : σ),
      Act.Trail step s (es.map (fun e => (i, .error e)) ++ [(i, r)]) t ∧
        b.retry (step i) s = (r.mapError fun e => ⟨1 + (b.maxAttempts - 1), e⟩, t) ∧
        es.length ≤ b.maxAttempts - 1 ∧ ∀ e, r = .error e → es.length = b.maxAttempts - 1 := by
  obtain ⟨es, t, hes, hle, ⟨a, u, ha, hretry⟩ | ⟨hspent, e, u, he, hretry⟩⟩ :=
    b.exists_failures_of_retry (step i) s
  · exact ⟨es, .ok a, u, (Act.Trail.of_failures hes).append (.step ha (.none u)), hretry, hle, nofun⟩
  · exact ⟨es, .error e, u, (Act.Trail.of_failures hes).append (.step he (.none u)), hretry, hle,
      fun _ _ => hspent⟩

end Trail

end Rollcall
