/-! Artifacts filed one after the other, up to the first that fails. What is found under a path afterwards is
the last artifact that was filed there, or what was there before. -/

namespace Rollcall

/-- A path and what is filed for it. -/
abbrev Artifact := String × ByteArray

variable {σ ε : Type}

def fileEach (step : Artifact → σ → Except ε Unit × σ) : List Artifact → σ → Except ε Unit × σ
  | [], s => (.ok (), s)
  | e :: r, s => match step e s with
    | (.error x, s) => (.error x, s)
    | (.ok (), s) => fileEach step r s

/-- The artifacts that are filed before one fails. -/
def filed (step : Artifact → σ → Except ε Unit × σ) : List Artifact → σ → List Artifact
  | [], _ => []
  | e :: r, s => match step e s with
    | (.error _, _) => []
    | (.ok (), s) => e :: filed step r s

section Prefix

variable {step : Artifact → σ → Except ε Unit × σ} {l : List Artifact} {s u : σ} {x : ε}

theorem filed_of_ok (h : fileEach step l s = (.ok (), u)) : filed step l s = l := by
  induction l generalizing s with
  | nil => rfl
  | cons e r ih =>
    rw [fileEach] at h
    rw [filed]
    rcases hx : step e s with ⟨y | _, t⟩
    · simp [hx] at h
    · simp only [hx] at h ⊢
      rw [ih h]

/-- What fails is one step, after all those in front of it. -/
theorem exists_of_fileEach_error (h : fileEach step l s = (.error x, u)) : ∃ k e r t,
    l = k ++ e :: r ∧ fileEach step k s = (.ok (), t) ∧ step e t = (.error x, u) := by
  induction l generalizing s with
  | nil => simp [fileEach] at h
  | cons e r ih =>
    rw [fileEach] at h
    rcases hx : step e s with ⟨y | _, t⟩
    · rw [hx] at h
      exact ⟨[], e, r, s, rfl, rfl, hx.trans h⟩
    · rw [hx] at h
      obtain ⟨k, a, q, v, rfl, hk, ha⟩ := ih h
      refine ⟨e :: k, a, q, v, rfl, ?_, ha⟩
      rw [fileEach, hx]
      exact hk

end Prefix

/-- Of the artifacts whose paths lead to `p`, the last one holds `d`. -/
def LastFiled (leads : String → String → Prop) (l : List Artifact) (p : String) (d : ByteArray) : Prop :=
  ∃ k q r, l = k ++ (q, d) :: r ∧ leads q p ∧ ∀ e ∈ r, ¬leads e.1 p

variable {leads : String → String → Prop} {p : String} {d : ByteArray} {e : Artifact} {l : List Artifact}

@[simp] theorem not_lastFiled_nil : ¬LastFiled leads [] p d := by
  rintro ⟨k, q, r, h, -⟩
  simp at h

theorem lastFiled_cons :
    LastFiled leads (e :: l) p d ↔
      LastFiled leads l p d ∨ (leads e.1 p ∧ e.2 = d ∧ ∀ a ∈ l, ¬leads a.1 p) := by
  constructor
  · rintro ⟨k, q, r, h, hq, hr⟩
    rcases List.cons_eq_append_iff.1 h with ⟨-, hc⟩ | ⟨k, -, hl⟩
    · obtain ⟨rfl, rfl⟩ := List.cons.inj hc
      exact .inr ⟨hq, rfl, hr⟩
    · exact .inl ⟨k, q, r, hl, hq, hr⟩
  · rintro (⟨k, q, r, rfl, hq, hr⟩ | ⟨he, rfl, hl⟩)
    · exact ⟨e :: k, q, r, rfl, hq, hr⟩
    · exact ⟨[], e.1, l, rfl, he, hl⟩

theorem lastFiled_congr {q : String} (h : ∀ a, leads a p ↔ leads a q) :
    LastFiled leads l p d ↔ LastFiled leads l q d := by
  simp only [LastFiled, h]

/-- Where any path leads, one is the last. -/
theorem exists_lastFiled (h : ∃ a ∈ l, leads a.1 p) : ∃ d, LastFiled leads l p d := by
  induction l with
  | nil => simp at h
  | cons e r ih =>
    by_cases hr : ∃ a ∈ r, leads a.1 p
    · obtain ⟨d, hd⟩ := ih hr
      exact ⟨d, lastFiled_cons.2 (.inl hd)⟩
    · obtain ⟨a, ha, hp⟩ := h
      rcases List.mem_cons.1 ha with rfl | ha
      · exact ⟨a.2, lastFiled_cons.2 (.inr ⟨hp, rfl, fun b hb hbp => hr ⟨b, hb, hbp⟩⟩)⟩
      · exact absurd ⟨a, ha, hp⟩ hr

/-- A step files its artifact where its path leads and leaves the others alone; where it fails, it files
nothing. -/
structure Shelf (step : Artifact → σ → Except ε Unit × σ) (holds : σ → String → ByteArray → Prop)
    (leads : String → String → Prop) : Prop where
  ok {e : Artifact} {s t : σ} : step e s = (.ok (), t) → ∀ p d,
    holds t p d ↔ leads e.1 p ∧ e.2 = d ∨ ¬leads e.1 p ∧ holds s p d
  error {e : Artifact} {s t : σ} {x : ε} : step e s = (.error x, t) → ∀ p d,
    holds t p d ↔ holds s p d

theorem Shelf.holds_fileEach {step : Artifact → σ → Except ε Unit × σ}
    {holds : σ → String → ByteArray → Prop} (h : Shelf step holds leads) (l : List Artifact) (s : σ)
    (p : String) (d : ByteArray) :
    holds (fileEach step l s).2 p d ↔
      LastFiled leads (filed step l s) p d ∨
        holds s p d ∧ ∀ e ∈ filed step l s, ¬leads e.1 p := by
  induction l generalizing s with
  | nil => simp [fileEach, filed]
  | cons e r ih =>
    rcases hx : step e s with ⟨x | _, t⟩
    · simp only [fileEach, filed, hx]
      simpa using h.error hx p d
    · simp only [fileEach, filed, hx]
      rw [ih t, h.ok hx p d, lastFiled_cons, List.forall_mem_cons]
      by_cases he : leads e.1 p
      · simp only [he, true_and, not_true_eq_false, false_and, and_false, or_false]
      · simp only [he, false_and, not_false_eq_true, true_and, or_false, false_or]

/-- Artifacts that are all filed once more leave what was filed first: of those that lead to one path the same one
is the last. -/
theorem Shelf.holds_again {step : Artifact → σ → Except ε Unit × σ} {holds : σ → String → ByteArray → Prop}
    (h : Shelf step holds leads) {s t u : σ} (hst : fileEach step l s = (.ok (), t))
    (htu : fileEach step l t = (.ok (), u)) (p : String) (d : ByteArray) : holds u p d ↔ holds t p d := by
  have ht := h.holds_fileEach l s p d
  have hu := h.holds_fileEach l t p d
  rw [hst, filed_of_ok hst] at ht
  rw [htu, filed_of_ok htu] at hu
  by_cases hany : ∃ a ∈ l, leads a.1 p
  · have hnot : ¬∀ a ∈ l, ¬leads a.1 p := fun hnone => by
      obtain ⟨a, ha, hp⟩ := hany
      exact hnone a ha hp
    rw [hu, ht, or_iff_left fun h => hnot h.2, or_iff_left fun h => hnot h.2]
  · have hnone : ∀ a ∈ l, ¬leads a.1 p := fun a ha hp => hany ⟨a, ha, hp⟩
    have hlast : ¬LastFiled leads l p d := by
      rintro ⟨k, q, r, rfl, hq, -⟩
      exact hnone (q, d) (List.mem_append_right k List.mem_cons_self) hq
    rw [hu, or_iff_right hlast]
    exact and_iff_left hnone

end Rollcall
