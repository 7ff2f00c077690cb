import Mathlib.Data.List.Perm.Basic

/-! Lists of instants that stand for longer ones. A quota keeps only part of the attempts that were made and
not taken back; the others are out of the window for good. Whatever is dropped, added and taken back, the
kept attempts count as much as all of them. -/

namespace Rollcall

open scoped List

/-- The attempts that are kept cover those that stand: the standing ones that are no longer kept were out of
the window at `latest`, and so are ever after. -/
structure Covers (window : Nat) (latest : Int) (kept standing : List Int) : Prop where
  sorted : kept.Pairwise (· ≤ ·)
  le_latest : ∀ t ∈ kept, t ≤ latest
  gone : ∃ gone, standing ~ gone ++ kept ∧ ∀ t ∈ gone, (window : Int) ≤ latest - t

namespace Covers

variable {window : Nat} {latest now t : Int} {kept standing rest : List Int}

theorem nil : Covers window latest [] [] :=
  ⟨.nil, by simp, [], by simp, by simp⟩

theorem congr (h : Covers window latest kept standing) (hs : standing ~ rest) :
    Covers window latest kept rest := by
  obtain ⟨gone, hperm, hgone⟩ := h.gone
  exact ⟨h.sorted, h.le_latest, gone, hs.symm.trans hperm, hgone⟩

theorem later (h : Covers window latest kept standing) (hn : latest ≤ now) :
    Covers window now kept standing := by
  obtain ⟨gone, hperm, hgone⟩ := h.gone
  refine ⟨h.sorted, fun t ht => ?_, gone, hperm, fun t ht => ?_⟩
  · exact Int.le_trans (h.le_latest t ht) hn
  · have := hgone t ht
    omega

/-- Attempts that are out of the window may go, whichever they are. -/
theorem drop (h : Covers window now kept standing) {p : Int → Bool}
    (hp : ∀ t ∈ kept, p t = false → (window : Int) ≤ now - t) :
    Covers window now (kept.filter p) standing := by
  obtain ⟨gone, hperm, hgone⟩ := h.gone
  refine ⟨h.sorted.filter p, fun t ht => h.le_latest t (List.mem_of_mem_filter ht),
    gone ++ kept.filter (!p ·), ?_, ?_⟩
  · have hsplit : kept.filter (!p ·) ++ kept.filter p ~ kept :=
      List.perm_append_comm.trans (List.filter_append_perm p kept)
    rw [List.append_assoc]
    exact hperm.trans (hsplit.symm.append_left gone)
  · intro t ht
    rcases List.mem_append.1 ht with ht | ht
    · exact hgone t ht
    · obtain ⟨hk, hpt⟩ := List.mem_filter.1 ht
      exact hp t hk (by simpa using hpt)

theorem add (h : Covers window now kept standing) :
    Covers window now (kept ++ [now]) (now :: standing) := by
  obtain ⟨gone, hperm, hgone⟩ := h.gone
  refine ⟨?_, ?_, gone, ?_, hgone⟩
  · rw [List.pairwise_append]
    exact ⟨h.sorted, by simp, fun t ht u hu => by simpa [List.mem_singleton.1 hu] using h.le_latest t ht⟩
  · intro t ht
    rcases List.mem_append.1 ht with ht | ht
    · exact h.le_latest t ht
    · exact Int.le_of_eq (List.mem_singleton.1 ht)
  · rw [← List.append_assoc]
    exact (hperm.cons now).trans (List.perm_append_singleton now _).symm

/-- Taking back the latest attempt of an instant takes back that attempt, or one that no longer matters. -/
theorem takeBack (h : Covers window latest kept standing) (hs : standing ~ t :: rest) :
    Covers window latest (kept.reverse.erase t).reverse rest := by
  obtain ⟨gone, hperm, hgone⟩ := h.gone
  have hsub : (kept.reverse.erase t).reverse.Sublist kept := by
    simpa using (List.erase_sublist (a := t) (l := kept.reverse)).reverse
  refine ⟨h.sorted.sublist hsub, fun u hu => h.le_latest u (hsub.subset hu), ?_⟩
  by_cases ht : t ∈ kept
  · refine ⟨gone, ?_, hgone⟩
    have hkept : kept ~ t :: (kept.reverse.erase t).reverse := calc
      kept ~ kept.reverse := kept.reverse_perm.symm
      _ ~ t :: kept.reverse.erase t := List.perm_cons_erase (by simpa using ht)
      _ ~ t :: (kept.reverse.erase t).reverse := (List.reverse_perm _).symm.cons t
    have : t :: rest ~ t :: (gone ++ (kept.reverse.erase t).reverse) := calc
      t :: rest ~ gone ++ kept := hs.symm.trans hperm
      _ ~ gone ++ t :: (kept.reverse.erase t).reverse := hkept.append_left gone
      _ ~ t :: (gone ++ (kept.reverse.erase t).reverse) := List.perm_middle
    exact this.cons_inv
  · have hgt : t ∈ gone := by
      have : t ∈ gone ++ kept := hperm.subset (hs.symm.subset (by simp))
      simpa [ht] using this
    refine ⟨gone.erase t, ?_, fun u hu => hgone u (List.mem_of_mem_erase hu)⟩
    have hr : t ∉ kept.reverse := by simpa using ht
    rw [List.erase_of_not_mem hr, List.reverse_reverse]
    have : t :: rest ~ t :: (gone.erase t ++ kept) := calc
      t :: rest ~ gone ++ kept := hs.symm.trans hperm
      _ ~ t :: (gone.erase t ++ kept) := (List.perm_cons_erase hgt).append_right kept
    exact this.cons_inv

/-- What is kept counts as much as what stands. -/
theorem count_eq (h : Covers window latest kept standing) (hn : latest ≤ now) :
    (kept.filter fun t => now - t < window).length = (standing.filter fun t => now - t < window).length := by
  obtain ⟨gone, hperm, hgone⟩ := h.gone
  have hnone : gone.filter (fun t => decide (now - t < window)) = [] := by
    rw [List.filter_eq_nil_iff]
    intro t ht
    have := hgone t ht
    simp only [decide_eq_true_eq]
    omega
  rw [(hperm.filter _).length_eq, List.filter_append, hnone, List.nil_append]

end Covers

end Rollcall
