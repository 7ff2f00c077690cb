import Rollcall.Text.Split

/-! Pieces of a text cut at a separator: putting the pieces together and cutting again gives them back, as
long as they do not hold the separator themselves. -/

namespace Rollcall.Text

theorem splitOn_ne_nil (sep : Char) (s : List Char) : splitOn sep s ≠ [] := by
  cases s with
  | nil => simp [splitOn]
  | cons c r =>
    rw [splitOn]
    split
    · simp
    · split <;> simp

/-- The pieces on either side of a separator are those of the whole. -/
theorem splitOn_append_cons (sep : Char) (s t : List Char) :
    splitOn sep (s ++ sep :: t) = splitOn sep s ++ splitOn sep t := by
  induction s with
  | nil => simp [splitOn]
  | cons c r ih =>
    by_cases hc : c = sep
    · simp [splitOn, hc, ih]
    · obtain ⟨p, ps, hp⟩ := List.exists_cons_of_ne_nil (splitOn_ne_nil sep r)
      simp [splitOn, hc, ih, hp]

theorem splitOn_of_not_mem {sep : Char} {s : List Char} (h : sep ∉ s) : splitOn sep s = [s] := by
  induction s with
  | nil => rfl
  | cons c r ih =>
    obtain ⟨hc, hr⟩ : sep ≠ c ∧ sep ∉ r := by simpa using h
    rw [splitOn, if_neg (Ne.symm hc), ih hr]

theorem splitOn_cons_of_ne {sep c : Char} (hc : c ≠ sep) (r : List Char) :
    ∃ p ps, splitOn sep r = p :: ps ∧ splitOn sep (c :: r) = (c :: p) :: ps := by
  obtain ⟨p, ps, hp⟩ := List.exists_cons_of_ne_nil (splitOn_ne_nil sep r)
  exact ⟨p, ps, hp, by simp [splitOn, hc, hp]⟩

theorem joinWith_cons {sep : List Char} (p : List Char) {ps : List (List Char)} (h : ps ≠ []) :
    joinWith sep (p :: ps) = p ++ sep ++ joinWith sep ps := by
  cases ps with
  | nil => contradiction
  | cons q ps => rfl

theorem joinWith_append {sep : List Char} {ps qs : List (List Char)} (hp : ps ≠ []) (hq : qs ≠ []) :
    joinWith sep (ps ++ qs) = joinWith sep ps ++ sep ++ joinWith sep qs := by
  induction ps with
  | nil => contradiction
  | cons p ps ih =>
    rw [List.cons_append, joinWith_cons p (List.append_ne_nil_of_right_ne_nil ps hq)]
    cases ps with
    | nil => rfl
    | cons q ps =>
      rw [ih (by simp), joinWith_cons p (by simp)]
      simp only [List.append_assoc]

/-- Between two groups of pieces there is nothing but a separator. -/
theorem exists_joinWith_append (sep : List Char) {ps : List (List Char)} (hp : ps ≠ []) (qs : List (List Char)) :
    ∃ b ⊆ sep, joinWith sep (ps ++ qs) = joinWith sep ps ++ b ++ joinWith sep qs := by
  by_cases hq : qs = []
  · exact ⟨[], List.nil_subset sep, by simp [hq, joinWith]⟩
  · exact ⟨sep, List.Subset.refl sep, joinWith_append hp hq⟩

theorem toList_intercalate (sep : String) (k : List String) :
    (sep.intercalate k).toList = joinWith sep.toList (k.map String.toList) := by
  induction k with
  | nil => rfl
  | cons p k ih =>
    cases k with
    | nil => simp [joinWith]
    | cons q k =>
      rw [String.intercalate_cons_cons, String.toList_append, String.toList_append, ih]
      rfl

theorem mem_of_mem_joinWith {sep : List Char} {ps : List (List Char)} {c : Char}
    (h : c ∈ joinWith sep ps) : c ∈ sep ∨ ∃ p ∈ ps, c ∈ p := by
  induction ps with
  | nil => simp [joinWith] at h
  | cons p ps ih =>
    by_cases hnil : ps = []
    · subst hnil
      exact .inr ⟨p, List.mem_singleton.2 rfl, h⟩
    · rw [joinWith_cons p hnil, List.mem_append, List.mem_append] at h
      rcases h with (h | h) | h
      · exact .inr ⟨p, List.mem_cons_self, h⟩
      · exact .inl h
      · rcases ih h with h | ⟨q, hq, h⟩
        · exact .inl h
        · exact .inr ⟨q, List.mem_cons_of_mem p hq, h⟩

theorem mem_of_mem_intercalate {sep : String} {k : List String} {c : Char} (h : c ∈ (sep.intercalate k).toList) :
    c ∈ sep.toList ∨ ∃ p ∈ k, c ∈ p.toList := by
  rw [toList_intercalate] at h
  rcases mem_of_mem_joinWith h with h | ⟨p, hp, hc⟩
  · exact .inl h
  · obtain ⟨q, hq, rfl⟩ := List.mem_map.1 hp
    exact .inr ⟨q, hq, hc⟩

theorem mem_joinWith_of_mem {sep : List Char} {ps : List (List Char)} {p : List Char} {c : Char} (hp : p ∈ ps)
    (hc : c ∈ p) : c ∈ joinWith sep ps := by
  induction ps with
  | nil => contradiction
  | cons q ps ih =>
    by_cases hnil : ps = []
    · subst hnil
      exact List.mem_singleton.1 hp ▸ hc
    · rw [joinWith_cons q hnil, List.mem_append, List.mem_append]
      rcases List.mem_cons.1 hp with rfl | hp
      · exact .inl (.inl hc)
      · exact .inr (ih hp)

/-- The pieces of a text with the separators between them are the text. -/
theorem joinWith_splitOn (sep : Char) (s : List Char) : joinWith [sep] (splitOn sep s) = s := by
  induction s with
  | nil => rfl
  | cons c r ih =>
    rw [splitOn]
    split
    · rename_i hc
      rw [joinWith_cons _ (splitOn_ne_nil sep r), ih, hc]
      rfl
    · obtain ⟨p, ps, hp⟩ := List.exists_cons_of_ne_nil (splitOn_ne_nil sep r)
      rw [hp] at ih ⊢
      cases ps with
      | nil => exact congrArg (c :: ·) ih
      | cons q ps => exact congrArg (c :: ·) ih

theorem mem_of_mem_splitOn {sep c : Char} {s p : List Char} (hp : p ∈ splitOn sep s) (hc : c ∈ p) : c ∈ s :=
  joinWith_splitOn sep s ▸ mem_joinWith_of_mem hp hc

/-- Pieces without separators are cut apart where they were joined. -/
theorem splitOn_joinWith {sep : Char} {ps : List (List Char)} (hne : ps ≠ []) (h : ∀ p ∈ ps, sep ∉ p) :
    splitOn sep (joinWith [sep] ps) = ps := by
  induction ps with
  | nil => contradiction
  | cons p ps ih =>
    obtain ⟨hp, hps⟩ := List.forall_mem_cons.1 h
    by_cases hnil : ps = []
    · rw [hnil]
      exact splitOn_of_not_mem hp
    · rw [joinWith_cons p hnil, List.append_assoc, List.singleton_append, splitOn_append_cons,
        splitOn_of_not_mem hp, ih hnil hps]
      rfl

theorem joinWith_ne_nil {sep : List Char} {ps : List (List Char)} (hne : ps ≠ []) (h : [] ∉ ps) :
    joinWith sep ps ≠ [] := by
  cases ps with
  | nil => contradiction
  | cons p r =>
    have hp : p ≠ [] := fun hp => h (hp ▸ List.mem_cons_self)
    cases r with
    | nil => exact hp
    | cons q r => simp [joinWith, hp]

theorem joinWith_inj {sep : Char} {ps qs : List (List Char)} (hp : ∀ p ∈ ps, sep ∉ p) (hq : ∀ q ∈ qs, sep ∉ q)
    (hpe : [] ∉ ps) (hqe : [] ∉ qs) (h : joinWith [sep] ps = joinWith [sep] qs) : ps = qs := by
  cases ps with
  | nil =>
    cases qs with
    | nil => rfl
    | cons q t => exact absurd h.symm (joinWith_ne_nil (List.cons_ne_nil q t) hqe)
  | cons p r =>
    cases qs with
    | nil => exact absurd h (joinWith_ne_nil (List.cons_ne_nil p r) hpe)
    | cons q t =>
      rw [← splitOn_joinWith (List.cons_ne_nil p r) hp, h, splitOn_joinWith (List.cons_ne_nil q t) hq]

/-- What stands before the first separator is determined by the whole. -/
theorem eq_of_append_cons_eq {sep : Char} {a b s t : List Char} (ha : sep ∉ a) (hb : sep ∉ b)
    (h : a ++ sep :: s = b ++ sep :: t) : a = b := by
  have hsplit := congrArg (splitOn sep) h
  rw [splitOn_append_cons, splitOn_append_cons, splitOn_of_not_mem ha, splitOn_of_not_mem hb] at hsplit
  exact (List.cons.inj hsplit).1

theorem not_mem_of_mem_splitOn {sep : Char} {s p : List Char} (h : p ∈ splitOn sep s) : sep ∉ p := by
  induction s generalizing p with
  | nil =>
    rw [List.mem_singleton.1 h]
    exact List.not_mem_nil
  | cons c r ih =>
    by_cases hc : c = sep
    · rw [splitOn, if_pos hc] at h
      rcases List.mem_cons.1 h with rfl | h
      · exact List.not_mem_nil
      · exact ih h
    · obtain ⟨q, qs, hq⟩ := List.exists_cons_of_ne_nil (splitOn_ne_nil sep r)
      simp only [hq, List.mem_cons] at ih
      simp only [splitOn, hc, hq, if_neg, not_false_eq_true, List.mem_cons] at h
      rcases h with rfl | h
      · simpa [Ne.symm hc] using ih (.inl rfl)
      · exact ih (.inr h)

theorem splitFirst?_append_cons {sep : Char} {a : List Char} (h : sep ∉ a) (b : List Char) :
    splitFirst? sep (a ++ sep :: b) = some (a, b) := by
  induction a with
  | nil => simp [splitFirst?]
  | cons c a ih =>
    obtain ⟨hc, ha⟩ : sep ≠ c ∧ sep ∉ a := by simpa using h
    rw [List.cons_append, splitFirst?, if_neg (Ne.symm hc), ih ha, Option.map_some]

theorem splitLast?_eq_none_iff {sep : Char} {s : List Char} : splitLast? sep s = none ↔ sep ∉ s := by
  induction s with
  | nil => simp [splitLast?]
  | cons c r ih =>
    rw [splitLast?]
    cases hr : splitLast? sep r with
    | some q =>
      have hmem : sep ∈ r := by simpa [hr] using ih
      simp [hmem]
    | none =>
      have hmem : sep ∉ r := ih.1 hr
      simp [hmem, eq_comm]

theorem splitLast?_append_cons {sep : Char} (a : List Char) {b : List Char} (h : sep ∉ b) :
    splitLast? sep (a ++ sep :: b) = some (a, b) := by
  induction a with
  | nil => simp [splitLast?, splitLast?_eq_none_iff.2 h]
  | cons c a ih => simp [splitLast?, ih]

theorem of_splitLast?_eq_some {sep : Char} {s a b : List Char} (h : splitLast? sep s = some (a, b)) :
    s = a ++ sep :: b ∧ sep ∉ b := by
  induction s generalizing a with
  | nil => simp [splitLast?] at h
  | cons c r ih =>
    rw [splitLast?] at h
    cases hr : splitLast? sep r with
    | some q =>
      simp only [hr, Option.some.injEq, Prod.mk.injEq] at h
      obtain ⟨rfl, rfl⟩ := h
      obtain ⟨rfl, hb⟩ := ih hr
      exact ⟨rfl, hb⟩
    | none =>
      simp only [hr] at h
      split at h
      · rename_i hc
        cases h
        exact ⟨by rw [hc, List.nil_append], splitLast?_eq_none_iff.1 hr⟩
      · contradiction

/-- What follows a text and holds no separator belongs to the last piece. -/
theorem exists_splitOn_append {sep : Char} (s : List Char) {t : List Char} (ht : sep ∉ t) :
    ∃ k q, splitOn sep s = k ++ [q] ∧ splitOn sep (s ++ t) = k ++ [q ++ t] := by
  rcases hlast : splitLast? sep s with _ | ⟨a, q⟩
  · have hs : sep ∉ s := splitLast?_eq_none_iff.1 hlast
    exact ⟨[], s, splitOn_of_not_mem hs, splitOn_of_not_mem (by simp [hs, ht])⟩
  · obtain ⟨rfl, hq⟩ := of_splitLast?_eq_some hlast
    refine ⟨splitOn sep a, q, ?_, ?_⟩
    · rw [splitOn_append_cons, splitOn_of_not_mem hq]
    · have hqt : sep ∉ q ++ t := by simp [hq, ht]
      rw [List.append_assoc, List.cons_append, splitOn_append_cons, splitOn_of_not_mem hqt]

/-- What stands on either side of the last separator is determined by the whole. -/
theorem append_cons_inj {sep : Char} {a b s t : List Char} (hs : sep ∉ s) (ht : sep ∉ t) :
    a ++ sep :: s = b ++ sep :: t ↔ a = b ∧ s = t := by
  constructor
  · intro h
    have hcut := congrArg (splitLast? sep) h
    rw [splitLast?_append_cons a hs, splitLast?_append_cons b ht] at hcut
    exact Prod.mk.inj (Option.some.inj hcut)
  · rintro ⟨rfl, rfl⟩
    rfl

/-- The lines on either side of a line feed are those of the whole. -/
theorem lines_append_cons (a b : List Char) :
    lines (a ++ '\n' :: b) = (splitOn '\n' a).map dropReturn ++ lines b := by
  have hne := splitOn_ne_nil '\n' b
  have hlast : (splitOn '\n' a ++ splitOn '\n' b).getLast? = (splitOn '\n' b).getLast? := by
    rw [List.getLast?_append, List.getLast?_eq_some_getLast hne, Option.some_or]
  rw [lines, splitOn_append_cons, List.dropLast_append_of_ne_nil hne, hlast, List.map_append, List.append_assoc]
  rfl

theorem lines_cons {l : List Char} (hl : '\n' ∉ l) (b : List Char) :
    lines (l ++ '\n' :: b) = dropReturn l :: lines b := by
  rw [lines_append_cons, splitOn_of_not_mem hl, List.map_singleton, List.singleton_append]

theorem dropSuffix?_append (s post : List Char) : dropSuffix? post (s ++ post) = some s := by
  simp [dropSuffix?]

theorem dropSuffix?_concat_of_ne (post k : List Char) {c d : Char} (hc : c ≠ d) :
    dropSuffix? (post ++ [d]) (k ++ [c]) = none := by
  have hsuffix : ¬post ++ [d] <:+ k ++ [c] := by
    rintro ⟨t, ht⟩
    rw [← List.append_assoc] at ht
    exact hc (List.cons.inj (List.append_inj' ht rfl).2).1.symm
  rw [dropSuffix?, if_neg (by simpa using hsuffix)]

theorem dropReturn_of_concat (k : List Char) {c : Char} (hc : c ≠ '\r') :
    dropReturn (k ++ [c]) = k ++ [c] := by
  rw [dropReturn, ← List.nil_append ['\r'], dropSuffix?_concat_of_ne [] k hc]
  rfl

theorem dropReturn_cases (s : List Char) : dropReturn s = s ∨ s = dropReturn s ++ ['\r'] := by
  rcases List.eq_nil_or_concat s with rfl | ⟨k, c, rfl⟩
  · exact .inl rfl
  · rw [List.concat_eq_append]
    by_cases hc : c = '\r'
    · exact .inr (by rw [hc, dropReturn, dropSuffix?_append, Option.getD_some])
    · exact .inl (dropReturn_of_concat k hc)

theorem dropReturn_of_not_mem {s : List Char} (h : '\r' ∉ s) : dropReturn s = s := by
  rcases dropReturn_cases s with hs | hs
  · exact hs
  · exact absurd (by rw [hs]; simp) h

theorem map_dropReturn {ps : List (List Char)} (h : ∀ p ∈ ps, '\r' ∉ p) : ps.map dropReturn = ps :=
  (List.map_congr_left fun p hp => dropReturn_of_not_mem (h p hp)).trans (List.map_id' ps)

/-- Without carriage returns the lines of a text are its pieces, but for a last one that is empty. -/
theorem filter_lines {s : List Char} (h : '\r' ∉ s) {p : List Char → Bool} (hp : p [] = false) :
    (lines s).filter p = (splitOn '\n' s).filter p := by
  rcases List.eq_nil_or_concat (splitOn '\n' s) with hnil | ⟨k, q, hk⟩
  · exact absurd hnil (splitOn_ne_nil '\n' s)
  · rw [List.concat_eq_append] at hk
    have hlines : k.map dropReturn = k := map_dropReturn fun l hl hr =>
      h (mem_of_mem_splitOn (by simp [hk, hl] : l ∈ splitOn '\n' s) hr)
    have hlast : ([q].filter (!·.isEmpty)).filter p = [q].filter p := by
      cases q with
      | nil => simp [hp]
      | cons c q => rfl
    rw [lines, hk, List.dropLast_concat, List.getLast?_concat, hlines, List.filter_append, List.filter_append]
    exact congrArg _ hlast

/-- A text of which each part is ended by a line feed has the lines of the parts. -/
theorem lines_flatMap (l : List (List Char)) :
    lines (l.flatMap (· ++ ['\n'])) = (l.flatMap (splitOn '\n')).map dropReturn := by
  induction l with
  | nil => rfl
  | cons p l ih =>
    rw [List.flatMap_cons, List.append_assoc, List.singleton_append, lines_append_cons, ih, List.flatMap_cons,
      List.map_append]

/-- Parts that hold no line feed are lines themselves. -/
theorem flatMap_splitOn_of_lines {l : List (List Char)} (h : ∀ p ∈ l, '\n' ∉ p ∧ dropReturn p = p) :
    (l.flatMap (splitOn '\n')).map dropReturn = l := by
  induction l with
  | nil => rfl
  | cons p l ih =>
    obtain ⟨⟨hfeed, hreturn⟩, hl⟩ := List.forall_mem_cons.1 h
    rw [List.flatMap_cons, splitOn_of_not_mem hfeed, List.singleton_append, List.map_cons, hreturn, ih hl]

/-- Only a separator cuts a text. -/
theorem length_splitOn_eq_one_iff {sep : Char} {s : List Char} : (splitOn sep s).length = 1 ↔ sep ∉ s := by
  constructor
  · intro h hmem
    obtain ⟨a, b, rfl⟩ := List.append_of_mem hmem
    have ha := List.length_pos_iff.2 (splitOn_ne_nil sep a)
    have hb := List.length_pos_iff.2 (splitOn_ne_nil sep b)
    rw [splitOn_append_cons, List.length_append] at h
    omega
  · intro h
    rw [splitOn_of_not_mem h]
    rfl

theorem dropSuffix?_subset {post s t : List Char} (h : dropSuffix? post s = some t) : t ⊆ s := by
  rw [dropSuffix?] at h
  split at h
  · cases h
    exact (List.take_prefix _ _).subset
  · contradiction

end Rollcall.Text
