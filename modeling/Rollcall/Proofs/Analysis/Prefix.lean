import Rollcall.Analysis.Source
import Rollcall.Proofs.Storage.Bucket

/-! How the prefix of a source comes off its keys. In a key the prefix stands as keys are written, without empty
parts and with the marks that are reserved in other signs; it is looked for as it was given. The path is left over
exactly if both are the same, up to one slash at the end, or if nothing is left of the prefix in a key. -/

namespace Rollcall

namespace Key

/-- A text that keys hold as it is, with one slash behind it or none, or nothing but slashes. -/
def IsKept (pre : String) : Prop :=
  (∀ c ∈ pre.toList, c = '/') ∨
    ∃ name, (pre = name ∨ pre = name ++ "/") ∧ ∀ p ∈ Text.splitOn '/' name.toList, IsPlainPart p

theorem parts_eq_nil_iff {path : String} : parts path = [] ↔ ∀ c ∈ path.toList, c = '/' := by
  rw [parts_eq_map, List.map_eq_nil_iff, segments, List.filter_eq_nil_iff]
  constructor
  · intro h c hc
    rw [← Text.joinWith_splitOn '/' path.toList] at hc
    rcases Text.mem_of_mem_joinWith hc with hc | ⟨p, hp, hc⟩
    · exact List.mem_singleton.1 hc
    · have hnil : p = [] := by simpa using h p hp
      exact absurd (hnil ▸ hc) List.not_mem_nil
  · intro h p hp
    cases p with
    | nil => simp
    | cons c r =>
      have hc : c ∈ path.toList := by
        rw [← Text.joinWith_splitOn '/' path.toList]
        exact Text.mem_joinWith_of_mem hp List.mem_cons_self
      exact absurd (h c hc ▸ List.mem_cons_self) (Text.not_mem_of_mem_splitOn hp)

theorem ofPath_append_slash (name : String) : ofPath (name ++ "/") = ofPath name := by
  have hparts := parts_append name ""
  rw [String.append_empty, show parts "" = [] from rfl, List.append_nil] at hparts
  rw [ofPath, ofPath, hparts]

theorem ofPath_ne_empty {path : String} (h : parts path ≠ []) : ofPath path ≠ "" := by
  rw [ofPath, Ne, String.ofList_eq_empty_iff]
  exact Text.joinWith_ne_nil h (nil_not_mem_parts path)

/-- No key ends in a slash. -/
theorem ofPath_ne_append_slash {path : String} (h : parts path ≠ []) (l : List Char) :
    (ofPath path).toList ≠ l ++ ['/'] := by
  intro heq
  have hsplit := congrArg (Text.splitOn '/') heq
  rw [ofPath, String.toList_ofList, Text.splitOn_joinWith h fun _ => slash_not_mem_of_mem_parts,
    Text.splitOn_append_cons] at hsplit
  exact nil_not_mem_parts path (hsplit ▸ List.mem_append_right _ List.mem_cons_self)

/-- A prefix is kept if its key is the prefix again, with the slash at its end that keys do not have. -/
theorem isKept_iff {pre : String} : IsKept pre ↔
    parts pre = [] ∨ pre = ofPath pre ∨ pre = ofPath pre ++ "/" := by
  rw [IsKept, parts_eq_nil_iff]
  constructor
  · rintro (h | ⟨name, hpre, hplain⟩)
    · exact .inl h
    · have hne : name ≠ "" := by
        rintro rfl
        exact (hplain [] List.mem_cons_self).ne_nil rfl
      have hname : ofPath name = name := (ofPath_eq_self_iff hne).2 hplain
      rcases hpre with rfl | rfl
      · exact .inr (.inl hname.symm)
      · exact .inr (.inr (by rw [ofPath_append_slash, hname]))
  · intro h
    by_cases hslashes : ∀ c ∈ pre.toList, c = '/'
    · exact .inl hslashes
    · have hpre := h.resolve_left hslashes
      have hparts : parts pre ≠ [] := fun hnil => hslashes (parts_eq_nil_iff.1 hnil)
      have hkey : ofPath (ofPath pre) = ofPath pre := by
        rcases hpre with hpre | hpre
        · exact (congrArg ofPath hpre).symm
        · exact (ofPath_append_slash _).symm.trans (congrArg ofPath hpre).symm
      exact .inr ⟨ofPath pre, hpre, (ofPath_eq_self_iff (ofPath_ne_empty hparts)).1 hkey⟩

instance (pre : String) : Decidable (IsKept pre) := decidable_of_iff _ isKept_iff.symm

/-- The key of a prefix and the slash behind it are the prefix and slashes only if the prefix is kept. -/
theorem exists_slashes_iff {pre : String} (h : parts pre ≠ []) :
    (∃ slashes : List Char, (∀ c ∈ slashes, c = '/') ∧
      (ofPath pre).toList ++ ['/'] = pre.toList ++ slashes) ↔ IsKept pre := by
  rw [isKept_iff, or_iff_right h]
  constructor
  · rintro ⟨slashes, hslashes, heq⟩
    -- The last slash is the one behind the key; one more in front of it would be the end of the key itself.
    rcases List.eq_nil_or_concat' slashes with rfl | ⟨l, c, rfl⟩
    · exact .inr (String.toList_injective (by simpa using heq.symm))
    · rw [← List.append_assoc] at heq
      obtain ⟨heq, -⟩ := List.append_inj' heq rfl
      rcases List.eq_nil_or_concat' l with rfl | ⟨l, d, rfl⟩
      · exact .inl (String.toList_injective (by simpa using heq.symm))
      · have hd : d = '/' := hslashes d (by simp)
        rw [hd, ← List.append_assoc] at heq
        exact absurd heq (ofPath_ne_append_slash h _)
  · rintro (hpre | hpre)
    · exact ⟨['/'], by simp, by rw [← hpre]⟩
    · refine ⟨[], by simp, ?_⟩
      have htext := congrArg String.toList hpre
      rw [String.toList_append] at htext
      rw [htext, List.append_nil]
      rfl

end Key

namespace Source

variable {s : Source} {path : String}

theorem artifactPath_of_append (hne : s.keyPrefix ≠ "") {key : String} {rest : List Char}
    (h : key.toList = s.keyPrefix.toList ++ rest) :
    s.artifactPath key = String.ofList (rest.dropWhile (· = '/')) := by
  have hstart : Text.startsWith s.keyPrefix.toList key.toList := by
    rw [h, Text.startsWith, List.isPrefixOf_iff_prefix]
    exact List.prefix_append _ _
  rw [artifactPath, if_neg hne, if_pos hstart, h, List.drop_left]

theorem artifactPath_of_not_append {key : String} (h : ¬s.keyPrefix.toList <+: key.toList) :
    s.artifactPath key = key := by
  rw [artifactPath]
  split
  · rfl
  · rw [Text.startsWith, if_neg (mt List.isPrefixOf_iff_prefix.1 h)]

/-- The path comes back from its key exactly if the prefix is kept. -/
theorem artifactPath_keyBehind_eq_iff (hpath : path.toList.head? ≠ some '/') :
    s.artifactPath (Bucket.keyBehind s.keyPrefix path) = path ↔ Key.IsKept s.keyPrefix := by
  have hhead : ∀ c ∈ path.toList.head?, decide (c = '/') = false := by
    rintro c hc
    exact decide_eq_false fun he => hpath (he ▸ hc)
  by_cases hparts : Key.parts s.keyPrefix = []
  · have hslashes := Key.parts_eq_nil_iff.1 hparts
    rw [Bucket.keyBehind, if_pos hparts, iff_true_right (.inl hslashes)]
    cases hpre : s.keyPrefix.toList with
    | nil => rw [artifactPath, if_pos (String.toList_eq_nil_iff.1 hpre)]
    | cons c r =>
      have hc : c = '/' := hslashes c (hpre ▸ List.mem_cons_self)
      refine artifactPath_of_not_append fun hstart => hpath ?_
      rw [hpre, hc] at hstart
      obtain ⟨rest, hrest⟩ := hstart
      rw [← hrest]
      rfl
  · have hne : s.keyPrefix ≠ "" := fun he => hparts (by rw [he]; rfl)
    have hkey : (Bucket.keyBehind s.keyPrefix path).toList =
        (Key.ofPath s.keyPrefix).toList ++ ['/'] ++ path.toList := by
      rw [Bucket.keyBehind, if_neg hparts, String.toList_append, String.toList_append]
      rfl
    rw [← Key.exists_slashes_iff hparts]
    by_cases hstart : s.keyPrefix.toList <+: (Bucket.keyBehind s.keyPrefix path).toList
    · obtain ⟨rest, hrest⟩ := hstart
      rw [artifactPath_of_append hne hrest.symm, ← String.toList_inj, String.toList_ofList,
        dropWhile_eq_iff hhead]
      refine exists_congr fun slashes => and_congr (by simp) ?_
      refine (List.append_right_inj s.keyPrefix.toList).symm.trans ?_
      rw [hrest, hkey, ← List.append_assoc, List.append_left_inj]
    · rw [artifactPath_of_not_append hstart]
      constructor
      · -- The key as a whole is longer than the path.
        intro hself
        have hlength := congrArg List.length (hkey.symm.trans (congrArg String.toList hself))
        simp only [List.length_append, List.length_singleton] at hlength
        omega
      · rintro ⟨slashes, -, heq⟩
        refine absurd ?_ hstart
        rw [hkey, heq, List.append_assoc]
        exact List.prefix_append _ _

end Source

end Rollcall
