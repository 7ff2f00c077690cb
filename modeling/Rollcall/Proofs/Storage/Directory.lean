import Rollcall.Proofs.Storage.Tree

/-! The directories of a tree. No operation takes one away, so a path that could be followed can still be
followed; and where it can be followed, there is nothing to create on the way. -/

namespace Rollcall.FileTree

variable {t u : FileTree} {l d : Location} {k : List String} {cwd : Location} {path : String}

/-- What is a directory of the first tree is one of the second. -/
def Extends (t u : FileTree) : Prop := ∀ l, t.isDirectory l → u.isDirectory l

theorem Extends.refl (t : FileTree) : Extends t t := fun _ => id

theorem Extends.trans {v : FileTree} (h : Extends t u) (h' : Extends u v) : Extends t v :=
  fun l hl => h' l (h l hl)

theorem isDirectory_iff : t.isDirectory l ↔ t.node? l = some .directory := by
  rw [isDirectory]
  cases t.node? l with
  | none => simp
  | some n => cases n <;> simp

/-- What takes the place of no directory. -/
theorem extends_put (hl : l ≠ []) (hn : ¬t.isDirectory l) (n : Node) : Extends t (t.put l n) := by
  intro k hk
  rw [isDirectory_iff] at hk ⊢
  rw [t.node?_put hl, if_neg, hk]
  rintro rfl
  exact hn (isDirectory_iff.2 hk)

theorem extends_makeEach (t : FileTree) (l : Location) (k : List String) :
    Extends t (t.makeEach l k).2 := by
  induction k generalizing t l with
  | nil => exact .refl t
  | cons p k ih =>
    rw [makeEach]
    split
    · exact ih t l
    · split
      · exact ih t l.dropLast
      · split
        · exact .refl t
        · split
          · exact ih t (l ++ [p])
          · exact .refl t
          · rename_i hn
            have hnot : ¬t.isDirectory (l ++ [p]) := by simp [isDirectory_iff, hn]
            exact (extends_put (by simp) hnot _).trans (ih _ (l ++ [p]))

theorem extends_makeDirectories (t : FileTree) (cwd : Location) (path : String) :
    Extends t (t.makeDirectories cwd path).2 := by
  rw [makeDirectories]
  split
  · exact .refl t
  · split
    · exact .refl t
    · exact t.extends_makeEach _ _

section Walk

theorem walk_append (t : FileTree) (l : Location) (j k : List String) :
    t.walk l (j ++ k) = (t.walk l j).bind (t.walk · k) := by
  induction j generalizing l with
  | nil => rfl
  | cons p j ih =>
    rw [List.cons_append, walk, walk]
    split
    · exact ih l
    · split
      · exact ih l.dropLast
      · split
        · exact ih (l ++ [p])
        · rfl

/-- What the first part of a walk can be. -/
theorem walk_cons_cases {p : String} (h : t.walk l (p :: k) = some d) :
    isHere p ∧ t.walk l k = some d ∨
    ¬isHere p ∧ p = ".." ∧ t.walk l.dropLast k = some d ∨
    ¬isHere p ∧ p ≠ ".." ∧ isName p ∧ t.isDirectory (l ++ [p]) ∧ t.walk (l ++ [p]) k = some d := by
  rw [walk] at h
  split at h
  · rename_i hhere
    exact .inl ⟨hhere, h⟩
  · rename_i hhere
    split at h
    · rename_i hup
      exact .inr (.inl ⟨hhere, hup, h⟩)
    · rename_i hup
      split at h
      · rename_i hnamed
        rw [Bool.and_eq_true] at hnamed
        exact .inr (.inr ⟨hhere, hup, hnamed.1, hnamed.2, h⟩)
      · contradiction

theorem Extends.walk_eq (h : Extends t u) (hw : t.walk l k = some d) : u.walk l k = some d := by
  induction k generalizing l with
  | nil => exact hw
  | cons p k ih =>
    rcases walk_cons_cases hw with ⟨hhere, hw⟩ | ⟨hhere, hup, hw⟩ | ⟨hhere, hup, hname, hdir, hw⟩
    · rw [walk, if_pos hhere]
      exact ih hw
    · rw [walk, if_neg hhere, if_pos hup]
      exact ih hw
    · rw [walk, if_neg hhere, if_neg hup, if_pos (by simp [hname, h _ hdir])]
      exact ih hw

theorem target?_eq_some_iff : t.target? cwd path = some l ↔ isPath path ∧ ∃ k name d,
    parts path = k ++ [name] ∧ isName name ∧ t.walk (start cwd path) k = some d ∧ d ++ [name] = l := by
  constructor
  · intro h
    rw [target?] at h
    split at h
    · contradiction
    · rename_i hpath
      split at h
      · contradiction
      · rename_i name hlast
        obtain ⟨k, hk⟩ := List.getLast?_eq_some_iff.1 hlast
        split at h
        · rename_i hname
          obtain ⟨d, hd, hl⟩ := Option.map_eq_some_iff.1 h
          rw [hk, List.dropLast_concat] at hd
          exact ⟨by simpa using hpath, k, name, d, hk, hname, hd, hl⟩
        · contradiction
  · rintro ⟨hpath, k, name, d, hk, hname, hd, rfl⟩
    simp [target?, hpath, hk, hname, hd]

theorem Extends.target?_eq (h : Extends t u) (ht : t.target? cwd path = some l) :
    u.target? cwd path = some l := by
  obtain ⟨hpath, k, name, d, hk, hname, hd, hl⟩ := target?_eq_some_iff.1 ht
  exact target?_eq_some_iff.2 ⟨hpath, k, name, d, hk, hname, h.walk_eq hd, hl⟩

/-- Nothing is created where a walk leads through; the parts behind it start where it ends. -/
theorem makeEach_append_of_walk {j : List String} (h : t.walk l j = some d) :
    t.makeEach l (j ++ k) = t.makeEach d k := by
  induction j generalizing l with
  | nil =>
    obtain rfl : l = d := Option.some.inj h
    rfl
  | cons p j ih =>
    rw [List.cons_append]
    rcases walk_cons_cases h with ⟨hhere, h⟩ | ⟨hhere, hup, h⟩ | ⟨hhere, hup, hname, hdir, h⟩
    · rw [makeEach, if_pos hhere]
      exact ih h
    · rw [makeEach, if_neg hhere, if_pos hup]
      exact ih h
    · rw [makeEach, if_neg hhere, if_neg hup, if_neg (by simp [hname]), isDirectory_iff.1 hdir]
      exact ih h

/-- Directories that are all there are not created. -/
theorem makeEach_of_walk (h : t.walk l k = some d) : t.makeEach l k = (true, t) := by
  have hall := makeEach_append_of_walk (k := []) h
  rwa [List.append_nil] at hall

end Walk

section Parent

theorem toList_intercalate (k : List String) :
    ("/".intercalate k).toList = Text.joinWith ['/'] (k.map String.toList) := Text.toList_intercalate "/" k

theorem not_mem_slash_of_mem_parts {p : String} (h : p ∈ parts path) : '/' ∉ p.toList := by
  obtain ⟨q, hq, rfl⟩ := List.mem_map.1 h
  rw [String.toList_ofList]
  exact Text.not_mem_of_mem_splitOn hq

theorem parts_intercalate (hne : k ≠ []) (h : ∀ p ∈ k, '/' ∉ p.toList) : parts ("/".intercalate k) = k := by
  have hsplit : Text.splitOn '/' (Text.joinWith ['/'] (k.map String.toList)) = k.map String.toList :=
    Text.splitOn_joinWith (by simpa using hne) (by simpa using h)
  rw [parts, toList_intercalate, hsplit]
  simp

theorem intercalate_parts (path : String) : "/".intercalate (parts path) = path := by
  apply String.toList_injective
  rw [toList_intercalate, parts, List.map_map]
  simp [Function.comp_def, Text.joinWith_splitOn]

theorem intercalate_append {j : List String} (hj : j ≠ []) (hk : k ≠ []) :
    "/".intercalate (j ++ k) = "/".intercalate j ++ ("/" ++ "/".intercalate k) := by
  apply String.toList_injective
  rw [String.toList_append, String.toList_append, toList_intercalate, toList_intercalate,
    toList_intercalate, List.map_append, Text.joinWith_append (by simpa using hj) (by simpa using hk),
    List.append_assoc]
  rfl

theorem isPath_of_append {a b : String} (ha : a ≠ "") (h : isPath (a ++ b)) : isPath a := by
  simp only [isPath, Bool.and_eq_true, decide_eq_true_eq, String.utf8ByteSize_append] at h ⊢
  obtain ⟨⟨-, hnull⟩, hlong⟩ := h
  refine ⟨⟨ha, ?_⟩, by omega⟩
  simp only [String.toList_append] at hnull
  simp at hnull ⊢
  exact hnull.1

/-- The parts that lead to where the last one stands, without those at the end that stay there. -/
def leadingParts (k : List String) : List String := (k.reverse.dropWhile isHere).reverse

theorem leadingParts_append (k : List String) : ∃ r, k = leadingParts k ++ r := by
  refine ⟨(k.reverse.takeWhile isHere).reverse, ?_⟩
  rw [leadingParts, ← List.reverse_append, List.takeWhile_append_dropWhile, List.reverse_reverse]

/-- The last of these parts, if there is any, names something or leads up. -/
theorem leadingParts_cases (k : List String) :
    leadingParts k = [] ∨ ∃ j p r, leadingParts k = j ++ [p] ∧ ¬isHere p ∧ k = j ++ p :: r := by
  obtain ⟨r, hr⟩ := leadingParts_append k
  rcases List.eq_nil_or_concat (leadingParts k) with hnil | ⟨j, p, hlast⟩
  · exact .inl hnil
  rw [List.concat_eq_append] at hlast
  refine .inr ⟨j, p, r, hlast, ?_, by rwa [hlast, List.append_assoc] at hr⟩
  have hdrop : k.reverse.dropWhile isHere = p :: j.reverse := by
    simpa [leadingParts] using congrArg List.reverse hlast
  have hhead := List.head?_dropWhile_not isHere k.reverse
  rw [hdrop] at hhead
  simpa using hhead

theorem leadingParts_ne_singleton (k : List String) : leadingParts k ≠ [""] := by
  intro h
  rcases leadingParts_cases k with hnil | ⟨j, p, r, hlast, hp, -⟩
  · simp [h] at hnil
  · have hempty : "" = p := by simpa [h] using congrArg List.getLast? hlast
    exact hp (hempty ▸ rfl)

/-- The parts that lead to where the path stands, as they are left in its text. -/
def parentParts (path : String) : List String := leadingParts (leadingParts (parts path)).dropLast

theorem parentText_eq (path : String) : parentText path = "/".intercalate (parentParts path) := by
  simp [parentText, parentParts, leadingParts, List.dropLast_reverse]

/-- Of the parts that are left out, one names something or leads up. -/
theorem parentParts_append (h : parentParts path ≠ []) :
    ∃ r, parts path = parentParts path ++ r ∧ ∃ p ∈ r, ¬isHere p := by
  rcases leadingParts_cases (parts path) with hnil | ⟨j, p, s, hlast, hp, hall⟩
  · exact absurd (by rw [parentParts, hnil]; rfl) h
  obtain ⟨r, hr⟩ := leadingParts_append j
  have hparent : parentParts path = leadingParts j := by
    rw [parentParts, hlast, List.dropLast_concat]
  refine ⟨r ++ p :: s, ?_, p, by simp, hp⟩
  rw [hparent, ← List.append_assoc, ← hr, hall]

theorem parentParts_eq {name : String} (hk : parts path = k ++ [name]) (hname : isName name) :
    parentParts path = leadingParts k := by
  have hhere : isHere name = false := (isHere_eq_false_and_ne_of_isName hname).1
  simp [parentParts, leadingParts, hk, hhere]

/-- What leads to the parent has the parts that are left, and the same start. -/
theorem parts_and_start_parentText (h : parentParts path ≠ []) (cwd : Location) :
    parentText path ≠ "" ∧ parts (parentText path) = parentParts path ∧
      start cwd (parentText path) = start cwd path ∧ (isPath path → isPath (parentText path)) := by
  obtain ⟨r, hr, p, hp, -⟩ := parentParts_append h
  have hparts : parts (parentText path) = parentParts path := by
    rw [parentText_eq]
    exact parts_intercalate h fun p hp => not_mem_slash_of_mem_parts (hr ▸ List.mem_append_left r hp)
  have hne : parentText path ≠ "" := by
    intro hempty
    rw [hempty] at hparts
    exact leadingParts_ne_singleton _ hparts.symm
  have hsplit : path = parentText path ++ ("/" ++ "/".intercalate r) := by
    rw [parentText_eq, ← intercalate_append h (List.ne_nil_of_mem hp), ← hr, intercalate_parts]
  have hstart := start_append cwd hne ("/" ++ "/".intercalate r)
  rw [← hsplit] at hstart
  exact ⟨hne, hparts, hstart.symm, fun hpath => isPath_of_append hne (hsplit ▸ hpath)⟩

/-- Creating the directories up to a path creates those of its parts that are left, if anything. -/
theorem makeDirectories_parentText_cases (t : FileTree) (cwd : Location) (path : String) :
    parentParts path = [] ∧ t.makeDirectories cwd (parentText path) = (true, t) ∨
    ¬isPath path ∧ t.makeDirectories cwd (parentText path) = (false, t) ∨
    t.makeDirectories cwd (parentText path) = t.makeEach (start cwd path) (parentParts path) := by
  by_cases hnil : parentParts path = []
  · refine .inl ⟨hnil, ?_⟩
    rw [parentText_eq, hnil]
    rfl
  obtain ⟨hne, hparts, hstart, hpath⟩ := parts_and_start_parentText hnil cwd
  rw [makeDirectories, if_neg hne, hparts, hstart]
  split
  · rename_i hnot
    exact .inr (.inl ⟨fun h => by simp [hpath h] at hnot, rfl⟩)
  · exact .inr (.inr rfl)

/-- Where a file stands or would stand, the directories on the way are there. -/
theorem makeDirectories_parentText (h : t.target? cwd path = some l) :
    t.makeDirectories cwd (parentText path) = (true, t) := by
  obtain ⟨hpath, k, name, d, hk, hname, hd, -⟩ := target?_eq_some_iff.1 h
  rcases t.makeDirectories_parentText_cases cwd path with ⟨-, hmake⟩ | ⟨hnot, -⟩ | hmake
  · exact hmake
  · exact absurd hpath hnot
  obtain ⟨r, hr⟩ := leadingParts_append k
  rw [hr, walk_append] at hd
  obtain ⟨d', hd', -⟩ := Option.bind_eq_some_iff.1 hd
  rw [hmake, parentParts_eq hk hname]
  exact makeEach_of_walk hd'

end Parent

end Rollcall.FileTree
