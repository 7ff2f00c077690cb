import Rollcall.Storage.Folder
import Rollcall.Proofs.Storage.Filing
import Rollcall.Proofs.Storage.Directory

/-! What a folder holds. An artifact is filed below the root under the names in its path, so paths that differ
in repeated slashes and single dots only lead to one place. -/

namespace Rollcall.Folder

open FileTree

/-- Where the root leads. -/
def place (f : Folder) : Location := follow (start f.cwd f.root) (parts f.root)

/-- A path leads to the one that is left of it without the parts that stay where they are. -/
def Leads (q p : String) : Prop := parts p = names q

/-- The folder holds a file with this content under exactly the names in the path. -/
def Holds (f : Folder) (p : String) (d : ByteArray) : Prop :=
  Leads p p ∧ ".." ∉ parts p ∧ f.tree.node? (f.place ++ parts p) = some (.file d)

instance (f : Folder) (p : String) (d : ByteArray) : Decidable (f.Holds p d) :=
  inferInstanceAs (Decidable (parts p = names p ∧ ".." ∉ parts p ∧
    f.tree.node? (f.place ++ parts p) = some (.file d)))

/-- The parts of a joined path are those of the root, up to a slash at its end, and then those of the
path. -/
theorem exists_parts_join (root : String) : ∃ k, (parts root = k ∨ parts root = k ++ [""]) ∧
    ∀ path, parts (join root path) = k ++ parts path := by
  by_cases hempty : root = ""
  · subst hempty
    exact ⟨[], .inr rfl, fun path => by simp [join]⟩
  by_cases hslash : root.toList.getLast? = some '/'
  · obtain ⟨k, hk⟩ := List.getLast?_eq_some_iff.1 hslash
    refine ⟨(Text.splitOn '/' k).map String.ofList, .inr ?_, fun path => ?_⟩
    · rw [parts, hk, Text.splitOn_append_cons]
      simp [Text.splitOn]
    · rw [join, if_pos (.inr hslash), parts, String.toList_append, hk, List.append_assoc,
        List.singleton_append, Text.splitOn_append_cons, List.map_append]
      rfl
  · refine ⟨parts root, .inl rfl, fun path => ?_⟩
    rw [join, if_neg (by simp [hempty, hslash]), parts_append]

theorem staysInside_iff {path : String} :
    staysInside path ↔ path ≠ "" ∧ path.toList.head? ≠ some '/' ∧ ".." ∉ parts path := by
  simp [staysInside, and_assoc]

theorem not_mem_parts_of_inside {q : String} (hq : staysInside q) : ".." ∉ parts q :=
  (staysInside_iff.1 hq).2.2

theorem start_join {path : String} (hp : staysInside path) (cwd : Location) (root : String) :
    start cwd (join root path) = start cwd root := by
  have hrelative : path.toList.head? ≠ some '/' := (staysInside_iff.1 hp).2.1
  by_cases hempty : root = ""
  · have hjoin : join root path = path := by simp [join, hempty]
    rw [hjoin, hempty]
    exact if_neg hrelative
  · rw [join]
    split
    · exact start_append cwd hempty path
    · rw [String.append_assoc, start_append cwd hempty]

/-- Joined paths lead on from where the first one leads. -/
theorem follow_join {root path : String} (hp : staysInside path) (cwd : Location) :
    follow (start cwd (join root path)) (parts (join root path)) =
      follow (start cwd root) (parts root) ++ names path := by
  obtain ⟨k, hk, hjoin⟩ := exists_parts_join root
  have hroot : follow (start cwd root) (parts root) = follow (start cwd root) k := by
    rcases hk with hk | hk
    · rw [hk]
    · rw [hk, follow_append]
      rfl
  rw [start_join hp, hjoin, hroot, follow_append, follow_eq_append (not_mem_parts_of_inside hp)]
  rfl

theorem Leads.refl_and_not_mem {q p : String} (h : Leads q p) (hq : staysInside q) :
    Leads p p ∧ ".." ∉ parts p := by
  have hp : parts p = names q := h
  refine ⟨?_, fun hm => ?_⟩
  · rw [Leads, names, hp, names, List.filter_filter]
    simp
  · rw [hp] at hm
    exact not_mem_parts_of_inside hq (List.mem_filter.1 hm).1

theorem store_of_not_inside {f : Folder} {q : String} (hq : ¬staysInside q) (e : ByteArray) :
    f.store q e = (.error (.outsideRoot q), f) := by
  rw [store, resolve, if_neg hq]

theorem eq_place_of_target? {f : Folder} {t : FileTree} {q : String} (hq : staysInside q) {l : Location}
    (h : t.target? f.cwd (join f.root q) = some l) : l = f.place ++ names q ∧ l ≠ [] := by
  obtain ⟨hl, hne⟩ := eq_follow_of_target h
  exact ⟨hl.trans (follow_join hq f.cwd), hne⟩

/-- The tree with the directories up to an artifact, as far as they can be created. -/
def prepared (f : Folder) (q : String) : FileTree :=
  (f.tree.makeDirectories f.cwd (parentText (join f.root q))).2

/-- Storing an artifact that stays inside makes directories, and then files it or fails. -/
theorem store_cases {f : Folder} {q : String} (hq : staysInside q) (e : ByteArray) :
    f.store q e = (.error (.io (join f.root q)), { f with tree := f.prepared q }) ∨
      (f.prepared q).target? f.cwd (join f.root q) = some (f.place ++ names q) ∧
        ¬(f.prepared q).isDirectory (f.place ++ names q) ∧
        f.store q e = (.ok (), { f with tree := (f.prepared q).put (f.place ++ names q) (.file e) }) := by
  have hresolve : resolve f.root q = .ok (join f.root q) := if_pos hq
  rw [prepared]
  rcases hm : f.tree.makeDirectories f.cwd (parentText (join f.root q)) with ⟨made, t⟩
  simp only [store, hresolve, hm]
  cases made with
  | false => exact .inl (by simp)
  | true =>
    rcases t.writeFile_eq f.cwd (join f.root q) e with hw | ⟨l, hl, hdir, hw⟩
    · exact .inl (by simp [hw])
    · obtain ⟨rfl, -⟩ := eq_place_of_target? hq hl
      exact .inr ⟨hl, hdir, by simp [hw]⟩

theorem store_of_inside {f : Folder} {q : String} (hq : staysInside q) (e : ByteArray) :
    ∃ t, SameFiles f.tree t ∧ Extends f.tree t ∧
      (f.store q e = (.error (.io (join f.root q)), { f with tree := t }) ∨
        t.target? f.cwd (join f.root q) = some (f.place ++ names q) ∧
          ¬t.isDirectory (f.place ++ names q) ∧
          f.store q e = (.ok (), { f with tree := t.put (f.place ++ names q) (.file e) })) :=
  ⟨f.prepared q, sameFiles_makeDirectories _ _ _, extends_makeDirectories _ _ _, store_cases hq e⟩

/-- Stores one artifact. -/
abbrev storeOne (a : Artifact) (f : Folder) : Except StorageError Unit × Folder := f.store a.1 a.2

/-- The paths lead to one place. -/
def SamePlace (q p : String) : Prop := names q = names p

/-- Artifacts are shelved in places: the paths that lead to one share it. -/
theorem shelf_places : Shelf storeOne
    (fun f p d => f.tree.node? (f.place ++ names p) = some (.file d)) SamePlace where
  ok := by
    intro a f g h p d
    by_cases hq : staysInside a.1
    · obtain ⟨t, ht, -, hx | ⟨hl, -, hx⟩⟩ := store_of_inside (f := f) hq a.2
      · rw [storeOne, hx] at h
        simp at h
      · rw [storeOne, hx] at h
        obtain rfl := (Prod.mk.inj h).2
        change (t.put (f.place ++ names a.1) (.file a.2)).node? (f.place ++ names p) = _ ↔ _
        rw [node?_put _ (eq_place_of_target? hq hl).2]
        by_cases hp : SamePlace a.1 p
        · rw [if_pos (congrArg (f.place ++ ·) hp.symm)]
          simp [hp]
        · rw [if_neg fun hk => hp (List.append_cancel_left hk).symm, ht]
          simp [hp]
    · rw [storeOne, store_of_not_inside hq] at h
      simp at h
  error := by
    intro a f g x h p d
    by_cases hq : staysInside a.1
    · obtain ⟨t, ht, -, hx | ⟨-, -, hx⟩⟩ := store_of_inside (f := f) hq a.2
      · rw [storeOne, hx] at h
        obtain rfl := (Prod.mk.inj h).2
        exact ht _ d
      · rw [storeOne, hx] at h
        simp at h
    · rw [storeOne, store_of_not_inside hq] at h
      obtain rfl := (Prod.mk.inj h).2
      rfl

theorem staysInside_of_ok {f g : Folder} {a : Artifact} (h : storeOne a f = (.ok (), g)) :
    staysInside a.1 := by
  by_cases hq : staysInside a.1
  · exact hq
  · rw [storeOne, store_of_not_inside hq] at h
    simp at h

/-- What a folder shelves where: the paths that lead to one place share it. -/
theorem shelf : Shelf (fun e f => store f e.1 e.2) Holds Leads where
  ok := by
    intro e f g h p d
    by_cases hp : Leads p p ∧ ".." ∉ parts p
    · have hparts : parts p = names p := hp.1
      have hup : ".." ∉ names p := hparts ▸ hp.2
      have hleads : Leads e.1 p ↔ SamePlace e.1 p := by
        rw [Leads, SamePlace, hparts, eq_comm]
      simpa [Holds, hp.1, hleads, hparts, hup] using shelf_places.ok h p d
    · have hleads : ¬Leads e.1 p := fun hl => hp (hl.refl_and_not_mem (staysInside_of_ok h))
      simp only [hleads, Holds, ← and_assoc, hp]
      simp
  error := by
    intro e f g x h p d
    refine and_congr_right fun hp => and_congr_right fun _ => ?_
    have hparts : parts p = names p := hp
    rw [hparts]
    exact shelf_places.error h p d

theorem storeAll_eq (f : Folder) (l : List Artifact) :
    f.storeAll l = fileEach (fun e f => store f e.1 e.2) l f := by
  induction l generalizing f with
  | nil => rfl
  | cons e r ih =>
    rw [storeAll, fileEach]
    rcases hx : f.store e.1 e.2 with ⟨x | _, g⟩
    · rfl
    · exact ih g

theorem save_of_fileEach {f g : Folder} {b : Batch} {r : Except StorageError Unit}
    (h : fileEach storeOne b.entries f = (r, g)) :
    f.save b = (r.map fun _ => { written := b.entries.length }, g) := by
  rw [save, storeAll_eq, h]

end Rollcall.Folder
