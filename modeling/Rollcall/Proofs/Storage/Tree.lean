import Rollcall.FileTree
import Rollcall.Submission.Basic
import Rollcall.Proofs.Ledger
import Rollcall.Proofs.Text.Split

/-! What becomes of a tree of files. Where a path leads is a matter of its text alone, as long as there is
something; creating directories changes no file, and writing a file changes that file only. -/

namespace Rollcall.FileTree

instance : DecidableEq Node
  | .directory, .directory => .isTrue rfl
  | .file a, .file b => decidable_of_iff (a = b) (by simp)
  | .directory, .file _ | .file _, .directory => .isFalse (by simp)

theorem start_append (cwd : Location) {root : String} (hr : root ≠ "") (path : String) :
    start cwd (root ++ path) = start cwd root := by
  have hne : root.toList ≠ [] := fun h => hr (String.toList_eq_nil_iff.1 h)
  rw [start, start, String.toList_append, List.head?_append, List.head?_eq_some_head hne]
  rfl

theorem parts_append (a b : String) : parts (a ++ "/" ++ b) = parts a ++ parts b := by
  simp [parts, Text.splitOn_append_cons]

theorem parts_ne_nil (path : String) : parts path ≠ [] := by
  simpa [parts] using Text.splitOn_ne_nil '/' path.toList

/-- Where the parts lead from a place, if they lead anywhere. -/
def follow : Location → List String → Location
  | l, [] => l
  | l, p :: r =>
    if isHere p then follow l r
    else if p = ".." then follow l.dropLast r
    else follow (l ++ [p]) r

theorem follow_append (l : Location) (k r : List String) :
    follow l (k ++ r) = follow (follow l k) r := by
  induction k generalizing l with
  | nil => rfl
  | cons p k ih =>
    rw [List.cons_append, follow, follow]
    split
    · exact ih l
    · split
      · exact ih l.dropLast
      · exact ih (l ++ [p])

/-- The parts that name something. -/
def names (path : String) : List String := (parts path).filter (!isHere ·)

theorem follow_eq_append {l : Location} {k : List String} (hk : ".." ∉ k) :
    follow l k = l ++ k.filter (!isHere ·) := by
  induction k generalizing l with
  | nil => simp [follow]
  | cons p k ih =>
    rw [List.mem_cons, not_or] at hk
    rw [follow]
    split
    · rename_i hp
      rw [ih hk.2, List.filter_cons_of_neg (by simp [hp])]
    · rename_i hp
      rw [if_neg (Ne.symm hk.1), ih hk.2, List.filter_cons_of_pos (by simpa using hp)]
      simp

theorem eq_follow_of_walk {t : FileTree} {l d : Location} {k : List String}
    (h : t.walk l k = some d) : d = follow l k := by
  induction k generalizing l with
  | nil => exact (Option.some.inj h).symm
  | cons p k ih =>
    rw [walk] at h
    rw [follow]
    split at h
    · rename_i hp
      rw [if_pos hp]
      exact ih h
    · rename_i hp
      rw [if_neg hp]
      split at h
      · rename_i hup
        rw [if_pos hup]
        exact ih h
      · rename_i hup
        rw [if_neg hup]
        split at h
        · exact ih h
        · contradiction

theorem isHere_eq_false_and_ne_of_isName {p : String} (hp : isName p) : isHere p = false ∧ p ≠ ".." := by
  simp [isName] at hp
  exact hp.1

theorem follow_singleton {l : Location} {p : String} (hp : isName p) : follow l [p] = l ++ [p] := by
  obtain ⟨hhere, hup⟩ := isHere_eq_false_and_ne_of_isName hp
  rw [follow, hhere, if_neg (by simp), if_neg hup]
  rfl

/-- A file stands where its path leads, and never at the root of the tree. -/
theorem eq_follow_of_target {t : FileTree} {cwd l : Location} {path : String}
    (h : t.target? cwd path = some l) : l = follow (start cwd path) (parts path) ∧ l ≠ [] := by
  rw [target?] at h
  split at h
  · contradiction
  · split at h
    · contradiction
    · rename_i name hlast
      split at h
      · rename_i hname
        obtain ⟨d, hd, rfl⟩ := Option.map_eq_some_iff.1 h
        obtain ⟨k, hk⟩ := List.getLast?_eq_some_iff.1 hlast
        rw [hk, List.dropLast_concat] at hd
        refine ⟨?_, by simp⟩
        rw [hk, follow_append, follow_singleton hname, eq_follow_of_walk hd]
      · contradiction

theorem node?_put (t : FileTree) {l : Location} (hl : l ≠ []) (k : Location) (n : Node) :
    (t.put l n).node? k = if k = l then some n else t.node? k := by
  rw [node?, node?]
  split
  · rename_i hk
    have hkl : k ≠ l := fun e => hl (e ▸ hk)
    rw [if_neg hkl]
  · exact t.nodes.get?_insert k l n

/-- Both trees have the same files. -/
def SameFiles (t u : FileTree) : Prop :=
  ∀ k d, u.node? k = some (.file d) ↔ t.node? k = some (.file d)

theorem sameFiles_put_directory {t : FileTree} {l : Location} (hl : l ≠ []) (hn : t.node? l = none) :
    SameFiles t (t.put l .directory) := by
  intro k d
  rw [t.node?_put hl]
  split
  · rename_i hk
    simp [hk, hn]
  · exact Iff.rfl

theorem sameFiles_makeEach (t : FileTree) (l : Location) (k : List String) :
    SameFiles t (t.makeEach l k).2 := by
  induction k generalizing t l with
  | nil => exact fun _ _ => Iff.rfl
  | cons p k ih =>
    rw [makeEach]
    split
    · exact ih t l
    · split
      · exact ih t l.dropLast
      · split
        · exact fun _ _ => Iff.rfl
        · split
          · exact ih t (l ++ [p])
          · exact fun _ _ => Iff.rfl
          · rename_i hn
            intro j d
            rw [ih (t.put (l ++ [p]) .directory) (l ++ [p]) j d]
            exact sameFiles_put_directory (by simp) hn j d

theorem sameFiles_makeDirectories (t : FileTree) (cwd : Location) (path : String) :
    SameFiles t (t.makeDirectories cwd path).2 := by
  rw [makeDirectories]
  split
  · exact fun _ _ => Iff.rfl
  · split
    · exact fun _ _ => Iff.rfl
    · exact sameFiles_makeEach t _ _

/-- A file is written where its path leads, if its directory is there and it is none itself. -/
theorem writeFile_eq (t : FileTree) (cwd : Location) (path : String) (data : ByteArray) :
    t.writeFile cwd path data = (false, t) ∨
      ∃ l, t.target? cwd path = some l ∧ ¬t.isDirectory l ∧
        t.writeFile cwd path data = (true, t.put l (.file data)) := by
  rw [writeFile]
  split
  · exact .inl rfl
  · rename_i l hl
    split
    · exact .inl rfl
    · rename_i hdir
      exact .inr ⟨l, hl, hdir, rfl⟩

end Rollcall.FileTree
