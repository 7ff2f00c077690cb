import Rollcall.Proofs.Storage.Directory
import Rollcall.Proofs.Storage.Folder

/-! What a refused batch leaves behind. Each path is checked when its turn comes, and by then the artifacts
in front of it are written. So a refusal leaves no trace exactly if the folder had all of those already. -/

namespace Rollcall

namespace FileTree

variable {t u v : FileTree} {P : Location → Prop} {l : Location} {cwd : Location} {path : String}
  {d : ByteArray}

theorem fileAt?_eq_some_iff : t.fileAt? cwd path = some d ↔
    ∃ l, t.target? cwd path = some l ∧ t.node? l = some (.file d) := by
  rw [fileAt?]
  cases ht : t.target? cwd path with
  | none => simp
  | some l =>
    simp only [Option.bind_some, Option.some.injEq, exists_eq_left']
    cases t.node? l with
    | none => simp
    | some n => cases n <;> simp

/-- The second tree differs in what some files hold, and only at the places meant. -/
def Rewrites (P : Location → Prop) (t u : FileTree) : Prop :=
  ∀ l, u.node? l = t.node? l ∨
    P l ∧ ∃ d e, t.node? l = some (.file d) ∧ u.node? l = some (.file e)

theorem Rewrites.refl (P : Location → Prop) (t : FileTree) : Rewrites P t t := fun _ => .inl rfl

theorem Rewrites.trans (h : Rewrites P t u) (h' : Rewrites P u v) : Rewrites P t v := by
  intro l
  rcases h l with hl | ⟨hP, d, e, hd, he⟩ <;> rcases h' l with hl' | ⟨hP', d', e', hd', he'⟩
  · exact .inl (hl'.trans hl)
  · exact .inr ⟨hP', d', e', hl ▸ hd', he'⟩
  · exact .inr ⟨hP, d, e, hd, hl'.trans he⟩
  · exact .inr ⟨hP, d, e', hd, he'⟩

theorem Rewrites.isDirectory_eq (h : Rewrites P t u) (l : Location) :
    u.isDirectory l = t.isDirectory l := by
  rw [isDirectory, isDirectory]
  rcases h l with hl | ⟨-, d, e, hd, he⟩
  · rw [hl]
  · rw [hd, he]

theorem rewrites_put (hl : l ≠ []) (hP : P l) (hd : t.node? l = some (.file d)) (e : ByteArray) :
    Rewrites P t (t.put l (.file e)) := by
  intro k
  rw [t.node?_put hl]
  split
  · rename_i hk
    exact .inr ⟨hk ▸ hP, d, e, hk ▸ hd, rfl⟩
  · exact .inl rfl

theorem Rewrites.exists_fileAt?_eq (h : Rewrites P t u) (ht : t.fileAt? cwd path = some d) :
    ∃ e, u.fileAt? cwd path = some e := by
  obtain ⟨l, hl, hd⟩ := fileAt?_eq_some_iff.1 ht
  have htarget : u.target? cwd path = some l :=
    Extends.target?_eq (fun k hk => (h.isDirectory_eq k).trans hk) hl
  rcases h l with hsame | ⟨-, -, e, -, he⟩
  · exact ⟨d, fileAt?_eq_some_iff.2 ⟨l, htarget, hsame.trans hd⟩⟩
  · exact ⟨e, fileAt?_eq_some_iff.2 ⟨l, htarget, he⟩⟩

end FileTree

namespace Folder

open FileTree

variable {f g : Folder} {q : String} {d e : ByteArray} {k : List Artifact}

/-- What is stored stands where its path leads, and no directory is lost. -/
theorem exists_of_store_ok {a : Artifact} (h : storeOne a f = (.ok (), g)) :
    ∃ t, g = { f with tree := t } ∧ Extends f.tree t ∧
      t.target? f.cwd (join f.root a.1) = some (f.place ++ names a.1) := by
  have hq := staysInside_of_ok h
  obtain ⟨t, -, hext, hx | ⟨hl, hdir, hx⟩⟩ := store_of_inside (f := f) hq a.2
  · rw [storeOne, hx] at h
    simp at h
  · rw [storeOne, hx] at h
    have hput := extends_put (eq_place_of_target? hq hl).2 hdir (.file a.2)
    exact ⟨_, (Prod.mk.inj h).2.symm, hext.trans hput, hput.target?_eq hl⟩

theorem exists_of_fileEach_ok (h : fileEach storeOne k f = (.ok (), g)) :
    ∃ t, g = { f with tree := t } ∧ Extends f.tree t ∧ ∀ a ∈ k, staysInside a.1 ∧
      t.target? f.cwd (join f.root a.1) = some (f.place ++ names a.1) := by
  induction k generalizing f with
  | nil => exact ⟨f.tree, (Prod.mk.inj h).2.symm, .refl f.tree, by simp⟩
  | cons a r ih =>
    rw [fileEach] at h
    rcases hx : storeOne a f with ⟨x | _, f'⟩
    · simp [hx] at h
    · rw [hx] at h
      obtain ⟨t, rfl, hext, htarget⟩ := exists_of_store_ok hx
      obtain ⟨u, rfl, hext', hrest⟩ := ih h
      refine ⟨u, rfl, hext.trans hext', List.forall_mem_cons.2 ⟨?_, hrest⟩⟩
      exact ⟨staysInside_of_ok hx, hext'.target?_eq htarget⟩

/-- Where a file stands already, another one is written in its place and no directory is made. -/
theorem store_of_fileAt? {a : Artifact} (hq : staysInside a.1)
    (h : f.tree.fileAt? f.cwd (join f.root a.1) = some d) :
    f.place ++ names a.1 ≠ [] ∧ f.tree.node? (f.place ++ names a.1) = some (.file d) ∧
      storeOne a f = (.ok (), { f with tree := f.tree.put (f.place ++ names a.1) (.file a.2) }) := by
  obtain ⟨l, hl, hd⟩ := fileAt?_eq_some_iff.1 h
  obtain ⟨rfl, hne⟩ := eq_place_of_target? hq hl
  have hresolve : resolve f.root a.1 = .ok (join f.root a.1) := if_pos hq
  have hdir : f.tree.isDirectory (f.place ++ names a.1) = false := by
    simp [isDirectory, hd]
  refine ⟨hne, hd, ?_⟩
  simp [storeOne, store, hresolve, makeDirectories_parentText hl, writeFile, hl, hdir]

theorem rewrites_fileEach {P : Location → Prop} (h : ∀ a ∈ k, staysInside a.1 ∧ P (f.place ++ names a.1) ∧
    ∃ d, f.tree.fileAt? f.cwd (join f.root a.1) = some d) :
    Rewrites P f.tree (fileEach storeOne k f).2.tree := by
  induction k generalizing f with
  | nil => exact .refl P f.tree
  | cons a r ih =>
    obtain ⟨⟨hq, hP, d, hd⟩, hr⟩ := List.forall_mem_cons.1 h
    obtain ⟨hne, hnode, hstore⟩ := store_of_fileAt? hq hd
    have hput := rewrites_put hne hP hnode a.2
    rw [fileEach, hstore]
    refine hput.trans (ih fun b hb => ?_)
    obtain ⟨hqb, hPb, e, he⟩ := hr b hb
    exact ⟨hqb, hPb, hput.exists_fileAt?_eq he⟩

/-- In each place stands the last of the artifacts that lead there. -/
def HasAll (f : Folder) (k : List Artifact) : Prop :=
  ∀ a ∈ k, ∀ d, LastFiled SamePlace k a.1 d → f.tree.fileAt? f.cwd (join f.root a.1) = some d

theorem hasAll_of_fileEach_ok (h : fileEach storeOne k f = (.ok (), g)) : g.HasAll k := by
  intro a ha d hlast
  have hnode := (shelf_places.holds_fileEach k f a.1 d).2 (.inl ((filed_of_ok h).symm ▸ hlast))
  rw [h] at hnode
  obtain ⟨t, rfl, -, hstored⟩ := exists_of_fileEach_ok h
  exact fileAt?_eq_some_iff.2 ⟨_, (hstored a ha).2, hnode⟩

/-- Storing artifacts changes nothing exactly if the folder has them. -/
theorem unchanged_iff (h : fileEach storeOne k f = (.ok (), g)) :
    (∀ l, g.tree.node? l = f.tree.node? l) ↔ f.HasAll k := by
  have hthen : g.HasAll k := hasAll_of_fileEach_ok h
  obtain ⟨t, rfl, -, hstored⟩ := exists_of_fileEach_ok h
  constructor
  · intro hsame a ha d hlast
    have hback : Extends t f.tree := fun l hl => by
      rw [isDirectory_iff] at hl ⊢
      exact (hsame l).symm.trans hl
    obtain ⟨l, hl, hd⟩ := fileAt?_eq_some_iff.1 (hthen a ha d hlast)
    exact fileAt?_eq_some_iff.2 ⟨l, hback.target?_eq hl, (hsame l).symm.trans hd⟩
  · intro hnow l
    have hlast (a : Artifact) (ha : a ∈ k) : ∃ d, LastFiled SamePlace k a.1 d :=
      exists_lastFiled ⟨a, ha, rfl⟩
    have hrewrites : Rewrites (fun l => ∃ a ∈ k, l = f.place ++ names a.1) f.tree t := by
      have hall := rewrites_fileEach (f := f) (k := k) (P := fun l => ∃ a ∈ k, l = f.place ++ names a.1)
        fun a ha => by
          obtain ⟨d, hd⟩ := hlast a ha
          exact ⟨(hstored a ha).1, ⟨a, ha, rfl⟩, d, hnow a ha d hd⟩
      rwa [h] at hall
    rcases hrewrites l with hsame | ⟨⟨a, ha, rfl⟩, -⟩
    · exact hsame
    · -- the file that is rewritten there last is the one that was there
      have hplace {u : FileTree} {d : ByteArray} (hu : u.fileAt? f.cwd (join f.root a.1) = some d) :
          u.node? (f.place ++ names a.1) = some (.file d) := by
        obtain ⟨l, hl, hd⟩ := fileAt?_eq_some_iff.1 hu
        obtain ⟨rfl, -⟩ := eq_place_of_target? (hstored a ha).1 hl
        exact hd
      obtain ⟨d, hd⟩ := hlast a ha
      exact (hplace (hthen a ha d hd)).trans (hplace (hnow a ha d hd)).symm

/-- Only a path that does not stay inside is refused, and nothing is done for it. -/
theorem of_store_outsideRoot {a : Artifact} (h : storeOne a f = (.error (.outsideRoot q), g)) :
    a.1 = q ∧ ¬staysInside q ∧ g = f := by
  by_cases hq : staysInside a.1
  · obtain ⟨t, -, -, hx | ⟨-, -, hx⟩⟩ := store_of_inside (f := f) hq a.2 <;>
      · rw [storeOne, hx] at h
        simp at h
  · rw [storeOne, store_of_not_inside hq] at h
    simp only [Prod.mk.injEq, Except.error.injEq, StorageError.outsideRoot.injEq] at h
    obtain ⟨rfl, rfl⟩ := h
    exact ⟨rfl, hq, rfl⟩

/-- A batch is refused for the first path that leads outside, and by then the artifacts in front of it are
written. So nothing is changed exactly if the folder had all of them already. -/
theorem refused_unchanged_iff {b : Batch} (h : (f.save b).1 = .error (.outsideRoot q)) :
    ∃ k d r, b.entries = k ++ (q, d) :: r ∧ ¬staysInside q ∧ (∀ a ∈ k, staysInside a.1) ∧
      (f.save b).2.HasAll k ∧ ((∀ l, (f.save b).2.tree.node? l = f.tree.node? l) ↔ f.HasAll k) := by
  rcases hx : fileEach storeOne b.entries f with ⟨x | _, g⟩
  · rw [save_of_fileEach hx] at h ⊢
    have hxq : x = .outsideRoot q := by simpa [Except.map] using h
    obtain ⟨k, a, r, u, hb, hk, ha⟩ := exists_of_fileEach_error (hxq ▸ hx)
    obtain ⟨rfl, hq, rfl⟩ := of_store_outsideRoot ha
    obtain ⟨t, -, -, hstored⟩ := exists_of_fileEach_ok hk
    exact ⟨k, a.2, r, hb, hq, fun a ha => (hstored a ha).1, hasAll_of_fileEach_ok hk, unchanged_iff hk⟩
  · simp [save_of_fileEach hx, Except.map] at h

section EscapingBatch

/-- A root that is not there yet. -/
def freshFolder : Folder := { root := "root", tree := {} }

/-- A block, and behind it a path that leads out of the root. -/
def escapingBatch : Batch :=
  .ofList [("blocks/a.dat", "1".toUTF8), ("submissions/../../escaped.json", "2".toUTF8)]

theorem escapingBatch_refused :
    (freshFolder.save escapingBatch).1 = .error (.outsideRoot "submissions/../../escaped.json") := by
  rfl

theorem refused_unchanged_iff_escapingBatch :
    (freshFolder.save escapingBatch).1 = .error (.outsideRoot "submissions/../../escaped.json") ∧
    ∃ k d r, escapingBatch.entries = k ++ ("submissions/../../escaped.json", d) :: r ∧
      (freshFolder.save escapingBatch).2.HasAll k ∧
      ((∀ l, (freshFolder.save escapingBatch).2.tree.node? l = freshFolder.tree.node? l) ↔
        freshFolder.HasAll k) := by
  obtain ⟨k, d, r, hb, -, -, hall, hiff⟩ := refused_unchanged_iff escapingBatch_refused
  exact ⟨escapingBatch_refused, k, d, r, hb, hall, hiff⟩

/-- The batch is refused, and the block and its directories are there. -/
theorem escapingBatch_written :
    (freshFolder.save escapingBatch).1 = .error (.outsideRoot "submissions/../../escaped.json") ∧
    (∀ l, l ≠ [] → freshFolder.tree.node? l = none) ∧
    (freshFolder.save escapingBatch).2.tree.node? ["root", "blocks"] = some .directory ∧
    (freshFolder.save escapingBatch).2.tree.node? ["root", "blocks", "a.dat"] =
      some (.file "1".toUTF8) := by
  refine ⟨escapingBatch_refused, fun l hl => ?_, by decide +kernel, by decide +kernel⟩
  rw [node?, if_neg hl]
  rfl

end EscapingBatch

end Folder

end Rollcall
