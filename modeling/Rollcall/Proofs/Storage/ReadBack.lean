import Rollcall.Proofs.Storage.Backend
import Rollcall.Proofs.Storage.Refusal

/-! What an acknowledged batch reads back as. Paths that differ in repeated slashes only lead to one place, in
a folder also those that differ in single dots, and of the artifacts that lead to a place the last one stays
there. So a batch that was saved reads back as it was given exactly if no two of its paths share a place and
differ in content. -/

namespace Rollcall.Backend

/-- Keeps artifacts as they come. -/
def IsVerbatim : Backend → Prop
  | .folder _ | .bucket _ => True
  | .keyspace _ _ | .relational _ => False

/-- The names in a path that tell where its artifact is kept. -/
def pathNames : Backend → String → List String
  | .folder _, p => FileTree.names p
  | .bucket _, p => (Key.segments p).map String.ofList
  | .keyspace _ _, _ | .relational _, _ => []

def SharePlace (x : Backend) (q p : String) : Prop := x.pathNames q = x.pathNames p

instance (x : Backend) (q p : String) : Decidable (x.SharePlace q p) :=
  inferInstanceAs (Decidable (x.pathNames q = x.pathNames p))

/-- What is found in the place of a path. -/
def readBack : Backend → String → Option ByteArray
  | .folder f, p => match Folder.resolve f.root p with
    | .ok target => f.tree.fileAt? f.cwd target
    | .error _ => none
  | .bucket o, p => o.store.objects.get? (o.key p)
  | .keyspace _ _, _ | .relational _, _ => none

variable {x y : Backend} {b : Batch} {r : SaveReport}

theorem folder_save_ok {f : Folder} (h : (Backend.folder f).save b = (.ok r, y)) :
    ∃ g, y = .folder g ∧ fileEach Folder.storeOne b.entries f = (.ok (), g) := by
  rcases hf : fileEach Folder.storeOne b.entries f with ⟨e | _, g⟩
  · simp [save, Folder.save_of_fileEach hf, Except.map] at h
  · simp only [save, Folder.save_of_fileEach hf] at h
    exact ⟨g, (Prod.mk.inj h).2.symm, rfl⟩

theorem bucket_save_ok {o : Bucket} (h : (Backend.bucket o).save b = (.ok r, y)) :
    ∃ s, y = .bucket { o with store := s } ∧
      fileEach (Bucket.putOne o.keyPrefix) b.entries o.store = (.ok (), s) := by
  rcases hs : fileEach (Bucket.putOne o.keyPrefix) b.entries o.store with ⟨e | _, s⟩
  · simp [save, Bucket.save_of_fileEach hs, Except.map] at h
  · simp only [save, Bucket.save_of_fileEach hs] at h
    exact ⟨s, (Prod.mk.inj h).2.symm, rfl⟩

/-- Each place holds the last artifact that leads there. -/
theorem readBack_of_ok (hx : x.IsVerbatim) (h : x.save b = (.ok r, y)) {a : Artifact} (ha : a ∈ b.entries)
    {d : ByteArray} (hd : LastFiled x.SharePlace b.entries a.1 d) : y.readBack a.1 = some d := by
  cases x with
  | folder f =>
    obtain ⟨g, rfl, hf⟩ := folder_save_ok h
    obtain ⟨t, rfl, -, hstored⟩ := Folder.exists_of_fileEach_ok hf
    have hresolve : Folder.resolve f.root a.1 = .ok (Folder.join f.root a.1) := if_pos (hstored a ha).1
    simp only [readBack, hresolve]
    exact Folder.hasAll_of_fileEach_ok hf a ha d hd
  | bucket o =>
    obtain ⟨s, rfl, hs⟩ := bucket_save_ok h
    have hplace : (Backend.bucket o).SharePlace = fun q p => Key.segments q = Key.segments p := by
      funext q p
      exact propext (List.map_inj_right fun _ _ => String.ofList_injective)
    rw [hplace] at hd
    have hput := ((Bucket.shelf_places o.keyPrefix).holds_fileEach b.entries o.store a.1 d).2
      (.inl ((filed_of_ok hs).symm ▸ hd))
    rwa [hs] at hput
  | keyspace k db => exact hx.elim
  | relational db => exact hx.elim

/-- After a save that succeeds, a path reads back the last artifact that leads to its place. So the batch reads
back as it was given exactly if the paths that share a place have the same content. -/
theorem reads_back_iff (hx : x.IsVerbatim) (h : (x.save b).1 = .ok r) :
    (∀ a ∈ b.entries, ∃ d, LastFiled x.SharePlace b.entries a.1 d ∧ (x.save b).2.readBack a.1 = some d) ∧
      ((∀ a ∈ b.entries, (x.save b).2.readBack a.1 = some a.2) ↔
        ∀ a ∈ b.entries, ∀ c ∈ b.entries, x.SharePlace a.1 c.1 → a.2 = c.2) := by
  obtain ⟨y, hy⟩ : ∃ y, y = (x.save b).2 := ⟨_, rfl⟩
  have h : x.save b = (.ok r, y) := Prod.ext h hy.symm
  rw [← hy]
  have hlast : ∀ a ∈ b.entries, ∃ d, LastFiled x.SharePlace b.entries a.1 d ∧ y.readBack a.1 = some d := by
    intro a ha
    have hlast : ∃ d, LastFiled x.SharePlace b.entries a.1 d := exists_lastFiled ⟨a, ha, rfl⟩
    obtain ⟨d, hd⟩ := hlast
    exact ⟨d, hd, readBack_of_ok hx h ha hd⟩
  refine ⟨hlast, ?_, ?_⟩
  · intro hall a ha c hc hplace
    obtain ⟨d, hd, hread⟩ := hlast a ha
    have hd' : LastFiled x.SharePlace b.entries c.1 d := by
      refine (lastFiled_congr fun q => ?_).1 hd
      exact ⟨fun h => h.trans hplace, fun h => h.trans hplace.symm⟩
    have hac := hread.symm.trans (hall a ha)
    have hcd := (readBack_of_ok hx h hc hd').symm.trans (hall c hc)
    exact Option.some.inj (hac.symm.trans hcd)
  · intro hsame a ha
    obtain ⟨d, ⟨k, q, t, hl, hq, -⟩, hread⟩ := hlast a ha
    have hmem : (q, d) ∈ b.entries := hl ▸ List.mem_append_right k List.mem_cons_self
    exact hread.trans (congrArg some (hsame (q, d) hmem a ha hq))

section Samples

def emptyFolder : Backend := .folder { root := "root", tree := {} }

def emptyBucket : Backend := .bucket { keyPrefix := "", maxBlockSize := 10, store := {} }

/-- Two artifacts with places of their own. -/
def twoBlocks : Batch := .ofList [("blocks/a.dat", "1".toUTF8), ("blocks/b.dat", "2".toUTF8)]

theorem reads_back_iff_twoBlocks :
    (emptyFolder.IsVerbatim ∧ (emptyFolder.save twoBlocks).1 = .ok { written := 2 }) ∧
    ∀ a ∈ twoBlocks.entries, (emptyFolder.save twoBlocks).2.readBack a.1 = some a.2 := by
  have hx : emptyFolder.IsVerbatim := trivial
  have h : (emptyFolder.save twoBlocks).1 = .ok { written := 2 } := by decide +kernel
  have happart : ∀ a ∈ twoBlocks.entries, ∀ c ∈ twoBlocks.entries,
      emptyFolder.SharePlace a.1 c.1 → a.2 = c.2 := by decide +kernel
  exact ⟨⟨hx, h⟩, (reads_back_iff hx h).2.2 happart⟩

/-- Two artifacts whose paths differ in a slash. -/
def doubledSlash : Batch := .ofList [("blocks//a.dat", "1".toUTF8), ("blocks/a.dat", "2".toUTF8)]

/-- Both are taken, and under the first path the content of the second is read. -/
theorem doubledSlash_lost :
    doubledSlash.entries = [("blocks//a.dat", "1".toUTF8), ("blocks/a.dat", "2".toUTF8)] ∧
    ∀ x ∈ [emptyFolder, emptyBucket], (x.save doubledSlash).1 = .ok { written := 2 } ∧
      (x.save doubledSlash).2.readBack "blocks//a.dat" = some "2".toUTF8 ∧
      (x.save doubledSlash).2.readBack "blocks//a.dat" ≠ some "1".toUTF8 := by
  refine ⟨by decide +kernel, fun x hx => ?_⟩
  rcases List.mem_pair.1 hx with rfl | rfl
  · exact ⟨by decide +kernel, by decide +kernel, by decide +kernel⟩
  · exact ⟨by decide +kernel, by decide +kernel, by decide +kernel⟩

end Samples

end Rollcall.Backend
