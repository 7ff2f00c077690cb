import Rollcall.Proofs.Storage.Puts
import Rollcall.Proofs.Storage.Refusal

/-! A batch that is saved twice. Paths of one batch may share directories or lead to one place, and the file of
one may stand where another needs a directory. But a save that succeeds leaves each path with its file, or that of
a later path, and with all directories on the way, so nothing stands in the way of the second save; and that files
the same artifacts in the same order, so the same ones are left. -/

namespace Rollcall

namespace FileTree

/-- A tree is what is found in it, and what is filed for the root, where nothing is looked for. -/
theorem eq_of_node? {t u : FileTree} (hroot : t.nodes.get? [] = u.nodes.get? [])
    (h : ∀ l, t.node? l = u.node? l) : t = u := by
  have hnodes : t.nodes = u.nodes := Ledger.ext_get? fun l => by
    by_cases hl : l = []
    · rw [hl, hroot]
    · simpa [node?, hl] using h l
  cases t
  cases u
  exact congrArg mk hnodes

end FileTree

namespace Folder

open FileTree

variable {f g : Folder} {b : Batch} {r : SaveReport} {k : List Artifact}

/-- Where all files stand already, nothing stands in the way. -/
theorem exists_fileEach_of_fileAt? (h : ∀ a ∈ k, staysInside a.1 ∧
    ∃ d, f.tree.fileAt? f.cwd (join f.root a.1) = some d) : ∃ t,
      fileEach storeOne k f = (.ok (), { f with tree := t }) ∧ t.nodes.get? [] = f.tree.nodes.get? [] := by
  induction k generalizing f with
  | nil => exact ⟨f.tree, rfl, rfl⟩
  | cons a k ih =>
    obtain ⟨⟨hq, d, hd⟩, hk⟩ := List.forall_mem_cons.1 h
    obtain ⟨hne, hnode, hstore⟩ := store_of_fileAt? hq hd
    have hput := rewrites_put (P := fun _ => True) hne trivial hnode a.2
    obtain ⟨t, ht, hroot⟩ := ih (f := { f with tree := f.tree.put (f.place ++ names a.1) (.file a.2) })
      fun c hc => by
        obtain ⟨hqc, e, he⟩ := hk c hc
        exact ⟨hqc, hput.exists_fileAt?_eq he⟩
    refine ⟨t, ?_, hroot.trans ?_⟩
    · rw [fileEach, hstore]
      exact ht
    · exact f.tree.nodes.get?_insert_of_ne hne.symm _

theorem fileEach_of_save_ok (h : f.save b = (.ok r, g)) :
    fileEach storeOne b.entries f = (.ok (), g) ∧ r = { written := b.entries.length } := by
  rcases hx : fileEach storeOne b.entries f with ⟨x | _, g'⟩
  · simp [save_of_fileEach hx, Except.map] at h
  · obtain ⟨hr, rfl⟩ := Prod.mk.inj ((save_of_fileEach hx).symm.trans h)
    exact ⟨rfl, (Except.ok.inj hr).symm⟩

/-- A folder in which a batch was saved stays as it is when the batch is saved again. -/
theorem save_of_saved (h : f.save b = (.ok r, g)) : g.save b = (.ok r, g) := by
  obtain ⟨hfirst, rfl⟩ := fileEach_of_save_ok h
  have hall : g.HasAll b.entries := hasAll_of_fileEach_ok hfirst
  obtain ⟨t, rfl, -, hstored⟩ := exists_of_fileEach_ok hfirst
  obtain ⟨u, hsecond, hroot⟩ := exists_fileEach_of_fileAt? (f := { f with tree := t }) fun a ha => by
    obtain ⟨d, hd⟩ : ∃ d, LastFiled SamePlace b.entries a.1 d := exists_lastFiled ⟨a, ha, rfl⟩
    exact ⟨(hstored a ha).1, d, hall a ha d hd⟩
  have hsame : u = t := eq_of_node? hroot ((unchanged_iff hsecond).2 hall)
  exact save_of_fileEach (hsame ▸ hsecond)

end Folder

namespace Bucket

variable {o p : Bucket} {b : Batch} {r : SaveReport}

theorem fileEach_of_save_ok (h : o.save b = (.ok r, p)) : ∃ s, p = { o with store := s } ∧
    fileEach (putOne o.keyPrefix) b.entries o.store = (.ok (), s) := by
  rcases hx : fileEach (putOne o.keyPrefix) b.entries o.store with ⟨x | _, s⟩
  · simp [save_of_fileEach hx, Except.map] at h
  · obtain ⟨-, rfl⟩ := Prod.mk.inj ((save_of_fileEach hx).symm.trans h)
    exact ⟨s, rfl, rfl⟩

/-- The objects of a bucket in which a batch was saved stay as they are when the batch is saved again. -/
theorem save_of_saved (hputs : ∀ n, o.store.puts.length ≤ n → o.store.outcome n = true)
    (h : o.save b = (.ok r, p)) :
    (p.save b).1 = .ok r ∧ (p.save b).2.store.objects = p.store.objects := by
  obtain ⟨s, rfl, hfirst⟩ := fileEach_of_save_ok h
  obtain ⟨s', hs', hscript, hcount⟩ := exists_fileEach_of_outcome hputs o.keyPrefix b.entries
  obtain rfl : s = s' := (Prod.mk.inj (hfirst.symm.trans hs')).2
  obtain ⟨t, hsecond, -, -⟩ := exists_fileEach_of_outcome (s := s)
    (fun n hn => (congrFun hscript n).trans (hputs n (Nat.le_trans hcount hn))) o.keyPrefix b.entries
  have hobjects : t.objects = s.objects := Ledger.ext_get? fun k => Option.ext fun d =>
    (shelf_at o.keyPrefix id).holds_again hfirst hsecond k d
  rw [save_of_fileEach (b := { o with store := s }) hsecond]
  rw [save_of_fileEach hfirst] at h
  exact ⟨(Prod.mk.inj h).1, hobjects⟩

end Bucket

/-- A batch that was saved is saved again with the same report, and changes nothing: in a folder whatever its tree
was, in a bucket whatever its objects were as long as no put fails. -/
theorem Batch.save_again (b : Batch) (r : SaveReport) :
    (∀ f g : Folder, f.save b = (.ok r, g) → g.save b = (.ok r, g)) ∧
      ∀ o p : Bucket, (∀ n, o.store.puts.length ≤ n → o.store.outcome n = true) → o.save b = (.ok r, p) →
        (p.save b).1 = .ok r ∧ (p.save b).2.store.objects = p.store.objects := by
  refine ⟨fun f g h => ?_, fun o p hputs h => ?_⟩
  · exact Folder.save_of_saved h
  · exact Bucket.save_of_saved hputs h

section SharedPlaces

/-- Two paths that lead to one place, and a third that shares a directory with them. -/
def sharedPlaces : Batch := .ofList [("a//x", "1".toUTF8), ("a/b/./y", "2".toUTF8), ("a/x", "3".toUTF8)]

def newFolder : Folder := { root := "root", tree := {} }

def newBucket : Bucket := { keyPrefix := "net", maxBlockSize := 10, store := {} }

theorem Batch.save_again_sharedPlaces : ∃ g p,
    (newFolder.save sharedPlaces = (.ok { written := 3 }, g) ∧
      newBucket.save sharedPlaces = (.ok { written := 3 }, p) ∧
      ∀ n, newBucket.store.puts.length ≤ n → newBucket.store.outcome n = true) ∧
    g.save sharedPlaces = (.ok { written := 3 }, g) ∧ (p.save sharedPlaces).1 = .ok { written := 3 } ∧
      (p.save sharedPlaces).2.store.objects = p.store.objects := by
  have hfolder : (newFolder.save sharedPlaces).1 = .ok { written := 3 } := by decide +kernel
  have hbucket : (newBucket.save sharedPlaces).1 = .ok { written := 3 } := by decide +kernel
  obtain ⟨g, hg⟩ : ∃ g, newFolder.save sharedPlaces = (.ok { written := 3 }, g) := ⟨_, Prod.ext hfolder rfl⟩
  obtain ⟨p, hp⟩ : ∃ p, newBucket.save sharedPlaces = (.ok { written := 3 }, p) := ⟨_, Prod.ext hbucket rfl⟩
  have hputs : ∀ n, newBucket.store.puts.length ≤ n → newBucket.store.outcome n = true := fun _ _ => rfl
  obtain ⟨hagain, hagain'⟩ := Batch.save_again sharedPlaces { written := 3 }
  exact ⟨g, p, ⟨hg, hp, hputs⟩, hagain newFolder g hg, hagain' newBucket p hputs hp⟩

end SharedPlaces

end Rollcall
