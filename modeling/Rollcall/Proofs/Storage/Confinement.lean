import Rollcall.Proofs.Storage.Refusal

/-! How far a save reaches. A path is taken exactly if all that it names is a way down, and then leads to a
place at or below the root, whatever the root is called. So where the root exists, a save changes nothing
above it or beside it: it makes directories on the way to the places of its artifacts, and writes files in
these places, whether it succeeds or stops half way. -/

namespace Rollcall

namespace FileTree

/-- A step of a path as systems tell them apart. -/
inductive Component where
  | root
  | here
  | up
  | name (s : String)
  deriving DecidableEq

/-- The steps of a path. Repeated slashes and those at the end make none, and neither does a dot, unless the
path begins with it. -/
def components (path : String) : List Component :=
  (if path.toList.head? = some '/' then [.root] else if (parts path).head? = some "." then [.here] else []) ++
    (names path).map fun p => if p = ".." then .up else .name p

/-- The step leads neither up nor to the root of the tree. -/
def Component.StaysBelow (c : Component) : Prop := c ≠ .root ∧ c ≠ .up

/-- Where a path leads from a directory, told by its text alone. -/
def normal (cwd : Location) (path : String) : Location := follow (start cwd path) (parts path)

variable {t u v : FileTree} {D F D' F' : Location → Prop} {l d : Location} {k : List String} {cwd : Location}
  {path : String}

theorem up_mem_names_iff : ".." ∈ names path ↔ ".." ∈ parts path := by
  rw [names, List.mem_filter]
  exact and_iff_left (by decide)

theorem forall_components_iff :
    (∀ c ∈ components path, c.StaysBelow) ↔ path.toList.head? ≠ some '/' ∧ ".." ∉ parts path := by
  have hnames : (∀ c ∈ (names path).map fun p => if p = ".." then Component.up else .name p, c.StaysBelow) ↔
      ".." ∉ parts path := by
    rw [← up_mem_names_iff, List.forall_mem_map]
    constructor
    · intro h hup
      exact (h ".." hup).2 (if_pos rfl)
    · intro h p hp
      have hne : p ≠ ".." := fun e => h (e ▸ hp)
      rw [if_neg hne]
      exact ⟨Component.noConfusion, Component.noConfusion⟩
  rw [components, List.forall_mem_append, hnames]
  refine and_congr_left fun _ => ?_
  split
  · rename_i hslash
    simp [Component.StaysBelow, hslash]
  · rename_i hslash
    split <;> simp [Component.StaysBelow, hslash]

section Builds

/-- The second tree has some more directories, and some files where no directory was, and only at the places
meant for them. -/
def Builds (D F : Location → Prop) (t u : FileTree) : Prop :=
  ∀ l, u.node? l = t.node? l ∨ D l ∧ t.node? l = none ∧ u.node? l = some .directory ∨
    F l ∧ ¬t.isDirectory l ∧ ∃ e, u.node? l = some (.file e)

theorem Builds.refl (D F : Location → Prop) (t : FileTree) : Builds D F t t := fun _ => .inl rfl

theorem Builds.mono (h : Builds D F t u) (hD : ∀ l, D l → D' l) (hF : ∀ l, F l → F' l) : Builds D' F' t u :=
  fun l => (h l).imp_right (.imp (.imp_left (hD l)) (.imp_left (hF l)))

theorem Builds.trans (h : Builds D F t u) (h' : Builds D F u v) : Builds D F t v := by
  intro l
  rcases h l with hl | ⟨hD, hnone, hdir⟩ | ⟨hF, hnot, e, he⟩
  · rw [isDirectory, ← hl]
    exact h' l
  · rcases h' l with hl' | ⟨-, hnone', -⟩ | ⟨-, hnot', -⟩
    · exact .inr (.inl ⟨hD, hnone, hl'.trans hdir⟩)
    · cases hdir.symm.trans hnone'
    · exact absurd (isDirectory_iff.2 hdir) hnot'
  · rcases h' l with hl' | ⟨-, hnone', -⟩ | ⟨-, -, e', he'⟩
    · exact .inr (.inr ⟨hF, hnot, e, hl'.trans he⟩)
    · cases he.symm.trans hnone'
    · exact .inr (.inr ⟨hF, hnot, e', he'⟩)

theorem Builds.extends (h : Builds D F t u) : Extends t u := by
  intro l hl
  rw [isDirectory_iff] at hl ⊢
  rcases h l with hsame | ⟨-, hnone, -⟩ | ⟨-, hnot, -⟩
  · exact hsame.trans hl
  · cases hl.symm.trans hnone
  · exact absurd (isDirectory_iff.2 hl) hnot

theorem builds_put_directory (hl : l ≠ []) (hD : D l) (hn : t.node? l = none) :
    Builds D F t (t.put l .directory) := by
  intro m
  rw [t.node?_put hl]
  split
  · rename_i hm
    exact .inr (.inl ⟨hm ▸ hD, hm ▸ hn, rfl⟩)
  · exact .inl rfl

theorem builds_put_file (hl : l ≠ []) (hF : F l) (hn : ¬t.isDirectory l) (e : ByteArray) :
    Builds D F t (t.put l (.file e)) := by
  intro m
  rw [t.node?_put hl]
  split
  · rename_i hm
    exact .inr (.inr ⟨hm ▸ hF, hm ▸ hn, e, rfl⟩)
  · exact .inl rfl

/-- Directories are created under the first names of the parts only. -/
theorem builds_makeEach (t : FileTree) (l : Location) (hk : ".." ∉ k) :
    Builds (fun m => ∃ j, j ≠ [] ∧ j <+: k.filter (!isHere ·) ∧ m = l ++ j) F t (t.makeEach l k).2 := by
  induction k generalizing t l with
  | nil => exact .refl _ F t
  | cons p k ih =>
    rw [List.mem_cons, not_or] at hk
    rw [makeEach]
    split
    · rename_i hhere
      rw [List.filter_cons_of_neg (by simp [hhere])]
      exact ih t l hk.2
    rename_i hhere
    rw [if_neg (Ne.symm hk.1), List.filter_cons_of_pos (by simpa using hhere)]
    have hdeeper (u : FileTree) : Builds (fun m => ∃ j, j ≠ [] ∧ j <+: p :: k.filter (!isHere ·) ∧ m = l ++ j) F
        u (u.makeEach (l ++ [p]) k).2 := by
      refine (ih u (l ++ [p]) hk.2).mono ?_ fun _ => id
      rintro m ⟨j, -, hj, rfl⟩
      exact ⟨p :: j, List.cons_ne_nil p j, List.cons_prefix_cons.2 ⟨rfl, hj⟩, by simp⟩
    split
    · exact .refl _ F t
    · split
      · exact hdeeper t
      · exact .refl _ F t
      · rename_i hn
        have hfirst : [p] <+: p :: k.filter (!isHere ·) := ⟨_, rfl⟩
        exact (builds_put_directory (by simp) ⟨[p], by simp, hfirst, rfl⟩ hn).trans (hdeeper _)

end Builds

end FileTree

namespace Folder

open FileTree

variable {f g : Folder} {q : String} {k : List Artifact} {l : Location} {F : Location → Prop}

/-- There is something where the root leads. -/
def HasRoot (f : Folder) : Prop :=
  f.root = "" ∨ (f.tree.directory? f.cwd f.root).isSome ∨ (f.tree.fileAt? f.cwd f.root).isSome

instance (f : Folder) : Decidable f.HasRoot :=
  inferInstanceAs (Decidable (f.root = "" ∨ (f.tree.directory? f.cwd f.root).isSome ∨
    (f.tree.fileAt? f.cwd f.root).isSome))

/-- Resolved paths start with these parts, and they lead to the root, which is a directory. -/
def RootAt (f : Folder) (r : List String) : Prop :=
  (∀ path, parts (join f.root path) = r ++ parts path) ∧
    f.tree.walk (start f.cwd f.root) r = some f.place

/-- Resolved paths lead through the file that stands in the place of the root. -/
def Blocked (f : Folder) : Prop :=
  ∃ r name d e, (∀ path, parts (join f.root path) = r ++ name :: parts path) ∧ isName name ∧
    f.tree.walk (start f.cwd f.root) r = some d ∧ f.tree.node? (d ++ [name]) = some (.file e)

theorem HasRoot.rootAt_or_blocked (h : f.HasRoot) : (∃ r, f.RootAt r) ∨ f.Blocked := by
  obtain ⟨r, hr, hjoin⟩ := exists_parts_join f.root
  have hdirectory {l : Location} (hl : f.tree.walk (start f.cwd f.root) (parts f.root) = some l) :
      f.RootAt r := by
    have hplace : l = f.place := eq_follow_of_walk hl
    refine ⟨hjoin, ?_⟩
    rcases hr with hr | hr
    · rw [← hr, hl, hplace]
    · rw [hr, walk_append] at hl
      obtain ⟨d, hd, hdl⟩ := Option.bind_eq_some_iff.1 hl
      have hend : d = l := Option.some.inj hdl
      rw [hd, hend, hplace]
  rcases h with hempty | hdir | hfile
  · refine .inl ⟨r, hdirectory (l := start f.cwd f.root) ?_⟩
    rw [hempty]
    rfl
  · obtain ⟨l, hl⟩ := Option.isSome_iff_exists.1 hdir
    rw [directory?] at hl
    split at hl
    · exact .inl ⟨r, hdirectory hl⟩
    · contradiction
  · obtain ⟨e, he⟩ := Option.isSome_iff_exists.1 hfile
    obtain ⟨l, hl, hnode⟩ := fileAt?_eq_some_iff.1 he
    obtain ⟨-, k, name, d, hk, hname, hd, rfl⟩ := target?_eq_some_iff.1 hl
    have hroot : r = k ++ [name] := by
      rcases hr with hr | hr
      · exact hr.symm.trans hk
      · obtain ⟨-, hlast⟩ := List.append_inj' (hr.symm.trans hk) rfl
        obtain rfl := (List.cons.inj hlast).1
        simp [isName, isHere] at hname
    refine .inr ⟨k, name, d, e, fun path => ?_, hname, hd, hnode⟩
    rw [hjoin, hroot, List.append_assoc, List.singleton_append]

/-- On the way from the root to where an artifact stands. -/
def OnTheWay (f : Folder) (q : String) (l : Location) : Prop :=
  ∃ j, j ≠ [] ∧ j <+: names q ∧ j ≠ names q ∧ l = f.place ++ j

/-- Where an artifact stands. -/
def FiledAt (f : Folder) (q : String) (l : Location) : Prop :=
  names q ≠ [] ∧ l = f.place ++ names q

/-- Of what leads to an artifact, nothing is created up to where a walk leads. -/
theorem prepared_cases {r m : List String} {d : Location} (hq : staysInside q)
    (hparts : parts (join f.root q) = r ++ m) (hwalk : f.tree.walk (start f.cwd f.root) r = some d) :
    f.prepared q = f.tree ∨ ∃ j s, m = j ++ s ∧ (∃ p ∈ s, ¬isHere p) ∧
      f.prepared q = (f.tree.makeEach d j).2 := by
  rw [prepared]
  rcases f.tree.makeDirectories_parentText_cases f.cwd (join f.root q) with ⟨-, hm⟩ | ⟨-, hm⟩ | hm
  · exact .inl (congrArg Prod.snd hm)
  · exact .inl (congrArg Prod.snd hm)
  rw [hm, start_join hq]
  by_cases hnil : parentParts (join f.root q) = []
  · rw [hnil]
    exact .inl rfl
  obtain ⟨s, hs, hnamed⟩ := parentParts_append hnil
  rw [hparts] at hs
  rcases List.append_eq_append_iff.1 hs with ⟨j, hj, hm⟩ | ⟨j, hj, -⟩
  · rw [hj, makeEach_append_of_walk hwalk]
    exact .inr ⟨j, s, hm, hnamed, rfl⟩
  · rw [hj, walk_append] at hwalk
    obtain ⟨d', hd', -⟩ := Option.bind_eq_some_iff.1 hwalk
    exact .inl (congrArg Prod.snd (makeEach_of_walk hd'))

/-- What leads to an artifact is created below the root, short of its own place. -/
theorem RootAt.builds_prepared {r : List String} (h : f.RootAt r) (hq : staysInside q) :
    Builds (f.OnTheWay q) F f.tree (f.prepared q) := by
  rcases prepared_cases hq (h.1 q) h.2 with hsame | ⟨j, s, hparts, ⟨p, hp, hnamed⟩, hmade⟩
  · rw [hsame]
    exact .refl _ _ _
  have hup : ".." ∉ j := fun hmem => not_mem_parts_of_inside hq (hparts ▸ List.mem_append_left s hmem)
  have hnames : names q = j.filter (!isHere ·) ++ s.filter (!isHere ·) := by
    rw [names, hparts, List.filter_append]
  have hrest : 0 < (s.filter (!isHere ·)).length :=
    List.length_pos_of_mem (List.mem_filter.2 ⟨hp, by simpa using hnamed⟩)
  rw [hmade]
  refine (builds_makeEach f.tree f.place hup).mono ?_ fun _ => id
  rintro m ⟨i, hi, hij, rfl⟩
  refine ⟨i, hi, hnames ▸ hij.trans (List.prefix_append _ _), ?_, rfl⟩
  -- the own place of the artifact has one more name
  rintro rfl
  have hlen := hij.length_le
  rw [hnames, List.length_append] at hlen
  omega

/-- Where a resolved path has a target, all of its parts but the last one can be walked. -/
theorem exists_of_target?_join {t : FileTree} {r : List String} (hq : staysInside q)
    (hjoin : ∀ path, parts (join f.root path) = r ++ parts path)
    (h : t.target? f.cwd (join f.root q) = some l) :
    ∃ j name d, parts q = j ++ [name] ∧ isName name ∧ t.walk (start f.cwd f.root) (r ++ j) = some d := by
  obtain ⟨-, k, name, d, hk, hname, hd, -⟩ := target?_eq_some_iff.1 h
  obtain ⟨j, last, hj⟩ := (List.eq_nil_or_concat (parts q)).resolve_left (parts_ne_nil q)
  rw [List.concat_eq_append] at hj
  rw [hjoin, hj, ← List.append_assoc] at hk
  obtain ⟨rfl, hlast⟩ := List.append_inj' hk rfl
  obtain rfl := (List.cons.inj hlast).1
  rw [start_join hq] at hd
  exact ⟨j, last, d, hj, hname, hd⟩

theorem names_ne_nil {j : List String} {name : String} (hq : parts q = j ++ [name]) (hname : isName name) :
    names q ≠ [] := by
  have hmem : name ∈ parts q := hq ▸ List.mem_append_right j List.mem_cons_self
  exact List.ne_nil_of_mem (List.mem_filter.2 ⟨hmem, by simp [isHere_eq_false_and_ne_of_isName hname]⟩)

theorem RootAt.builds_store {r : List String} (h : f.RootAt r) (a : Artifact) :
    ∃ u, (storeOne a f).2 = { f with tree := u } ∧
      Builds (fun l => staysInside a.1 ∧ f.OnTheWay a.1 l) (fun l => staysInside a.1 ∧ f.FiledAt a.1 l)
        f.tree u := by
  by_cases hq : staysInside a.1
  · have hprepared {F : Location → Prop} :
        Builds (fun l => staysInside a.1 ∧ f.OnTheWay a.1 l) F f.tree (f.prepared a.1) :=
      (h.builds_prepared hq).mono (fun _ hl => ⟨hq, hl⟩) fun _ => id
    rcases store_cases hq a.2 with hx | ⟨hl, hdir, hx⟩
    · exact ⟨_, congrArg Prod.snd hx, hprepared⟩
    · obtain ⟨j, name, -, hj, hname, -⟩ := exists_of_target?_join hq h.1 hl
      have hfile : staysInside a.1 ∧ f.FiledAt a.1 (f.place ++ names a.1) :=
        ⟨hq, names_ne_nil hj hname, rfl⟩
      exact ⟨_, congrArg Prod.snd hx,
        hprepared.trans (builds_put_file (eq_place_of_target? hq hl).2 hfile hdir a.2)⟩
  · exact ⟨f.tree, congrArg Prod.snd (store_of_not_inside hq a.2), .refl _ _ _⟩

/-- Whatever is filed, the directories made for it are on the way to artifacts, and the files are these. -/
theorem RootAt.builds_fileEach {r : List String} (h : f.RootAt r) (k : List Artifact) :
    ∃ u, (fileEach storeOne k f).2 = { f with tree := u } ∧
      Builds (fun l => ∃ a ∈ k, staysInside a.1 ∧ f.OnTheWay a.1 l)
        (fun l => ∃ a ∈ k, staysInside a.1 ∧ f.FiledAt a.1 l) f.tree u := by
  induction k generalizing f with
  | nil => exact ⟨f.tree, rfl, .refl _ _ _⟩
  | cons a k ih =>
    obtain ⟨t, ht, hone⟩ := h.builds_store a
    have hfirst : Builds (fun l => ∃ b ∈ a :: k, staysInside b.1 ∧ f.OnTheWay b.1 l)
        (fun l => ∃ b ∈ a :: k, staysInside b.1 ∧ f.FiledAt b.1 l) f.tree t :=
      hone.mono (fun l hl => ⟨a, List.mem_cons_self, hl⟩) fun l hl => ⟨a, List.mem_cons_self, hl⟩
    rw [fileEach]
    rcases hx : storeOne a f with ⟨x | _, g⟩
    · rw [hx] at ht
      exact ⟨t, ht, hfirst⟩
    · rw [hx] at ht
      obtain rfl : g = { f with tree := t } := ht
      have hroot : RootAt { f with tree := t } r := ⟨h.1, hone.extends.walk_eq h.2⟩
      obtain ⟨u, hu, hrest⟩ := ih hroot
      refine ⟨u, hu, hfirst.trans (hrest.mono ?_ ?_)⟩
      · rintro l ⟨b, hb, hl⟩
        exact ⟨b, List.mem_cons_of_mem a hb, hl⟩
      · rintro l ⟨b, hb, hl⟩
        exact ⟨b, List.mem_cons_of_mem a hb, hl⟩

section Blocked

theorem walk_file {t : FileTree} {d : Location} {name : String} {r : List String} {e : ByteArray}
    (hname : isName name) (hfile : t.node? (d ++ [name]) = some (.file e)) :
    t.walk d (name :: r) = none := by
  cases hw : t.walk d (name :: r) with
  | none => rfl
  | some l =>
    obtain ⟨hnamed, hnotUp⟩ := isHere_eq_false_and_ne_of_isName hname
    rcases walk_cons_cases hw with ⟨hhere, -⟩ | ⟨-, hup, -⟩ | ⟨-, -, -, hdir, -⟩
    · simp [hnamed] at hhere
    · exact absurd hup hnotUp
    · rw [isDirectory_iff, hfile] at hdir
      simp at hdir

/-- Below a file nothing can be created. -/
theorem Blocked.prepared_eq (h : f.Blocked) (hq : staysInside q) : f.prepared q = f.tree := by
  obtain ⟨r, name, d, e, hjoin, hname, hwalk, hfile⟩ := h
  rcases prepared_cases hq (hjoin q) hwalk with hsame | ⟨j, s, hparts, -, hmade⟩
  · exact hsame
  rw [hmade]
  cases j with
  | nil => rfl
  | cons p j =>
    obtain rfl := (List.cons.inj hparts).1
    obtain ⟨hhere, hup⟩ := isHere_eq_false_and_ne_of_isName hname
    rw [makeEach, if_neg (by simp [hhere]), if_neg hup, if_neg (by simp [hname]), hfile]

theorem Blocked.store_snd (h : f.Blocked) (a : Artifact) : (storeOne a f).2 = f := by
  by_cases hq : staysInside a.1
  · have hsame := h.prepared_eq hq
    rcases store_cases hq a.2 with hx | ⟨hl, -⟩
    · rw [storeOne, hx, hsame]
    · obtain ⟨r, name, d, e, hjoin, hname, hwalk, hfile⟩ := h
      rw [hsame] at hl
      have hjoin' (path : String) : parts (join f.root path) = r ++ [name] ++ parts path := by
        rw [hjoin, List.append_assoc, List.singleton_append]
      obtain ⟨j, _, _, -, -, hd⟩ := exists_of_target?_join hq hjoin' hl
      rw [List.append_assoc, List.singleton_append, walk_append, hwalk, Option.bind_some,
        walk_file hname hfile] at hd
      contradiction
  · exact congrArg Prod.snd (store_of_not_inside hq a.2)

theorem Blocked.fileEach_snd (h : f.Blocked) (k : List Artifact) : (fileEach storeOne k f).2 = f := by
  induction k with
  | nil => rfl
  | cons a k ih =>
    have ha := h.store_snd a
    rw [fileEach]
    rcases hx : storeOne a f with ⟨x | _, g⟩
    · rw [hx] at ha
      exact ha
    · rw [hx] at ha
      obtain rfl : g = f := ha
      exact ih

end Blocked

theorem HasRoot.builds_save (h : f.HasRoot) (b : Batch) :
    Builds (fun l => ∃ a ∈ b.entries, staysInside a.1 ∧ f.OnTheWay a.1 l)
      (fun l => ∃ a ∈ b.entries, staysInside a.1 ∧ f.FiledAt a.1 l) f.tree (f.save b).2.tree := by
  have hsave : (f.save b).2 = (fileEach storeOne b.entries f).2 := by
    rw [save, storeAll_eq]
  rw [hsave]
  rcases h.rootAt_or_blocked with ⟨r, hr⟩ | hblocked
  · obtain ⟨u, hu, hbuilds⟩ := hr.builds_fileEach b.entries
    rw [hu]
    exact hbuilds
  · rw [hblocked.fileEach_snd]
    exact .refl _ _ f.tree

theorem resolve_eq_ok_iff {root path target : String} :
    resolve root path = .ok target ↔ staysInside path ∧ join root path = target := by
  rw [resolve]
  split
  · rename_i hq
    simp [hq]
  · rename_i hq
    simp [hq]

theorem normal_join (hq : staysInside q) (cwd : Location) (root : String) :
    normal cwd (join root q) = normal cwd root ++ names q := follow_join hq cwd

/-- A path resolves exactly if it is not empty and none of its steps leads up or to the root of the tree, and
it stays below the root of the folder then. So a save, whether it succeeds or not, changes nothing but what is
below that root: it files artifacts where their paths resolve to, and makes directories on the way. -/
theorem save_confined :
    (∀ root path,
      ((∃ target, resolve root path = .ok target) ↔ path ≠ "" ∧ ∀ c ∈ components path, c.StaysBelow) ∧
      ((∃ target, resolve root path = .ok target) ↔
        path ≠ "" ∧ path.toList.head? ≠ some '/' ∧ ".." ∉ parts path) ∧
      ∀ target, resolve root path = .ok target → ∀ cwd, normal cwd root <+: normal cwd target) ∧
    ∀ (f : Folder) (b : Batch), f.HasRoot → ∀ l, (f.save b).2.tree.node? l ≠ f.tree.node? l →
      (normal f.cwd f.root <+: l ∧ l ≠ normal f.cwd f.root) ∧
      ∃ a ∈ b.entries, ∃ target, resolve f.root a.1 = .ok target ∧
        (l = normal f.cwd target ∧ ¬f.tree.isDirectory l ∧
            (∃ e, (f.save b).2.tree.node? l = some (.file e)) ∨
          l <+: normal f.cwd target ∧ l ≠ normal f.cwd target ∧
            f.tree.node? l = none ∧ (f.save b).2.tree.node? l = some .directory) := by
  constructor
  · intro root path
    have hresolves : (∃ target, resolve root path = .ok target) ↔ staysInside path := by
      simp [resolve_eq_ok_iff]
    rw [forall_components_iff, hresolves]
    refine ⟨staysInside_iff, staysInside_iff, fun target htarget cwd => ?_⟩
    obtain ⟨hq, rfl⟩ := resolve_eq_ok_iff.1 htarget
    rw [normal_join hq]
    exact List.prefix_append _ _
  · intro f b hroot l hl
    have hbelow {j : List String} (hj : j ≠ []) :
        normal f.cwd f.root <+: f.place ++ j ∧ f.place ++ j ≠ normal f.cwd f.root :=
      ⟨List.prefix_append _ _, fun h => hj (List.append_right_eq_self.1 h)⟩
    rcases hroot.builds_save b l with hsame | ⟨⟨a, ha, hq, j, hj, hnames, hshort, rfl⟩, hnone, hdir⟩ |
      ⟨⟨a, ha, hq, hnames, rfl⟩, hnot, hfile⟩
    · exact absurd hsame hl
    · refine ⟨hbelow hj, a, ha, _, resolve_eq_ok_iff.2 ⟨hq, rfl⟩, .inr ?_⟩
      rw [normal_join hq]
      exact ⟨(List.prefix_append_right_inj _).2 hnames, fun h => hshort (List.append_cancel_left h), hnone,
        hdir⟩
    · refine ⟨hbelow hnames, a, ha, _, resolve_eq_ok_iff.2 ⟨hq, rfl⟩, .inl ?_⟩
      rw [normal_join hq]
      exact ⟨rfl, hnot, hfile⟩

/-- An empty root that is there. -/
def emptyFolder : Folder := { root := "root", tree := FileTree.put {} ["root"] .directory }

/-- The batch fails half way, and what it has filed by then is where it belongs. -/
theorem save_confined_escapingBatch :
    (resolve "root" "blocks/a.dat" = .ok "root/blocks/a.dat" ∧
      normal [] "root" <+: normal [] "root/blocks/a.dat") ∧
    emptyFolder.HasRoot ∧
    (emptyFolder.save escapingBatch).1 = .error (.outsideRoot "submissions/../../escaped.json") ∧
    (emptyFolder.save escapingBatch).2.tree.node? ["root", "blocks", "a.dat"] ≠
      emptyFolder.tree.node? ["root", "blocks", "a.dat"] ∧
    ∃ a ∈ escapingBatch.entries, ∃ target, resolve "root" a.1 = .ok target ∧
      ["root", "blocks", "a.dat"] <+: normal [] target := by
  have hresolve : resolve "root" "blocks/a.dat" = .ok "root/blocks/a.dat" := by rfl
  have hroot : emptyFolder.HasRoot := by decide +kernel
  have hchanged : (emptyFolder.save escapingBatch).2.tree.node? ["root", "blocks", "a.dat"] ≠
      emptyFolder.tree.node? ["root", "blocks", "a.dat"] := by decide +kernel
  have hbelow := (save_confined.1 "root" "blocks/a.dat").2.2 _ hresolve []
  obtain ⟨-, a, ha, target, htarget, ⟨hl, -⟩ | ⟨hl, -⟩⟩ :=
    save_confined.2 emptyFolder escapingBatch hroot _ hchanged
  · exact ⟨⟨hresolve, hbelow⟩, hroot, by rfl, hchanged, a, ha, target, htarget, hl ▸ List.prefix_refl _⟩
  · exact ⟨⟨hresolve, hbelow⟩, hroot, by rfl, hchanged, a, ha, target, htarget, hl⟩

end Folder

end Rollcall
