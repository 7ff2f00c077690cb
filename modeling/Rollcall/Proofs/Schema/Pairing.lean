import Mathlib.Data.List.Perm.Basic
import Rollcall.Proofs.Ledger
import Rollcall.Proofs.Schema.RoundTrip
import Rollcall.Proofs.Text.Decimal
import Rollcall.Proofs.Text.Split

/-! Scripts paired again by the versions in their names. A name tells the version and the direction whatever the
migration is called, so it does not matter in which order the scripts are read: each draft holds what was read
of its migration, and once all was read the drafts are the migrations. That the versions differ and have
sixty-four bits is needed, since a name gives nothing else to tell two migrations apart. -/

namespace Rollcall.Migration

section Name

/-- The name under which a script is kept, without the extension of a dialect. -/
def stem (x : Migration) (d : Direction) : String :=
  Decimal.int x.version ++ "_" ++ x.name ++ "." ++ d.name

theorem direction?_append (s : List Char) (d : Direction) :
    direction? (s ++ '.' :: d.name.toList) = some (s, d) := by
  cases d with
  | up =>
    have hup : Text.dropSuffix? ".up".toList (s ++ ".up".toList) = some s := Text.dropSuffix?_append s _
    simp only [direction?, hup, show '.' :: Direction.up.name.toList = ".up".toList from rfl]
  | down =>
    have hup : Text.dropSuffix? ".up".toList (s ++ ".down".toList) = none :=
      List.append_assoc s ".dow".toList ['n'] ▸
        Text.dropSuffix?_concat_of_ne ".u".toList (s ++ ".dow".toList) (by decide)
    have hdown : Text.dropSuffix? ".down".toList (s ++ ".down".toList) = some s := Text.dropSuffix?_append s _
    simp only [direction?, hup, hdown, show '.' :: Direction.down.name.toList = ".down".toList from rfl,
      Option.map_some]

/-- A name is read back, underscores and dots in the middle included. -/
theorem readName?_stem {x : Migration} (hfit : Decimal.fitsSigned x.version) (d : Direction) :
    readName? (x.stem d) = some (x.version, x.name, d) := by
  have hstem : (x.stem d).toList =
      ((Decimal.int x.version).toList ++ '_' :: x.name.toList) ++ '.' :: d.name.toList := by
    simp [stem]
  have hversion : '_' ∉ (Decimal.int x.version).toList := Decimal.not_mem_int (by decide) (by decide) _
  rw [readName?, hstem, direction?_append]
  simp [Text.splitFirst?_append_cons hversion, Decimal.signed?_int hfit]

end Name

section Drafts

/-- A script of a migration, as the migration and the direction. -/
abbrev Half := Migration × Direction

/-- The script with its name. -/
def Half.file (h : Half) : String × String := (h.1.stem h.2, h.1.script h.2)

/-- The draft of a migration after these scripts. -/
def draft (read : List Half) (x : Migration) : Draft where
  name := x.name
  up := if (x, .up) ∈ read then some x.up else none
  down := if (x, .down) ∈ read then some x.down else none

/-- The draft of a migration of which all is known. -/
def whole (x : Migration) : Draft := { name := x.name, up := some x.up, down := some x.down }

variable {read : List Half} {x y : Migration} {d : Direction}

theorem script?_draft : (x.draft read).script? d = if (x, d) ∈ read then some (x.script d) else none := by
  cases d <;> rfl

theorem draft_of_unread (h : ∀ d, (x, d) ∉ read) : x.draft read = { name := x.name } := by
  simp [draft, h]

theorem draft_concat : x.draft (read ++ [(x, d)]) = (x.draft read).withScript d (x.script d) := by
  cases d <;> simp [draft, Draft.withScript, script]

theorem draft_concat_of_ne (h : y ≠ x) : y.draft (read ++ [(x, d)]) = y.draft read := by
  simp [draft, h]

theorem draft_of_read (h : ∀ d, (x, d) ∈ read) : x.draft read = x.whole := by
  simp [draft, whole, h]

/-- Under each version stands the draft of the migration of which scripts were read. -/
def Drafted (read : List Half) (ds : Drafts) : Prop :=
  ∀ v t, ds.get? v = some t ↔ ∃ h ∈ read, h.1.version = v ∧ h.1.draft read = t

/-- The scripts are those of migrations whose versions differ and can be read. -/
structure Separate (read : List Half) : Prop where
  nodup : read.Nodup
  fits : ∀ h ∈ read, Decimal.fitsSigned h.1.version
  eq_of_version : ∀ h ∈ read, ∀ k ∈ read, h.1.version = k.1.version → h.1 = k.1

theorem Separate.of_subset {k l : List Half} (h : Separate l) (hk : k.Nodup) (hkl : k ⊆ l) : Separate k where
  nodup := hk
  fits a ha := h.fits a (hkl ha)
  eq_of_version a ha b hb := h.eq_of_version a (hkl ha) b (hkl hb)

variable {ds : Drafts}

theorem Drafted.getD_get? (hds : Drafted read ds) (hx : ∀ h ∈ read, h.1.version = x.version → h.1 = x) :
    (ds.get? x.version).getD { name := x.name } = x.draft read := by
  cases hget : ds.get? x.version with
  | none =>
    refine (draft_of_unread fun e he => ?_).symm
    have hdraft : ds.get? x.version = some (x.draft read) := (hds _ _).2 ⟨(x, e), he, rfl, rfl⟩
    simp [hget] at hdraft
  | some t =>
    obtain ⟨h, hh, hv, rfl⟩ := (hds _ _).1 hget
    rw [hx h hh hv, Option.getD_some]

theorem Drafted.insert (hds : Drafted read ds)
    (hx : ∀ h ∈ read ++ [(x, d)], h.1.version = x.version → h.1 = x) :
    Drafted (read ++ [(x, d)]) (ds.insert x.version (x.draft (read ++ [(x, d)]))) := by
  intro v t
  rw [Ledger.get?_insert]
  split
  · rename_i hv
    subst hv
    constructor
    · rintro ⟨⟩
      exact ⟨(x, d), by simp, rfl, rfl⟩
    · rintro ⟨h, hh, hv, rfl⟩
      rw [hx h hh hv]
  · -- the other drafts do not heed the script
    rename_i hv
    have hother {h : Half} (hh : h.1.version = v) : h.1 ≠ x := fun hsame => hv (hsame ▸ hh.symm)
    rw [hds v t]
    constructor
    · rintro ⟨h, hh, hhv, rfl⟩
      exact ⟨h, List.mem_append_left _ hh, hhv, draft_concat_of_ne (hother hhv)⟩
    · rintro ⟨h, hh, hhv, rfl⟩
      rcases List.mem_append.1 hh with hh | hh
      · exact ⟨h, hh, hhv, (draft_concat_of_ne (hother hhv)).symm⟩
      · exact absurd (congrArg Prod.fst (List.mem_singleton.1 hh)) (hother hhv)

/-- A script goes to the draft of its migration, which has none in its direction so far. -/
theorem Drafted.addScript (hds : Drafted read ds) (hs : Separate (read ++ [(x, d)])) :
    ∃ ds', addScript ds (Half.file (x, d)) = .ok ds' ∧ Drafted (read ++ [(x, d)]) ds' := by
  have hlast : (x, d) ∈ read ++ [(x, d)] := by simp
  have hx (h : Half) (hh : h ∈ read ++ [(x, d)]) (hv : h.1.version = x.version) : h.1 = x :=
    hs.eq_of_version h hh (x, d) hlast hv
  have hunread : (x, d) ∉ read := fun h => (List.nodup_append.1 hs.nodup).2.2 _ h _ (by simp) rfl
  have hknown := hds.getD_get? fun h hh => hx h (List.mem_append_left _ hh)
  refine ⟨_, ?_, hds.insert hx⟩
  rw [Migration.addScript, Half.file, readName?_stem (hs.fits _ hlast)]
  simp [hknown, script?_draft, hunread, draft_concat]

/-- Scripts read in any order are drafted, and none of them is refused. -/
theorem exists_drafts (hs : Separate read) :
    ∃ ds, (read.map Half.file).foldlM addScript (.empty : Drafts) = .ok ds ∧ Drafted read ds := by
  induction read using List.reverseRecOn with
  | nil => exact ⟨.empty, rfl, fun v t => by simp⟩
  | append_singleton read h ih =>
    obtain ⟨ds, hread, hds⟩ := ih (hs.of_subset (List.nodup_append.1 hs.nodup).1 (List.subset_append_left _ _))
    obtain ⟨ds', hadd, hds'⟩ := hds.addScript hs
    refine ⟨ds', ?_, hds'⟩
    rw [List.map_append, List.foldlM_append, hread]
    exact (bind_pure (Migration.addScript ds h.file)).trans hadd

end Drafts

section Whole

variable {ms : List Migration}

def halves (ms : List Migration) : List Half := ms.flatMap fun x => [(x, .up), (x, .down)]

theorem mem_halves {h : Half} : h ∈ halves ms ↔ h.1 ∈ ms := by
  obtain ⟨x, d⟩ := h
  cases d <;> simp [halves]

theorem separate_halves (hv : (ms.map (·.version)).Nodup) (hfit : ∀ x ∈ ms, Decimal.fitsSigned x.version) :
    Separate (halves ms) where
  nodup := by
    refine List.nodup_flatMap.2 ⟨fun x _ => by simp, hv.of_map.imp fun {x y} hxy => ?_⟩
    simpa [List.disjoint_left, Function.onFun] using hxy
  fits h hh := hfit h.1 (mem_halves.1 hh)
  eq_of_version h hh k hk := List.inj_on_of_nodup_map hv (mem_halves.1 hh) (mem_halves.1 hk)

/-- Once all scripts are read, the drafts are those of whole migrations. -/
theorem Drafted.entries_eq {read : List Half} {ds : Drafts} (hds : Drafted read ds)
    (hread : ∀ h, h ∈ read ↔ h.1 ∈ ms) (hms : Migrator.Ascending ms) :
    ds.entries = ms.map fun x => (x.version, x.whole) := by
  have hasc : (ms.map fun x => (x.version, x.whole)).Pairwise fun a b => a.1 < b.1 := List.pairwise_map.2 hms
  have hnodup : ((ms.map fun x => (x.version, x.whole)).map (·.1)).Nodup :=
    (List.pairwise_map.2 hasc).imp Int.ne_of_lt
  have hsame : ds = .ofList (ms.map fun x => (x.version, x.whole)) := by
    refine Ledger.ext_get? fun v => Option.ext fun t => ?_
    rw [hds, Ledger.get?_ofList_of_nodup hnodup, List.mem_map]
    constructor
    · rintro ⟨h, hh, rfl, rfl⟩
      have hx : h.1 ∈ ms := (hread h).1 hh
      exact ⟨h.1, hx, by rw [draft_of_read fun d => (hread (h.1, d)).2 hx]⟩
    · rintro ⟨x, hx, hxt⟩
      obtain ⟨rfl, rfl⟩ := Prod.mk.inj hxt
      exact ⟨(x, .up), (hread _).2 hx, rfl, draft_of_read fun d => (hread (x, d)).2 hx⟩
  rw [hsame, Ledger.entries_ofList hasc]

theorem mapM_finish (ms : List Migration) :
    (ms.map fun x => (x.version, x.whole)).mapM (fun e => e.2.finish e.1) = .ok ms := by
  have hfinish : (fun e : Int × Draft => e.2.finish e.1) ∘ (fun x : Migration => (x.version, x.whole)) =
      pure := rfl
  rw [List.mapM_map, hfinish]
  exact List.mapM_pure.trans (congrArg _ ms.map_id)

/-- The scripts of migrations are paired again in whatever order they are read: the migrations come back as
they were, by their versions. -/
theorem ofScripts_of_perm (hv : (ms.map (·.version)).Nodup) (hfit : ∀ x ∈ ms, Decimal.fitsSigned x.version)
    {scripts : List (String × String)}
    (hscripts : scripts.Perm (ms.flatMap fun x => [(x.stem .up, x.up), (x.stem .down, x.down)])) :
    ∃ sorted, sorted.Perm ms ∧ Migrator.Ascending sorted ∧ ofScripts scripts = .ok sorted := by
  have hhalves : (ms.flatMap fun x => [(x.stem .up, x.up), (x.stem .down, x.down)]) =
      (halves ms).map Half.file := by
    rw [halves, List.map_flatMap]
    rfl
  rw [hhalves] at hscripts
  obtain ⟨read, rfl, hperm⟩ : ∃ read : List Half, scripts = read.map Half.file ∧ read.Perm (halves ms) :=
    (congrFun₂ (List.eq_map_comp_perm Half.file) scripts (halves ms)).mpr hscripts
  have hall := separate_halves hv hfit
  obtain ⟨ds, hfold, hds⟩ := exists_drafts (hall.of_subset (hperm.nodup_iff.2 hall.nodup) hperm.subset)
  obtain ⟨sorted, hsorted, hasc⟩ : ∃ sorted, sorted.Perm ms ∧ Migrator.Ascending sorted :=
    ⟨_, List.mergeSort_perm .., Migrator.pairwise_mergeSort_version hv⟩
  have hread (h : Half) : h ∈ read ↔ h.1 ∈ sorted := by rw [hperm.mem_iff, mem_halves, hsorted.mem_iff]
  have hfinish := mapM_finish sorted
  rw [← hds.entries_eq hread hasc] at hfinish
  refine ⟨sorted, hsorted, hasc, ?_⟩
  rw [ofScripts, hfold]
  exact hfinish

/-- Names that look like names of scripts, and versions whose texts are not in the order of the versions. -/
theorem ofScripts_of_perm_confusing :
    let ms : List Migration := [⟨10, "index.down", "a", ""⟩, ⟨2, "", "b", "c"⟩, ⟨-3, "4_x.up", "d", "d"⟩]
    let scripts := [("-3_4_x.up.down", "d"), ("10_index.down.up", "a"), ("2_.down", "c"),
      ("-3_4_x.up.up", "d"), ("10_index.down.down", ""), ("2_.up", "b")]
    ((ms.map (·.version)).Nodup ∧ (∀ x ∈ ms, Decimal.fitsSigned x.version) ∧
      scripts.Perm (ms.flatMap fun x => [(x.stem .up, x.up), (x.stem .down, x.down)])) ∧
    ∃ sorted, sorted.Perm ms ∧ Migrator.Ascending sorted ∧ ofScripts scripts = .ok sorted := by
  intro ms scripts
  have hv : (ms.map (·.version)).Nodup := by decide
  have hfit : ∀ x ∈ ms, Decimal.fitsSigned x.version := by decide
  have hscripts : scripts.Perm (ms.flatMap fun x => [(x.stem .up, x.up), (x.stem .down, x.down)]) := by
    decide +kernel
  exact ⟨⟨hv, hfit, hscripts⟩, ofScripts_of_perm hv hfit hscripts⟩

end Whole

end Rollcall.Migration
