import Mathlib.Data.List.Induction
import Mathlib.Data.List.Nodup
import Rollcall.Ledger

/-! What can be looked up in a ledger after its operations, and that a ledger is determined by what can be
looked up in it. -/

namespace Rollcall.Ledger

section Put

variable {κ α : Type} [LT κ] [DecidableLT κ] [KeyOrder κ] [DecidableEq κ]

omit [KeyOrder κ] in
theorem lookup_put_self (k : κ) (v : α) (l : List (κ × α)) : (put k v l).lookup k = some v := by
  induction l with
  | nil => simp [put]
  | cons e r ih =>
    rw [put]
    split
    · simp
    · split
      · have : k ≠ e.1 := by rintro rfl; contradiction
        rw [List.lookup_cons, beq_false_of_ne this, ih]
      · simp

theorem lookup_put_of_ne {j k : κ} (h : j ≠ k) (v : α) (l : List (κ × α)) :
    (put k v l).lookup j = l.lookup j := by
  induction l with
  | nil => simp [put, List.lookup_cons, beq_false_of_ne h]
  | cons e r ih =>
    rw [put]
    split
    · rw [List.lookup_cons, beq_false_of_ne h]
    · split
      · rw [List.lookup_cons, List.lookup_cons, ih]
      · rename_i h1 h2
        have hk : k = e.1 := KeyOrder.eq_of_not_lt h1 h2
        rw [List.lookup_cons, List.lookup_cons, beq_false_of_ne h, beq_false_of_ne (hk ▸ h)]

@[simp] theorem get?_insert_self (t : Ledger κ α) (k : κ) (v : α) : (t.insert k v).get? k = some v :=
  lookup_put_self k v t.entries

theorem get?_insert_of_ne (t : Ledger κ α) {j k : κ} (h : j ≠ k) (v : α) :
    (t.insert k v).get? j = t.get? j :=
  lookup_put_of_ne h v t.entries

theorem get?_insert (t : Ledger κ α) (j k : κ) (v : α) :
    (t.insert k v).get? j = if j = k then some v else t.get? j := by
  split
  · rename_i h; rw [h, get?_insert_self]
  · rename_i h; exact t.get?_insert_of_ne h v

omit [DecidableLT κ] [KeyOrder κ] in
@[simp] theorem get?_empty (k : κ) : (empty : Ledger κ α).get? k = none := rfl

/-- Of the pairs with one key, the last one is filed. -/
theorem get?_ofList (l : List (κ × α)) (k : κ) :
    (ofList l).get? k = (l.filter fun e => e.1 = k).getLast?.map (·.2) := by
  induction l using List.reverseRecOn with
  | nil => rfl
  | append_singleton l e ih =>
    rw [ofList] at ih ⊢
    rw [List.foldl_concat, get?_insert, ih, List.filter_append]
    by_cases hk : k = e.1
    · simp [hk]
    · simp [hk, Ne.symm hk]

theorem mem_of_get?_ofList {l : List (κ × α)} {k : κ} {v : α} (h : (ofList l).get? k = some v) :
    (k, v) ∈ l := by
  rw [get?_ofList, Option.map_eq_some_iff] at h
  obtain ⟨e, he, rfl⟩ := h
  have hmem := List.mem_filter.1 (List.mem_of_getLast? he)
  have hkey : e.1 = k := by simpa using hmem.2
  exact hkey ▸ hmem.1

theorem exists_get?_ofList {l : List (κ × α)} {k : κ} {v : α} (h : (k, v) ∈ l) :
    ∃ w, (ofList l).get? k = some w := by
  have hk : (k, v) ∈ l.filter fun e => e.1 = k := List.mem_filter.2 ⟨h, by simp⟩
  obtain ⟨e, he⟩ := Option.isSome_iff_exists.1 (List.getLast?_isSome.2 (List.ne_nil_of_mem hk))
  exact ⟨e.2, by rw [get?_ofList, he, Option.map_some]⟩

theorem get?_ofList_of_nodup {l : List (κ × α)} (h : (l.map (·.1)).Nodup) {k : κ} {v : α} :
    (ofList l).get? k = some v ↔ (k, v) ∈ l := by
  constructor
  · exact mem_of_get?_ofList
  · intro hm
    obtain ⟨w, hw⟩ := exists_get?_ofList hm
    have hsame : (k, w) = (k, v) := List.inj_on_of_nodup_map h (mem_of_get?_ofList hw) hm rfl
    rw [hw, (Prod.mk.inj hsame).2]

end Put

section Distinct

variable {κ α : Type} [LT κ] [DecidableEq κ] [Std.Irrefl (α := κ) (· < ·)]

theorem lookup_eq_some_iff {l : List (κ × α)} (h : l.Pairwise fun a b => a.1 < b.1) {k : κ} {v : α} :
    l.lookup k = some v ↔ (k, v) ∈ l := by
  induction l with
  | nil => simp
  | cons e r ih =>
    obtain ⟨he, hr⟩ := List.pairwise_cons.1 h
    by_cases hk : k = e.1
    · have hn : (k, v) ∉ r := fun hm => Std.Irrefl.irrefl (r := (· < ·)) k (by simpa [← hk] using he _ hm)
      rw [List.lookup_cons, beq_iff_eq.2 hk, List.mem_cons, or_iff_left hn, Prod.ext_iff]
      simp [hk, eq_comm]
    · rw [List.lookup_cons, beq_false_of_ne hk, List.mem_cons, Prod.ext_iff, ih hr]
      simp [hk]

omit [DecidableEq κ] [Std.Irrefl (α := κ) (· < ·)] in
theorem eq_of_entries {t u : Ledger κ α} (h : t.entries = u.entries) : t = u := by
  cases t
  cases u
  cases h
  rfl

theorem get?_eq_some_iff (t : Ledger κ α) {k : κ} {v : α} : t.get? k = some v ↔ (k, v) ∈ t.entries :=
  lookup_eq_some_iff t.sorted

theorem get?_filter (t : Ledger κ α) (p : κ × α → Bool) (k : κ) :
    (t.filter p).get? k = (t.get? k).filter fun v => p (k, v) := by
  ext v
  rw [get?_eq_some_iff, filter, List.mem_filter, ← get?_eq_some_iff, Option.filter_eq_some_iff]

theorem get?_erase (t : Ledger κ α) (j k : κ) : (t.erase k).get? j = if j = k then none else t.get? j := by
  rw [erase, get?_filter]
  by_cases h : j = k
  · simp [h]
  · cases t.get? j <;> simp [h]

omit [DecidableEq κ] in
/-- What the last of the entries that give something gives. -/
theorem getLast?_filterMap_entries_iff {β : Type} [KeyOrder κ] (t : Ledger κ α)
    (f : κ × α → Option β) {b : β} : (t.entries.filterMap f).getLast? = some b ↔
      ∃ last ∈ t.entries, f last = some b ∧ ∀ e ∈ t.entries, last.1 < e.1 → f e = none := by
  rw [List.getLast?_filterMap, List.findSome?_eq_some_iff]
  constructor
  · rintro ⟨behind, last, front, hsplit, hlast, hnone⟩
    have hentries : t.entries = front.reverse ++ last :: behind.reverse := by
      rw [← List.reverse_reverse t.entries, hsplit]
      simp
    have hsorted := t.sorted
    rw [hentries, List.pairwise_append] at hsorted
    refine ⟨last, by simp [hentries], hlast, fun e he hlt => ?_⟩
    rw [hentries, List.mem_append, List.mem_cons] at he
    rcases he with he | rfl | he
    · have := hsorted.2.2 e he last List.mem_cons_self
      exact absurd (KeyOrder.trans hlt this) (Std.Irrefl.irrefl (r := (· < ·)) last.1)
    · exact absurd hlt (Std.Irrefl.irrefl (r := (· < ·)) e.1)
    · exact hnone e (List.mem_reverse.1 he)
  · rintro ⟨last, hmem, hlast, hnone⟩
    obtain ⟨front, behind, hentries⟩ := List.append_of_mem hmem
    have hsorted := t.sorted
    rw [hentries, List.pairwise_append, List.pairwise_cons] at hsorted
    refine ⟨behind.reverse, last, front.reverse, by simp [hentries], hlast, fun e he => ?_⟩
    have he : e ∈ behind := List.mem_reverse.1 he
    exact hnone e (by simp [hentries, he]) (hsorted.2.1.1 e he)

end Distinct

section Ascending

variable {κ α : Type} [LT κ] [DecidableLT κ] [KeyOrder κ] [Std.Irrefl (α := κ) (· < ·)]

/-- A key behind all others goes to the end. -/
theorem put_of_forall_lt {k : κ} {l : List (κ × α)} (h : ∀ e ∈ l, e.1 < k) (v : α) :
    put k v l = l ++ [(k, v)] := by
  induction l with
  | nil => rfl
  | cons e r ih =>
    obtain ⟨he, hr⟩ := List.forall_mem_cons.1 h
    have hn : ¬k < e.1 := fun hk => Std.Irrefl.irrefl (r := (· < ·)) k (KeyOrder.trans hk he)
    rw [put, if_neg hn, if_pos he, ih hr, List.cons_append]

/-- Entries in the order of their keys are filed as they stand. -/
theorem entries_ofList {l : List (κ × α)} (h : l.Pairwise fun a b => a.1 < b.1) : (ofList l).entries = l := by
  induction l using List.reverseRecOn with
  | nil => rfl
  | append_singleton l e ih =>
    obtain ⟨hl, -, hlt⟩ := List.pairwise_append.1 h
    have hbehind : ∀ a ∈ l, a.1 < e.1 := fun a ha => hlt a ha e (List.mem_singleton.2 rfl)
    rw [ofList] at ih ⊢
    rw [List.foldl_concat]
    show put e.1 e.2 (l.foldl (fun t e => t.insert e.1 e.2) empty).entries = _
    rw [ih hl, put_of_forall_lt hbehind]

/-- A ledger is the one of its entries. -/
theorem ofList_entries (t : Ledger κ α) : ofList t.entries = t :=
  eq_of_entries (entries_ofList t.sorted)

end Ascending

section Noise

variable {κ α : Type} [LT κ] [DecidableLT κ] [KeyOrder κ] [DecidableEq κ] [Std.Irrefl (α := κ) (· < ·)]

omit [DecidableLT κ] in
/-- Ledgers in which the same can be looked up are the same. -/
theorem ext_get? {t u : Ledger κ α} (h : ∀ k, t.get? k = u.get? k) : t = u := by
  have hnodup (t : Ledger κ α) : t.entries.Nodup := by
    refine t.sorted.imp fun {a b} hab hsame => ?_
    exact Std.Irrefl.irrefl (r := (· < ·)) b.1 (hsame ▸ hab)
  have hmem (e : κ × α) : e ∈ t.entries ↔ e ∈ u.entries := by
    rw [← t.get?_eq_some_iff, h, u.get?_eq_some_iff]
  refine eq_of_entries (List.Perm.eq_of_pairwise ?_ t.sorted u.sorted ?_)
  · intro a b _ _ hab hba
    exact absurd (KeyOrder.trans hab hba) (Std.Irrefl.irrefl (r := (· < ·)) a.1)
  · exact (List.perm_ext_iff_of_nodup (hnodup t) (hnodup u)).2 hmem

/-- Filing the entries of a ledger anew, in any order and among entries for other keys, leaves what is looked
for in it as it was, as long as the others are not looked for. -/
theorem filter_ofList {p : κ × α → Bool} {t : Ledger κ α} {l noise : List (κ × α)}
    (hl : l.Perm (t.entries ++ noise)) (hkey : ∀ e ∈ noise, t.get? e.1 = none) (hp : ∀ e ∈ noise, p e = false) :
    (ofList l).filter p = t.filter p := by
  have hfiled {k : κ} {v : α} (h : (ofList l).get? k = some v) : t.get? k = some v ∨ (k, v) ∈ noise := by
    rw [t.get?_eq_some_iff, ← List.mem_append, ← hl.mem_iff]
    exact mem_of_get?_ofList h
  refine ext_get? fun k => ?_
  ext v
  rw [get?_filter, get?_filter, Option.filter_eq_some_iff, Option.filter_eq_some_iff]
  constructor
  · rintro ⟨hv, hpv⟩
    rcases hfiled hv with h | h
    · exact ⟨h, hpv⟩
    · exact absurd hpv (by simp [hp _ h])
  · rintro ⟨hv, hpv⟩
    have hmem : (k, v) ∈ l := hl.mem_iff.2 (List.mem_append_left noise (t.get?_eq_some_iff.1 hv))
    obtain ⟨w, hw⟩ := exists_get?_ofList hmem
    rcases hfiled hw with h | h
    · exact ⟨by rw [hw, ← h, hv], hpv⟩
    · exact absurd hv (by simp [hkey _ h])

end Noise

end Rollcall.Ledger
