import Mathlib.Data.List.Basic
import Mathlib.Data.List.Dedup

/-! Lists that are cut, searched, grouped and sorted: where an element of a concatenation stands, which codes are
read back word by word, that groups hold what the whole holds, what is left of an ascending list once its head
is dropped, that sorting by a key puts the keys in order and leaves elements of one key as they stood, and when
repetitions in a sorted list do not count. -/

namespace Rollcall

variable {α β : Type}

/-- An element of a concatenation stands in the first list or in the second. -/
theorem append_eq_append_cons {k l p r : List α} {a : α} (h : k ++ l = p ++ a :: r) :
    (∃ t, k = p ++ a :: t) ∨ ∃ q, p = k ++ q ∧ l = q ++ a :: r := by
  rcases List.append_eq_append_iff.1 h with ⟨q, hp, hl⟩ | ⟨t, hk, ht⟩
  · exact .inr ⟨q, hp, hl⟩
  · rcases List.cons_eq_append_iff.1 ht with ⟨rfl, hl⟩ | ⟨t, rfl, -⟩
    · exact .inr ⟨[], by simp [hk], by simp [hl]⟩
    · exact .inl ⟨t, hk⟩

/-- A list cut at two places that hold the same element: the cuts are one, or one lies behind the other. -/
theorem append_cons_eq_append_cons_iff {u v l r : List α} {a : α} :
    u ++ a :: l = v ++ a :: r ↔
      (u = v ∧ l = r) ∨ (∃ m, v = u ++ a :: m ∧ l = m ++ a :: r) ∨ ∃ m, u = v ++ a :: m ∧ r = m ++ a :: l := by
  constructor
  · intro h
    rcases append_eq_append_cons h with ⟨m, rfl⟩ | ⟨q, rfl, hq⟩
    · exact .inr (.inr ⟨m, rfl, by simpa using h.symm⟩)
    · cases q with
      | nil => exact .inl ⟨(List.append_nil u).symm, (List.cons.inj hq).2⟩
      | cons b m =>
        obtain ⟨rfl, hl⟩ := List.cons.inj hq
        exact .inr (.inl ⟨m, rfl, hl⟩)
  · rintro (⟨rfl, rfl⟩ | ⟨m, rfl, rfl⟩ | ⟨m, rfl, rfl⟩) <;> simp

/-- A code whose words are told apart whatever stands behind them is read back word by word. -/
theorem flatMap_inj {f : α → List β} (hne : ∀ a, f a ≠ [])
    (hword : ∀ {a b r s}, f a ++ r = f b ++ s → a = b ∧ r = s) {l m : List α}
    (h : l.flatMap f = m.flatMap f) : l = m := by
  induction l generalizing m with
  | nil =>
    cases m with
    | nil => rfl
    | cons b m => simp [hne] at h
  | cons a l ih =>
    cases m with
    | nil => simp [hne] at h
    | cons b m =>
      rw [List.flatMap_cons, List.flatMap_cons] at h
      obtain ⟨rfl, hrest⟩ := hword h
      rw [ih hrest]

/-- Where no element is mapped to nothing, the whole keeps its length only if each is mapped to one. -/
theorem length_flatMap_eq_iff {f : α → List β} (hne : ∀ a, f a ≠ []) {l : List α} :
    (l.flatMap f).length = l.length ↔ ∀ a ∈ l, (f a).length = 1 := by
  have hle (l : List α) : l.length ≤ (l.flatMap f).length := by
    induction l with
    | nil => exact Nat.le_refl 0
    | cons a l ih =>
      have := List.length_pos_iff.2 (hne a)
      rw [List.flatMap_cons, List.length_append, List.length_cons]
      omega
  induction l with
  | nil => simp
  | cons a l ih =>
    have hpos := List.length_pos_iff.2 (hne a)
    have hrest := hle l
    rw [List.forall_mem_cons, List.flatMap_cons, List.length_append, List.length_cons]
    constructor
    · intro h
      exact ⟨by omega, ih.1 (by omega)⟩
    · rintro ⟨hone, hl⟩
      rw [hone, ih.2 hl, Nat.add_comm]

theorem exists_of_flatMap_eq_append_cons {f : α → List β} {l : List α} {k r : List β} {b : β}
    (h : l.flatMap f = k ++ b :: r) :
    ∃ done x rest q t, l = done ++ x :: rest ∧ k = done.flatMap f ++ q ∧ f x = q ++ b :: t := by
  induction l generalizing k with
  | nil => simp at h
  | cons x l ih =>
    rcases append_eq_append_cons h with ⟨t, hx⟩ | ⟨q, rfl, hq⟩
    · exact ⟨[], x, l, k, t, by simp, by simp, hx⟩
    · obtain ⟨done, y, rest, q, t, rfl, rfl, hy⟩ := ih hq
      exact ⟨x :: done, y, rest, q, t, by simp, by simp, hy⟩

/-- Grouping by distinct keys keeps each element that has one of the keys, as often as it is there. -/
theorem flatMap_filter_perm [DecidableEq β] (key : α → β) {ks : List β} (h : ks.Nodup) (l : List α) :
    (ks.flatMap fun k => l.filter fun a => key a = k).Perm (l.filter fun a => key a ∈ ks) := by
  induction ks with
  | nil => simp
  | cons k ks ih =>
    obtain ⟨hk, hks⟩ := List.nodup_cons.1 h
    have hparts := List.filter_append_perm (fun a => decide (key a = k)) (l.filter fun a => key a ∈ k :: ks)
    have hkey : (l.filter fun a => key a ∈ k :: ks).filter (fun a => key a = k) =
        l.filter fun a => key a = k := by
      rw [List.filter_filter]
      refine List.filter_congr fun a _ => ?_
      by_cases ha : key a = k <;> simp [ha]
    have hrest : (l.filter fun a => key a ∈ k :: ks).filter (fun a => !decide (key a = k)) =
        l.filter fun a => key a ∈ ks := by
      rw [List.filter_filter]
      refine List.filter_congr fun a _ => ?_
      by_cases ha : key a = k <;> simp [ha, hk]
    rw [hkey, hrest] at hparts
    exact ((ih hks).append_left _).trans hparts

theorem map_fst_zip_sublist (l : List α) (r : List β) : ((l.zip r).map Prod.fst).Sublist l := by
  induction l generalizing r with
  | nil => simp
  | cons a l ih =>
    cases r with
    | nil => simp
    | cons b r => simpa using ih r

/-- The pairs with one key come from the elements that have it. -/
theorem filter_filterMap_key {γ : Type} [DecidableEq β] (key : α → Option β) (value : α → γ) (l : List α)
    (k : β) : (l.filterMap fun a => (key a).map fun b => (b, value a)).filter (fun e => e.1 = k) =
      (l.filter fun a => key a = some k).map fun a => (k, value a) := by
  induction l with
  | nil => rfl
  | cons a l ih =>
    rcases ha : key a with _ | b
    · simpa [ha] using ih
    · by_cases hb : b = k
      · simpa [ha, hb] using ih
      · simpa [ha, hb] using ih

theorem dropWhile_eq_filter {p : Int → Bool} (hp : ∀ a b, a ≤ b → p a → p b) {l : List Int}
    (h : l.Pairwise (· ≤ ·)) : l.dropWhile (fun t => !p t) = l.filter p := by
  induction l with
  | nil => rfl
  | cons a r ih =>
    obtain ⟨ha, hr⟩ := List.pairwise_cons.1 h
    by_cases hpa : p a
    · have : r.filter p = r := List.filter_eq_self.2 fun b hb => hp a b (ha b hb) hpa
      simp [hpa, this]
    · simp [hpa, ih hr]

/-- Lists with one head that agree on what is kept agree on what is kept behind the head. -/
theorem filter_tail_eq {p : α → Bool} {l r : List α} (hhead : l.head? = r.head?) (h : l.filter p = r.filter p) :
    l.tail.filter p = r.tail.filter p := by
  cases l with
  | nil => rw [List.head?_eq_none_iff.1 hhead.symm]
  | cons a l =>
    obtain ⟨k, rfl⟩ := List.head?_eq_some_iff.1 hhead.symm
    rw [List.filter_cons, List.filter_cons] at h
    split at h
    · exact (List.cons.inj h).2
    · exact h

/-- What is left is all from the first element that is kept. -/
theorem dropWhile_eq_iff {p : α → Bool} {l r : List α} (hr : ∀ a ∈ r.head?, p a = false) :
    l.dropWhile p = r ↔ ∃ k, (∀ a ∈ k, p a) ∧ l = k ++ r := by
  have hself : r.dropWhile p = r := by
    cases r with
    | nil => rfl
    | cons a r => exact List.dropWhile_cons_of_neg (by simp [hr a rfl])
  constructor
  · rintro rfl
    exact ⟨l.takeWhile p, List.all_eq_true.1 List.all_takeWhile, List.takeWhile_append_dropWhile.symm⟩
  · rintro ⟨k, hk, rfl⟩
    rw [List.dropWhile_append_of_pos hk, hself]

section Sorting

variable [LE β] [DecidableLE β] [Std.IsLinearPreorder β] (key : α → β)

theorem key_le_trans (x y z : α) (hxy : decide (key x ≤ key y)) (hyz : decide (key y ≤ key z)) :
    decide (key x ≤ key z) :=
  decide_eq_true (Std.le_trans (of_decide_eq_true hxy) (of_decide_eq_true hyz))

theorem key_le_total (x y : α) : (decide (key x ≤ key y) || decide (key y ≤ key x)) = true := by
  simpa using Std.le_total

theorem pairwise_mergeSort_key (l : List α) :
    (l.mergeSort fun x y => key x ≤ key y).Pairwise fun x y => key x ≤ key y :=
  (List.pairwise_mergeSort (key_le_trans key) (key_le_total key) l).imp of_decide_eq_true

/-- Sorting by a key leaves the elements of one key in their order. -/
theorem filter_mergeSort_key [DecidableEq β] (l : List α) (k : β) :
    (l.mergeSort fun x y => key x ≤ key y).filter (fun x => key x = k) = l.filter fun x => key x = k := by
  have hone : (l.filter fun x => key x = k).Pairwise fun x y => decide (key x ≤ key y) := by
    refine List.pairwise_of_forall_mem_list fun x hx y hy => ?_
    have hx := of_decide_eq_true (List.mem_filter.1 hx).2
    have hy := of_decide_eq_true (List.mem_filter.1 hy).2
    simp [hx, hy, Std.le_refl]
  have hsub := List.sublist_mergeSort (key_le_trans key) (key_le_total key) hone List.filter_sublist
  have hkept := hsub.filter fun x => key x = k
  rw [List.filter_filter, List.filter_congr fun x _ => Bool.and_self _] at hkept
  exact (hkept.eq_of_length ((List.mergeSort_perm l _).filter _).length_eq.symm).symm

/-- A sort by a key puts the keys in order, and elements of one key stand in each relation in which they stood
before. -/
theorem pairwise_mergeSort_key_of_pairwise [DecidableEq β] {R : α → α → Prop} {l : List α} (h : l.Pairwise R) :
    (l.mergeSort fun x y => key x ≤ key y).Pairwise fun x y => key x ≤ key y ∧ (key x = key y → R x y) := by
  refine (pairwise_mergeSort_key key l).and (List.pairwise_iff_forall_sublist.2 fun {x y} hxy hkey => ?_)
  have hpair : [x, y].Sublist (l.filter fun z => key z = key y) := by
    rw [← filter_mergeSort_key key l]
    simpa [hkey] using hxy.filter fun z => key z = key y
  exact List.pairwise_iff_forall_sublist.1 h (hpair.trans List.filter_sublist)

end Sorting

section Repeats

/-- With each element twice in a row a list has the elements that it has twice over. -/
theorem flatMap_pair_perm (l : List α) : (l.flatMap fun a => [a, a]).Perm (l ++ l) := by
  induction l with
  | nil => exact .refl _
  | cons a r ih => exact ((ih.cons a).cons a).trans (List.perm_middle.symm.cons a)

variable [DecidableEq α] [LE α] [Std.Antisymm (α := α) (· ≤ ·)] {f : β → α → β} {l m : List α}

/-- In a sorted list equal elements stand side by side, so a step that does nothing the second time takes each of
them once. -/
theorem foldl_dedup (hf : ∀ s a, f (f s a) a = f s a) (hl : l.Pairwise (· ≤ ·)) (s : β) :
    l.dedup.foldl f s = l.foldl f s := by
  induction l generalizing s with
  | nil => rfl
  | cons a r ih =>
    obtain ⟨ha, hr⟩ := List.pairwise_cons.1 hl
    by_cases hmem : a ∈ r
    · obtain ⟨b, t, rfl⟩ := List.exists_cons_of_ne_nil (List.ne_nil_of_mem hmem)
      obtain rfl : a = b := by
        rcases List.mem_cons.1 hmem with h | h
        · exact h
        · exact Std.Antisymm.antisymm a b (ha b List.mem_cons_self) ((List.pairwise_cons.1 hr).1 a h)
      rw [List.dedup_cons_of_mem hmem, ih hr, List.foldl_cons, List.foldl_cons, List.foldl_cons, hf]
    · rw [List.dedup_cons_of_notMem hmem, List.foldl_cons, List.foldl_cons, ih hr]

/-- Such a step depends on the elements of a sorted list and not on how often each is there. -/
theorem foldl_eq_of_mem_iff (hf : ∀ s a, f (f s a) a = f s a) (hl : l.Pairwise (· ≤ ·))
    (hm : m.Pairwise (· ≤ ·)) (h : ∀ a, a ∈ l ↔ a ∈ m) (s : β) : l.foldl f s = m.foldl f s := by
  have hperm : l.dedup.Perm m.dedup :=
    (List.perm_ext_iff_of_nodup l.nodup_dedup m.nodup_dedup).2 fun a => by simp [h]
  have hsame : l.dedup = m.dedup := hperm.eq_of_pairwise (fun a b _ _ => Std.Antisymm.antisymm a b)
    (hl.sublist l.dedup_sublist) (hm.sublist m.dedup_sublist)
  rw [← foldl_dedup hf hl, hsame, foldl_dedup hf hm]

end Repeats

end Rollcall
