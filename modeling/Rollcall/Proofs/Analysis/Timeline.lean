import Mathlib.Data.List.Basic
import Mathlib.Data.List.Chain
import Mathlib.Order.Bounds.Basic
import Rollcall.Analysis.Timeline
import Rollcall.Proofs.Time.Instant

/-! The replay of a node's submissions comes to an end exactly if the calendar has the end of every gap that is
looked at. It takes every hit as early as it can, so that no other choice of submissions with the same gaps between
them is longer. The argument is carried out on numbers, where a choice is a sublist and gaps may be zero or
negative. -/

namespace Rollcall.Timeline

section Replay

variable {sync : UInt32} {ts : List Instant} {s : Timeline} {t lastHit : Instant} {n : Nat}

/-- The state after a list of submission times, unless the replay breaks off. -/
def replay? (sync : UInt32) (ts : List Instant) : Option Timeline := ts.foldlM (next? sync) unseen

/-- The state after a list of submission times on which the replay does not break off. -/
def replay (sync : UInt32) (ts : List Instant) : Timeline := (replay? sync ts).getD unseen

theorem replay?_append (sync : UInt32) (ts us : List Instant) :
    replay? sync (ts ++ us) = (replay? sync ts).bind (us.foldlM (next? sync)) :=
  List.foldlM_append

theorem replay?_concat (sync : UInt32) (ts : List Instant) (t : Instant) :
    replay? sync (ts ++ [t]) = (replay? sync ts).bind (next? sync · t) := by
  rw [replay?_append]
  refine congrArg _ (funext fun s => ?_)
  simp

theorem isSome_next?_iff :
    (next? sync s t).isSome ↔ ∀ lastHit n, s = tracking lastHit n → (lastHit.add? (gap sync)).isSome := by
  cases s <;> simp [next?]

/-- The calendar has the end of the gap after each hit that another submission follows. -/
def StaysInCalendar (sync : UInt32) (ts : List Instant) : Prop :=
  ∀ before t, before ++ [t] <+: ts → ∀ lastHit n, replay? sync before = some (tracking lastHit n) →
    (lastHit.add? (gap sync)).isSome

theorem staysInCalendar_concat : StaysInCalendar sync (ts ++ [t]) ↔ StaysInCalendar sync ts ∧
    ∀ lastHit n, replay? sync ts = some (tracking lastHit n) → (lastHit.add? (gap sync)).isSome := by
  constructor
  · exact fun h => ⟨fun before u hu => h before u (hu.trans (List.prefix_append _ _)), h ts t List.prefix_rfl⟩
  · rintro ⟨hts, hlast⟩ before u hu
    rcases List.prefix_concat_iff.1 hu with heq | hpre
    · obtain ⟨rfl, -⟩ := List.append_inj' heq rfl
      exact hlast
    · exact hts before u hpre

theorem isSome_replay?_iff : (replay? sync ts).isSome ↔ StaysInCalendar sync ts := by
  induction ts using List.reverseRecOn with
  | nil => simp [replay?, StaysInCalendar]
  | append_singleton ts t ih =>
    rw [replay?_concat, staysInCalendar_concat, ← ih]
    cases replay? sync ts with
    | none => simp
    | some s => simp [isSome_next?_iff]

theorem StaysInCalendar.replay?_eq (h : StaysInCalendar sync ts) : replay? sync ts = some (replay sync ts) := by
  obtain ⟨s, hs⟩ := Option.isSome_iff_exists.1 (isSome_replay?_iff.2 h)
  rw [replay, hs, Option.getD_some]

theorem mem_of_next?_eq (h : next? sync s t = some (tracking lastHit n)) :
    lastHit = t ∨ ∃ m, s = tracking lastHit m := by
  cases s with
  | unseen =>
    cases h
    exact .inl rfl
  | tracking last m =>
    obtain ⟨due, -, hs⟩ := Option.map_eq_some_iff.1 h
    split at hs
    · cases hs
      exact .inl rfl
    · cases hs
      exact .inr ⟨_, rfl⟩

/-- Hits are submissions. -/
theorem mem_of_replay?_eq (h : replay? sync ts = some (tracking lastHit n)) : lastHit ∈ ts := by
  induction ts using List.reverseRecOn generalizing n with
  | nil => cases h
  | append_singleton ts t ih =>
    rw [replay?_concat] at h
    obtain ⟨s, hs, hnext⟩ := Option.bind_eq_some_iff.1 h
    rcases mem_of_next?_eq hnext with rfl | ⟨m, rfl⟩
    · simp
    · exact List.mem_append_left _ (ih hs)

theorem staysInCalendar_of_forall (h : ∀ t ∈ ts, (t.add? (gap sync)).isSome) : StaysInCalendar sync ts :=
  fun _ _ hu _ _ hreplay =>
    h _ (hu.subset (List.mem_append_left _ (mem_of_replay?_eq hreplay)))

end Replay

section Greedy

variable {g : Int}

/-- The numbers that come more than `g` after the one taken before them, the first one after `last`. -/
def taken (g : Int) : Int → List Int → List Int
  | _, [] => []
  | last, t :: r => if g < t - last then t :: taken g t r else taken g last r

theorem taken_sublist (g last : Int) (ts : List Int) : (taken g last ts).Sublist ts := by
  induction ts generalizing last with
  | nil => exact .slnil
  | cons t r ih =>
    rw [taken]
    split
    · exact (ih t).cons_cons t
    · exact (ih last).cons t

theorem isChain_taken (g last : Int) (ts : List Int) :
    (last :: taken g last ts).IsChain fun a b => g < b - a := by
  induction ts generalizing last with
  | nil => simp [taken]
  | cons t r ih =>
    rw [taken]
    split
    · rename_i h; exact List.isChain_cons_cons.2 ⟨h, ih t⟩
    · exact ih last

/-- Whoever starts no earlier than the replay never gets ahead of it. The first number of another choice
comes no earlier than the first one taken, so taking the latter instead leaves room for the rest. -/
theorem length_le_taken {last prev : Int} {c ts : List Int} (hs : ts.Pairwise (· ≤ ·)) (hc : c.Sublist ts)
    (hl : last ≤ prev) (hg : (prev :: c).IsChain fun a b => g < b - a) :
    c.length ≤ (taken g last ts).length := by
  induction ts generalizing last prev c with
  | nil => simp [List.sublist_nil.1 hc]
  | cons t r ih =>
    obtain ⟨ht, hr⟩ := List.pairwise_cons.1 hs
    cases c with
    | nil => simp
    | cons u d =>
      obtain ⟨hu, hd⟩ := List.isChain_cons_cons.1 hg
      have htu : t ≤ u := by
        rcases List.mem_cons.1 (hc.subset List.mem_cons_self) with rfl | hm
        · exact Int.le_refl u
        · exact ht u hm
      rw [taken]
      split
      · have hdr : d.Sublist r := hc.of_cons_cons
        exact Nat.succ_le_succ (ih hr hdr htu hd)
      · rename_i hlate
        have hcr : (u :: d).Sublist r := by
          rcases List.cons_sublist_cons'.1 hc with h | ⟨rfl, _⟩
          · exact h
          · omega
        exact ih hr hcr hl hg

end Greedy

/-- Each one comes strictly more than the gap after the one before it. -/
def Spaced (sync : UInt32) (c : List Instant) : Prop := c.IsChain fun a b => gap sync < b.sub a

variable {sync : UInt32} {ts c : List Instant}

theorem gap_bounds (hs : sync.toNat ≤ 60) : -3600 * billion ≤ gap sync ∧ gap sync ≤ 3600 * billion := by
  simp only [gap, tolerance, billion]
  omega

theorem staysInCalendar_of_isInner (hs : sync.toNat ≤ 60) (hts : ∀ t ∈ ts, t.IsInner) :
    StaysInCalendar sync ts := by
  refine staysInCalendar_of_forall fun t ht => ?_
  obtain ⟨hlo, hhi⟩ := gap_bounds hs
  obtain ⟨due, hadd, -⟩ := (hts t ht).add?_eq hlo hhi
  exact Option.isSome_of_eq_some hadd

theorem next?_tracking (hs : sync.toNat ≤ 60) {last t : Instant} (hl : last.IsInner) (ht : t.IsInner) (n : Nat) :
    next? sync (tracking last n) t =
      some (if gap sync < t.unixNanos - last.unixNanos then tracking t (n + 1) else tracking last n) := by
  obtain ⟨hlo, hhi⟩ := gap_bounds hs
  obtain ⟨due, hadd, hleap, hnanos⟩ := hl.add?_eq hlo hhi
  have hdue : due < t ↔ gap sync < t.unixNanos - last.unixNanos := by
    rw [Instant.lt_iff_unixNanos hleap ht.isLeap, hnanos]
    omega
  simp only [next?, hadd, Option.map_some, hdue]

theorem spaced_iff (hc : ∀ t ∈ c, t.IsInner) :
    Spaced sync c ↔ (c.map Instant.unixNanos).IsChain fun a b => gap sync < b - a := by
  rw [List.isChain_map, Spaced]
  refine List.IsChain.iff_of_mem_imp fun a b ha hb => ?_
  rw [Instant.sub_eq (hc b hb).isLeap (hc a ha).isLeap]

theorem pairwise_unixNanos (hts : ∀ t ∈ ts, t.IsInner) (h : ts.Pairwise (· ≤ ·)) :
    (ts.map Instant.unixNanos).Pairwise (· ≤ ·) := by
  rw [List.pairwise_map]
  exact h.imp_of_mem fun ha hb => (Instant.le_iff_unixNanos (hts _ ha).isLeap (hts _ hb).isLeap).1

theorem exists_foldlM_eq (hs : sync.toNat ≤ 60) (hts : ∀ t ∈ ts, t.IsInner) {last : Instant} (hl : last.IsInner)
    (n : Nat) : ∃ s, ts.foldlM (next? sync) (tracking last n) = some s ∧
      s.hits = n + (taken (gap sync) last.unixNanos (ts.map Instant.unixNanos)).length := by
  induction ts generalizing last n with
  | nil => exact ⟨_, rfl, rfl⟩
  | cons t r ih =>
    obtain ⟨ht, hr⟩ := List.forall_mem_cons.1 hts
    rw [List.foldlM_cons, next?_tracking hs hl ht, List.map_cons, taken]
    split
    · obtain ⟨s, hfold, hhits⟩ := ih hr ht (n + 1)
      refine ⟨s, hfold, ?_⟩
      rw [hhits, List.length_cons]
      omega
    · exact ih hr hl n

/-- The hits of a replay are the greatest number of submissions that can be picked with the gap between each
and the next. -/
theorem isGreatest_hits_replay (hs : sync.toNat ≤ 60) (hts : ∀ t ∈ ts, t.IsInner)
    (hsorted : ts.Pairwise (· ≤ ·)) :
    IsGreatest {n | ∃ c, c.Sublist ts ∧ Spaced sync c ∧ c.length = n} (replay sync ts).hits := by
  cases ts with
  | nil =>
    refine ⟨⟨[], .slnil, .nil, rfl⟩, ?_⟩
    rintro n ⟨c, hc, _, rfl⟩
    simp [List.sublist_nil.1 hc]
  | cons t r =>
    obtain ⟨ht, hr⟩ := List.forall_mem_cons.1 hts
    obtain ⟨htr, hrr⟩ := List.pairwise_cons.1 hsorted
    have hhits : (replay sync (t :: r)).hits =
        1 + (taken (gap sync) t.unixNanos (r.map Instant.unixNanos)).length := by
      obtain ⟨s, hfold, hhits⟩ := exists_foldlM_eq hs hr ht 1
      have hreplay : replay? sync (t :: r) = some s := hfold
      rw [replay, hreplay, Option.getD_some, hhits]
    rw [hhits]
    constructor
    · -- the submissions that are hits
      obtain ⟨d, hd, htaken⟩ := List.sublist_map_iff.1
        (taken_sublist (gap sync) t.unixNanos (r.map Instant.unixNanos))
      have hdt : ∀ u ∈ t :: d, u.IsInner := fun u hu => hts u ((hd.cons_cons t).subset hu)
      refine ⟨t :: d, hd.cons_cons t, (spaced_iff hdt).2 ?_, ?_⟩
      · rw [List.map_cons, ← htaken]
        exact isChain_taken _ _ _
      · rw [htaken, List.length_map, List.length_cons, Nat.add_comm]
    · rintro n ⟨c, hc, hsp, rfl⟩
      cases c with
      | nil => simp
      | cons u d =>
        have hu : ∀ v ∈ u :: d, v.IsInner := fun v hv => hts v (hc.subset hv)
        have htu : t ≤ u := by
          rcases List.mem_cons.1 (hc.subset List.mem_cons_self) with rfl | hm
          · exact Std.le_refl u
          · exact htr u hm
        have hle := length_le_taken (pairwise_unixNanos hr hrr) (hc.of_cons_cons.map Instant.unixNanos)
          ((Instant.le_iff_unixNanos ht.isLeap (hu u List.mem_cons_self).isLeap).1 htu)
          ((spaced_iff hu).1 hsp)
        rw [List.length_map] at hle
        rw [List.length_cons]
        omega

end Rollcall.Timeline
