import Rollcall.Analysis.Uptime
import Rollcall.Proofs.Analysis.Timeline
import Rollcall.Proofs.Ledger

/-! One pass over the signs of all nodes is a replay for each node of its own signs. After any part of the signs the
roll has the nodes in the order of their first signs, and each as the replay of its own signs leaves it; the pass
breaks off as soon as one of the replays does. -/

namespace Rollcall.Roll

variable {sync : UInt32} {r r' : Roll} {i : Identity} {t : Instant} {es done : List (Identity × Instant)}

/-- The entries with no other of the same identifier before them. -/
def firstOfEach : List Identity → List Identity
  | [] => []
  | i :: r => i :: (firstOfEach r).filter fun j => j.id ≠ i.id

/-- The times at which the node of that identifier gave a sign. -/
def timesOf (id : String) (es : List (Identity × Instant)) : List Instant :=
  (es.filter fun e => e.1.id = id).map (·.2)

section Nodes

theorem firstOfEach_concat (is : List Identity) (i : Identity) : firstOfEach (is ++ [i]) =
    if ∃ j ∈ is, j.id = i.id then firstOfEach is else firstOfEach is ++ [i] := by
  induction is with
  | nil => simp [firstOfEach]
  | cons k r ih =>
    rw [List.cons_append, firstOfEach, ih, firstOfEach]
    by_cases hk : k.id = i.id
    · have hfilter : (firstOfEach (r ++ [i])).filter (fun j => j.id ≠ k.id) =
          (firstOfEach r).filter fun j => j.id ≠ k.id := by
        rw [ih]
        split
        · rfl
        · simp [hk]
      rw [← ih, hfilter, if_pos ⟨k, List.mem_cons_self, hk⟩]
    · by_cases hr : ∃ j ∈ r, j.id = i.id
      · rw [if_pos hr, if_pos (hr.imp fun j hj => ⟨List.mem_cons_of_mem _ hj.1, hj.2⟩)]
      · have hnone : ¬∃ j ∈ k :: r, j.id = i.id := by simpa [hk] using hr
        rw [if_neg hr, if_neg hnone, List.filter_append]
        simp [Ne.symm hk]

theorem exists_mem_firstOfEach {is : List Identity} (h : i ∈ is) : ∃ j ∈ firstOfEach is, j.id = i.id := by
  induction is with
  | nil => simp at h
  | cons k r ih =>
    by_cases hk : k.id = i.id
    · exact ⟨k, by simp [firstOfEach], hk⟩
    · have hi : i ∈ r := by
        rcases List.mem_cons.1 h with rfl | hm
        · contradiction
        · exact hm
      obtain ⟨j, hj, hji⟩ := ih hi
      refine ⟨j, ?_, hji⟩
      rw [firstOfEach, List.mem_cons, List.mem_filter]
      exact .inr ⟨hj, by simpa [hji] using Ne.symm hk⟩

theorem mem_of_mem_firstOfEach {is : List Identity} (h : i ∈ firstOfEach is) : i ∈ is := by
  induction is with
  | nil => simp [firstOfEach] at h
  | cons k r ih =>
    rw [firstOfEach, List.mem_cons, List.mem_filter] at h
    rcases h with rfl | h
    · exact List.mem_cons_self
    · exact List.mem_cons_of_mem _ (ih h.1)

theorem nodup_firstOfEach (is : List Identity) : ((firstOfEach is).map (·.id)).Nodup := by
  induction is with
  | nil => exact List.nodup_nil
  | cons i r ih =>
    rw [firstOfEach, List.map_cons, List.nodup_cons]
    refine ⟨fun hmem => ?_, ih.sublist (List.filter_sublist.map _)⟩
    obtain ⟨j, hj, hid⟩ := List.mem_map.1 hmem
    exact of_decide_eq_true (List.mem_filter.1 hj).2 hid

theorem timesOf_concat (id : String) (es : List (Identity × Instant)) (i : Identity) (t : Instant) :
    timesOf id (es ++ [(i, t)]) = if i.id = id then timesOf id es ++ [t] else timesOf id es := by
  by_cases h : i.id = id <;> simp [timesOf, h]

end Nodes

/-- The roll is what a pass over the signs has made of them. -/
structure Tells (sync : UInt32) (r : Roll) (es : List (Identity × Instant)) : Prop where
  order : r.order = firstOfEach (es.map (·.1))
  timeline (id : String) : Timeline.replay? sync (timesOf id es) = some (r.timeline id)
  contains (id : String) : r.timelines.contains id ↔ ∃ e ∈ es, e.1.id = id

theorem tells_nil (sync : UInt32) : Tells sync {} [] where
  order := rfl
  timeline _ := rfl
  contains id := by simp [Ledger.contains]

/-- One more sign changes the timeline of its node and leaves the others, or the replay of that node breaks off. -/
theorem Tells.record (h : Tells sync r es) (i : Identity) (t : Instant) :
    (∃ r', r.record sync i t = .ok r' ∧ Tells sync r' (es ++ [(i, t)])) ∨
      (r.record sync i t = .error .overflow ∧ Timeline.replay? sync (timesOf i.id (es ++ [(i, t)])) = none) := by
  have hreplay : Timeline.replay? sync (timesOf i.id (es ++ [(i, t)])) = (r.timeline i.id).next? sync t := by
    rw [timesOf_concat, if_pos rfl, Timeline.replay?_concat, h.timeline i.id, Option.bind_some]
  rw [Roll.record]
  cases hnext : (r.timeline i.id).next? sync t with
  | none => exact .inr ⟨rfl, hreplay.trans hnext⟩
  | some s =>
    refine .inl ⟨_, rfl, ?_, fun id => ?_, fun id => ?_⟩
    · have hknown : r.timelines.contains i.id ↔ ∃ j ∈ es.map (·.1), j.id = i.id := by
        simpa using h.contains i.id
      rw [h.order, List.map_append, List.map_singleton, firstOfEach_concat]
      simp only [hknown]
    · rw [Roll.timeline, Ledger.get?_insert]
      by_cases hid : id = i.id
      · rw [if_pos hid, hid, hreplay, hnext, Option.getD_some]
      · rw [if_neg hid, timesOf_concat, if_neg (Ne.symm hid)]
        exact h.timeline id
    · rw [Ledger.contains, Ledger.get?_insert]
      by_cases hid : id = i.id
      · simp [hid]
      · rw [if_neg hid, ← Ledger.contains, h.contains id]
        simp [Ne.symm hid]

/-- A pass over signs. -/
def pass (sync : UInt32) (es : List (Identity × Instant)) (r : Roll) : Except AnalysisError Roll :=
  es.foldlM (fun r e => r.record sync e.1 e.2) r

theorem pass_cons_of_ok {e : Identity × Instant} (h : r.record sync e.1 e.2 = .ok r') :
    pass sync (e :: es) r = pass sync es r' := by
  rw [pass, List.foldlM_cons, h]
  rfl

theorem pass_cons_of_error {e : Identity × Instant} {f : AnalysisError} (h : r.record sync e.1 e.2 = .error f) :
    pass sync (e :: es) r = .error f := by
  rw [pass, List.foldlM_cons, h]
  rfl

/-- A replay that has broken off stays so, whatever else the node signs. -/
theorem replay?_timesOf_append {id : String} (h : Timeline.replay? sync (timesOf id done) = none) :
    Timeline.replay? sync (timesOf id (done ++ es)) = none := by
  rw [timesOf] at h
  rw [timesOf, List.filter_append, List.map_append, Timeline.replay?_append, h, Option.bind_none]

theorem Tells.pass (h : Tells sync r done) (es : List (Identity × Instant)) :
    (∃ r', pass sync es r = .ok r' ∧ Tells sync r' (done ++ es)) ∨
      (pass sync es r = .error .overflow ∧ ∃ id, Timeline.replay? sync (timesOf id (done ++ es)) = none) := by
  induction es generalizing r done with
  | nil =>
    rw [List.append_nil]
    exact .inl ⟨r, rfl, h⟩
  | cons e es ih =>
    rw [List.append_cons]
    rcases h.record e.1 e.2 with ⟨r', hrecord, htells⟩ | ⟨hrecord, hnone⟩
    · rw [pass_cons_of_ok hrecord]
      exact ih htells
    · exact .inr ⟨pass_cons_of_error hrecord, e.1.id, replay?_timesOf_append hnone⟩

/-- The pass comes to its end exactly if all replays do, and then the roll tells of all signs. -/
theorem pass_spec (sync : UInt32) (es : List (Identity × Instant)) :
    (∃ r, pass sync es {} = .ok r ∧ Tells sync r es ∧ ∀ id, Timeline.StaysInCalendar sync (timesOf id es)) ∨
      (pass sync es {} = .error .overflow ∧ ∃ id, ¬Timeline.StaysInCalendar sync (timesOf id es)) := by
  rcases (tells_nil sync).pass es with ⟨r, hpass, htells⟩ | ⟨hpass, id, hnone⟩
  · exact .inl ⟨r, hpass, htells,
      fun id => Timeline.isSome_replay?_iff.1 (Option.isSome_of_eq_some (htells.timeline id))⟩
  · refine .inr ⟨hpass, id, fun hstays => ?_⟩
    rw [List.nil_append, hstays.replay?_eq] at hnone
    cases hnone

end Rollcall.Roll
