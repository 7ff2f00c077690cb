import Rollcall.Admission.Quota
import Rollcall.Proofs.Ledger

/-! What each operation of the quota does to the attempts of every submitter, and what the attempts that are
kept have to do with the attempts that stand: of those that are gone, none will count again. -/

namespace Rollcall.Quota

variable (q : Quota) (who x : String) (t now : Int)

@[simp] theorem record_limit : (q.record who now).2.limit = q.limit := by
  simp only [record]; split <;> rfl

@[simp] theorem record_window : (q.record who now).2.window = q.window := by
  simp only [record]; split <;> rfl

@[simp] theorem release_limit : (q.release who t).2.limit = q.limit := by
  simp only [release]; repeat' split
  all_goals rfl

@[simp] theorem release_window : (q.release who t).2.window = q.window := by
  simp only [release]; repeat' split
  all_goals rfl

@[simp] theorem prune_limit : (q.prune now).limit = q.limit := rfl

@[simp] theorem prune_window : (q.prune now).window = q.window := rfl

theorem record_fst : (q.record who now).1 = decide ((q.current who now).length < q.limit) := by
  simp only [record]
  split <;> simp_all

theorem of_insert (l : List Int) :
    of { q with attempts := q.attempts.insert who l } x = if x = who then l else q.of x := by
  simp only [of, Ledger.get?_insert]
  split <;> rfl

theorem of_record : (q.record who now).2.of x =
    if x = who then q.current who now ++ (if (q.record who now).1 then [now] else []) else q.of x := by
  simp only [record]
  split <;> simp [of_insert]

theorem of_release : (q.release who t).2.of x =
    if x = who then ((q.of who).reverse.erase t).reverse else q.of x := by
  simp only [release]
  split
  · rename_i h
    have : q.of who = [] := by simp [of, h]
    split
    · rename_i hx; simp [hx, this]
    · rfl
  · rename_i l h
    have hl : q.of who = l := by simp [of, h]
    split
    · rw [of_insert, hl]
    · rename_i hc
      have : t ∉ l.reverse := by simpa using hc
      split
      · rename_i hx; rw [hx, hl, List.erase_of_not_mem this, List.reverse_reverse]
      · rfl

theorem of_prune : (q.prune now).of x =
    if (q.of x).getLast?.any (q.counts now) then q.of x else [] := by
  have hp : (q.prune now).attempts.get? x =
      (q.attempts.get? x).filter fun l => l.getLast?.any (q.counts now) := Ledger.get?_filter ..
  obtain h | ⟨l, h⟩ := Option.eq_none_or_eq_some (q.attempts.get? x)
  · simp [of, hp, h]
  · by_cases hl : l.getLast?.any (q.counts now) <;> simp [of, hp, h, Option.filter, hl]

end Rollcall.Quota
