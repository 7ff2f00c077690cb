import Rollcall.Storage.ObjectStore
import Rollcall.Submission.Basic
import Rollcall.Proofs.Ledger
import Rollcall.Proofs.Retry
import Rollcall.Proofs.Storage.Filing
import Rollcall.Proofs.Storage.Key

/-! What a bucket holds. An artifact is an object under the key of its path behind the prefix, and a put that
is tried in vain leaves all objects as they are. -/

namespace Rollcall

namespace ObjectStore

theorem ensures_put (key : String) (data : ByteArray) (o : Ledger String ByteArray) :
    (put key data).Ensures (·.objects = o) (fun _ s => s.objects = o.insert key data)
      fun _ s => s.objects = o := by
  rintro s rfl
  by_cases hw : s.outcome s.puts.length
  · simp [put, hw]
  · simp [put, hw]

theorem ensures_retry_put (b : Budget) (key : String) (data : ByteArray) (o : Ledger String ByteArray) :
    (b.retry (put key data)).Ensures (·.objects = o) (fun _ s => s.objects = o.insert key data)
      fun e s => e.attempts = 1 + (b.maxAttempts - 1) ∧ s.objects = o :=
  b.ensures_retry (ensures_put key data o) fun _ _ h => h

end ObjectStore

namespace Bucket

/-- The key whose part behind the prefix is `p`. -/
def keyBehind (pre p : String) : String :=
  if Key.parts pre = [] then p else Key.ofPath pre ++ "/" ++ p

@[simp] theorem keyBehind_empty (p : String) : keyBehind "" p = p := rfl

theorem exists_keyBehind_eq (pre : String) : ∃ c, ∀ p, keyBehind pre p = c ++ p := by
  by_cases h : Key.parts pre = []
  · exact ⟨"", fun p => by simp [keyBehind, h]⟩
  · exact ⟨Key.ofPath pre ++ "/", fun p => by simp [keyBehind, h]⟩

/-- What stands below what is the same behind any prefix. -/
theorem isBelow_keyBehind (pre : String) {a : String} (ha : a ≠ "") (b : String) :
    Key.isBelow (keyBehind pre a) (keyBehind pre b) = Key.isBelow a b := by
  obtain ⟨c, hc⟩ := exists_keyBehind_eq pre
  have hca : c ++ a ≠ "" := fun h => ha (String.append_eq_empty_iff.1 h).2
  rw [hc, hc, Key.isBelow, Key.isBelow, if_neg ha, if_neg hca]
  rw [Bool.eq_iff_iff, Text.startsWith, Text.startsWith, List.isPrefixOf_iff_prefix,
    List.isPrefixOf_iff_prefix, String.append_assoc]
  simp only [String.toList_append, List.prefix_append_right_inj]

/-- The key of a path that names anything is the path's own key behind that of the prefix. -/
theorem under_eq_keyBehind (pre : String) {path : String} (h : Key.parts path ≠ []) :
    Key.under pre path = keyBehind pre (Key.ofPath path) := by
  by_cases hpre : pre = ""
  · rw [Key.under, if_pos hpre, hpre, keyBehind_empty]
  · rw [Key.under, if_neg hpre, Key.ofPath, Key.parts_append]
    by_cases hparts : Key.parts pre = []
    · rw [keyBehind, if_pos hparts, hparts, List.nil_append, Key.ofPath]
    · rw [keyBehind, if_neg hparts, Text.joinWith_append hparts h, Key.ofPath, Key.ofPath,
        String.ofList_append, String.ofList_append]

/-- A path leads to what its key has behind the prefix. -/
def Leads (pre q p : String) : Prop := Key.under pre q = keyBehind pre p

def Holds (pre : String) (s : ObjectStore) (p : String) (d : ByteArray) : Prop :=
  s.objects.get? (keyBehind pre p) = some d

instance (pre : String) (s : ObjectStore) (p : String) (d : ByteArray) : Decidable (Holds pre s p d) :=
  inferInstanceAs (Decidable (s.objects.get? (keyBehind pre p) = some d))

def putOne (pre : String) (e : Artifact) : Act ObjectStore StorageError Unit :=
  (Budget.storage.retry (ObjectStore.put (Key.under pre e.1) e.2)).mapError fun x =>
    .objectStore x.attempts

theorem ensures_putOne (pre : String) (e : Artifact) (o : Ledger String ByteArray) :
    (putOne pre e).Ensures (·.objects = o) (fun _ s => s.objects = o.insert (Key.under pre e.1) e.2)
      fun _ s => s.objects = o :=
  .mapError ((ObjectStore.ensures_retry_put .storage _ _ o).mono (fun _ => id) (fun _ _ => id)
    fun _ _ h => h.2)

/-- What a bucket shelves where, whichever keys are looked at. -/
theorem shelf_at (pre : String) (keyOf : String → String) :
    Shelf (putOne pre) (fun s p d => s.objects.get? (keyOf p) = some d)
      (fun q p => Key.under pre q = keyOf p) where
  ok := by
    intro e s t h p d
    have ht : t.objects = s.objects.insert (Key.under pre e.1) e.2 :=
      (ensures_putOne pre e s.objects).of_ok rfl h
    rw [ht, Ledger.get?_insert]
    by_cases hk : Key.under pre e.1 = keyOf p
    · simp [hk]
    · simp [hk, Ne.symm hk]
  error := by
    intro e s t x h p d
    have ht : t.objects = s.objects := (ensures_putOne pre e s.objects).of_error rfl h
    rw [ht]

theorem shelf (pre : String) : Shelf (putOne pre) (Holds pre) (Leads pre) := shelf_at pre (keyBehind pre)

/-- The paths with the same names in them share a place. -/
theorem shelf_places (pre : String) :
    Shelf (putOne pre) (fun s p d => s.objects.get? (Key.under pre p) = some d)
      (fun q p => Key.segments q = Key.segments p) := by
  simpa only [Key.under_inj] using shelf_at pre (Key.under pre)

theorem putAll_eq (pre : String) (l : List Artifact) (s : ObjectStore) :
    putAll (Key.under pre) l s = fileEach (putOne pre) l s := by
  induction l generalizing s with
  | nil => rfl
  | cons e r ih =>
    rcases hx : putOne pre e s with ⟨x | _, t⟩
    · rw [fileEach, hx]
      exact Act.bind_of_error hx
    · rw [fileEach, hx]
      exact (Act.bind_of_ok hx).trans (ih t)

theorem save_of_fileEach {b : Bucket} {batch : Batch} {r : Except StorageError Unit} {t : ObjectStore}
    (h : fileEach (putOne b.keyPrefix) batch.entries b.store = (r, t)) : b.save batch = (r.map fun _ =>
      { written := batch.entries.length
        oversizedBlocks := (batch.entries.filter b.isOversized).length }, { b with store := t }) := by
  have hall : putAll b.key batch.entries b.store = (r, t) := (putAll_eq _ _ _).trans h
  rw [save, hall]

end Bucket

end Rollcall
