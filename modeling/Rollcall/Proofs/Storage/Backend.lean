import Rollcall.Storage.Backend
import Rollcall.Proofs.Storage.Bucket
import Rollcall.Proofs.Storage.Folder

/-! What the places that keep artifacts as they come hold, and what a save leaves there. Databases keep what
they make of a batch, not its artifacts. -/

namespace Rollcall.Backend

/-- The artifact is stored under this path: the names below the root, or what the key has behind the
prefix. -/
def Holds : Backend → String → ByteArray → Prop
  | .folder f, p, d => f.Holds p d
  | .bucket b, p, d => Bucket.Holds b.keyPrefix b.store p d
  | .keyspace _ _, _, _ | .relational _, _, _ => False

instance (x : Backend) (p : String) (d : ByteArray) : Decidable (x.Holds p d) :=
  match x with
  | .folder f => inferInstanceAs (Decidable (f.Holds p d))
  | .bucket b => inferInstanceAs (Decidable (Bucket.Holds b.keyPrefix b.store p d))
  | .keyspace _ _ | .relational _ => inferInstanceAs (Decidable False)

/-- The path under which an artifact of the first path is stored. -/
def Leads : Backend → String → String → Prop
  | .folder _, q, p => Folder.Leads q p
  | .bucket b, q, p => Bucket.Leads b.keyPrefix q p
  | .keyspace _ _, _, _ | .relational _, _, _ => False

/-- The artifacts that a save of the batch stores before it ends or fails. -/
def stored : Backend → Batch → List Artifact
  | .folder f, b => filed (fun e f => Folder.store f e.1 e.2) b.entries f
  | .bucket o, b => filed (Bucket.putOne o.keyPrefix) b.entries o.store
  | .keyspace _ _, _ | .relational _, _ => []

/-- What a save leaves under a path: the last artifact that it stored there, or else what was there. -/
theorem holds_save (x : Backend) (b : Batch) (p : String) (d : ByteArray) :
    (x.save b).2.Holds p d ↔
      LastFiled x.Leads (x.stored b) p d ∨ x.Holds p d ∧ ∀ e ∈ x.stored b, ¬x.Leads e.1 p := by
  cases x with
  | folder f =>
    have := Folder.shelf.holds_fileEach b.entries f p d
    rwa [← Folder.storeAll_eq] at this
  | bucket o =>
    have := (Bucket.shelf o.keyPrefix).holds_fileEach b.entries o.store p d
    rwa [← Bucket.putAll_eq] at this
  | keyspace k db => simp [save, Holds, stored]
  | relational db => simp [save, Holds, stored]

end Rollcall.Backend
