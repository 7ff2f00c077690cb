import Rollcall.Storage.Key
import Rollcall.Storage.Error

/-! Artifacts as objects, each under the key of its path. Putting an object may fail and is tried again;
the sequence of outcomes is given from outside. -/

namespace Rollcall

/-- One attempt to put an object. -/
structure Put where
  time : Nat
  key : String
  works : Bool

structure ObjectStore where
  objects : Ledger String ByteArray := .empty
  /-- Whether each put in turn works. -/
  outcome : Nat → Bool := fun _ => true
  now : Nat := 0
  /-- The puts so far, the last one first. -/
  puts : List Put := []

namespace ObjectStore

instance : Clocked ObjectStore := ⟨fun d s => { s with now := s.now + d }⟩

/-- A put that fails has no effect. -/
def put (key : String) (data : ByteArray) : Act ObjectStore Unit Unit := fun s =>
  let works := s.outcome s.puts.length
  let s := { s with puts := ⟨s.now, key, works⟩ :: s.puts }
  if works then (.ok (), { s with objects := s.objects.insert key data }) else (.error (), s)

/-- What stands below a key, in the order of the keys. -/
def below (s : ObjectStore) (key : String) : List (String × ByteArray) :=
  s.objects.entries.filter fun e => Key.isBelow key e.1

end ObjectStore

structure Bucket where
  /-- What the keys of all artifacts begin with. -/
  keyPrefix : String
  maxBlockSize : Nat
  store : ObjectStore

namespace Bucket

def key (b : Bucket) (path : String) : String := Key.under b.keyPrefix path

def isOversized (b : Bucket) (e : String × ByteArray) : Bool :=
  Text.startsWith blocksPrefix.toList e.1.toList && b.maxBlockSize < e.2.size

/-- Puts the artifacts in their order, up to the first that cannot be put. -/
def putAll (keyOf : String → String) : List (String × ByteArray) → Act ObjectStore StorageError Unit
  | [] => pure ()
  | (path, data) :: r => do
    (Budget.storage.retry (ObjectStore.put (keyOf path) data)).mapError fun e =>
      .objectStore e.attempts
    putAll keyOf r

def save (b : Bucket) (batch : Batch) : Except StorageError SaveReport × Bucket :=
  let (r, s) := putAll b.key batch.entries b.store
  (r.map fun _ =>
    { written := batch.entries.length,
      oversizedBlocks := (batch.entries.filter b.isOversized).length },
    { b with store := s })

end Bucket

end Rollcall
