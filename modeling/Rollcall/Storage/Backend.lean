import Rollcall.Storage.Folder
import Rollcall.Storage.ObjectStore
import Rollcall.Storage.Tables

/-! The places where a service can keep what it accepts. Saving a batch changes the place, also when it
fails half way. -/

namespace Rollcall

inductive Backend where
  | folder (f : Folder)
  | bucket (b : Bucket)
  | keyspace (k : Keyspace) (db : Database)
  | relational (db : Database)

namespace Backend

def name : Backend → String
  | .folder _ => "filesystem"
  | .bucket _ => "object_store"
  | .keyspace _ _ => "keyspaces"
  | .relational _ => "postgres"

def save (b : Batch) : Backend → Except StorageError SaveReport × Backend
  | .folder f => let (r, f) := f.save b; (r, .folder f)
  | .bucket o => let (r, o) := o.save b; (r, .bucket o)
  | .keyspace k db => let (r, db) := (k.save b).runIn db; (r, .keyspace k db)
  | .relational db => let (r, db) := (Relational.save b).runIn db; (r, .relational db)

end Backend

end Rollcall
