import Rollcall.FileTree
import Rollcall.Storage.Error

/-! Artifacts as files below a root directory, each at its own path. A path that could lead out of the
root is refused before anything is written for it. -/

namespace Rollcall

structure Folder where
  root : String
  /-- The directory from which a relative root is followed. -/
  cwd : Location := []
  tree : FileTree

namespace Folder

/-- A path joined to a directory. -/
def join (root path : String) : String :=
  if root = "" ∨ root.toList.getLast? = some '/' then root ++ path else root ++ "/" ++ path

/-- The path stays below the directory from which it is followed. -/
def staysInside (path : String) : Bool :=
  path ≠ "" && path.toList.head? ≠ some '/' && !(FileTree.parts path).contains ".."

def resolve (root path : String) : Except StorageError String :=
  if staysInside path then .ok (join root path) else .error (.outsideRoot path)

/-- Writes one artifact with the directories that it needs. -/
def store (f : Folder) (path : String) (data : ByteArray) : Except StorageError Unit × Folder :=
  match resolve f.root path with
  | .error e => (.error e, f)
  | .ok target =>
    let (made, t) := f.tree.makeDirectories f.cwd (FileTree.parentText target)
    if !made then (.error (.io target), { f with tree := t })
    else
      let (written, t) := t.writeFile f.cwd target data
      (if written then .ok () else .error (.io target), { f with tree := t })

/-- Stores the artifacts in their order, up to the first that cannot be stored. -/
def storeAll (f : Folder) : List (String × ByteArray) → Except StorageError Unit × Folder
  | [] => (.ok (), f)
  | (path, data) :: r =>
    match f.store path data with
    | (.error e, f) => (.error e, f)
    | (.ok (), f) => f.storeAll r

def save (f : Folder) (b : Batch) : Except StorageError SaveReport × Folder :=
  let (r, f) := f.storeAll b.entries
  (r.map fun _ => { written := b.entries.length }, f)

end Folder

end Rollcall
