import Rollcall.Submission.Basic
import Rollcall.Text.Split

/-! Where artifacts are filed. A submission stands under its day, and its file is named for its time
and its submitter; a block is named for its hash. Reading a path undoes writing it for every submitter
without a dash and a slash. -/

namespace Rollcall

def submissionsPrefix : String := "submissions/"

def blocksPrefix : String := "blocks/"

/-- What the path of a submission says. -/
structure SubmissionPath where
  date : String
  submittedAt : Instant
  submitter : String
  deriving DecidableEq

namespace SubmissionPath

/-- The third part of the path holds time and submitter, parted by its last dash. What follows it does
not matter, and neither does the first part. -/
def read (path : String) : Except ArtifactError SubmissionPath :=
  match Text.splitOn '/' path.toList with
  | _ :: date :: file :: _ =>
    let name := (Text.dropSuffix? ".json".toList file).getD file
    match Text.splitLast? '-' name with
    | none => .error (.invalidPath path)
    | some (time, submitter) =>
      match Time.readStamp time with
      | .error f => .error (.timestamp (String.ofList time) f)
      | .ok t => .ok ⟨String.ofList date, t, String.ofList submitter⟩
  | _ => .error (.invalidPath path)

def write (submittedAt : Instant) (submitter : String) : String :=
  submissionsPrefix ++ String.ofList submittedAt.date.write ++ "/" ++
    String.ofList (Time.writeStamp submittedAt) ++ "-" ++ submitter ++ ".json"

end SubmissionPath

/-- A block as it is filed. -/
structure Block where
  hash : String
  raw : ByteArray
  deriving DecidableEq

namespace Block

def path (hash : String) : String := blocksPrefix ++ hash ++ ".dat"

/-- The last part of a path that names something; a part that is only a dot names nothing, unless the
path begins with it. -/
def lastName? (path : List Char) : Option (List Char) :=
  match Text.splitOn '/' path with
  | [] => none
  | first :: r =>
    let named := r.filter fun p => p ≠ [] ∧ p ≠ ['.']
    (if first = [] then named else first :: named).getLast?

/-- A file name up to its last dot. A dot in front starts a name and ends none. -/
def stem (name : List Char) : List Char :=
  match Text.splitLast? '.' name with
  | some ([], _) | none => name
  | some (s, _) => s

/-- The hash is the stem of the file name, empty if the path ends in none. -/
def read (data : ByteArray) (path : String) : Block :=
  match lastName? path.toList with
  | none => ⟨"", data⟩
  | some n => if n = ['.'] ∨ n = ['.', '.'] then ⟨"", data⟩ else ⟨String.ofList (stem n), data⟩

end Block

end Rollcall
