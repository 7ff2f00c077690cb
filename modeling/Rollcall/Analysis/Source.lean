import Rollcall.Analysis.Report
import Rollcall.FileTree
import Rollcall.Storage.ObjectStore
import Rollcall.Submission.Body

/-! Where the submissions of a period are read back from: an object store, in which their paths may stand
below a prefix. Only the days that the period touches are listed. What does not read as a submission is
passed over. -/

namespace Rollcall

structure Source where
  store : ObjectStore
  /-- What all keys begin with; empty if they begin with nothing. -/
  keyPrefix : String := ""
  /-- Whether a listing below a key works. -/
  listable : String → Bool := fun _ => true
  /-- Whether an object can be read. -/
  readable : String → Bool := fun _ => true

namespace Source

def dayKey (s : Source) (day : Int) : String :=
  Key.under s.keyPrefix (submissionsPrefix ++ String.ofList (Date.ofDay day).write)

/-- The artifact's path, as the key has it behind the prefix. -/
def artifactPath (s : Source) (key : String) : String :=
  if s.keyPrefix = "" then key
  else if Text.startsWith s.keyPrefix.toList key.toList then
    String.ofList ((key.toList.drop s.keyPrefix.toList.length).dropWhile (· = '/'))
  else key

/-- The path below the key gives a time in the period. -/
def isWithin (s : Source) (p : Period) (key : String) : Bool :=
  match SubmissionPath.read (s.artifactPath key) with
  | .ok q => p.contains q.submittedAt
  | .error _ => false

/-- The submissions that are stored under a day and were made in the period. -/
def ofDay (s : Source) (p : Period) (day : Int) : Except AnalysisError (List Submission) :=
  let k := s.dayKey day
  if !s.listable k then .error .objectStore
  else
    let found := (s.store.below k).filter fun e => s.isWithin p e.1
    if found.all fun e => s.readable e.1 then
      .ok (found.filterMap fun e => (Submission.read e.2 (s.artifactPath e.1)).toOption)
    else .error .objectStore

/-- By time, and by submitter at one time. -/
def comesFirst (a b : Submission) : Bool :=
  a.submittedAt < b.submittedAt || (a.submittedAt = b.submittedAt && a.submitter ≤ b.submitter)

/-- All submissions of the period in order. -/
def submissions (s : Source) (p : Period) : Except AnalysisError (List Submission) := do
  let l ← p.days.mapM (s.ofDay p)
  return l.flatten.mergeSort comesFirst

/-- A name that a store gives to files that it is still writing. -/
def isPending (name : String) : Bool :=
  match Text.splitFirst? '#' name.toList with
  | some (_, r) => !r.isEmpty && r.all Char.isDigit
  | none => false

def isControl (c : Char) : Bool := c.toNat < 32 || c.toNat = 127

/-- The files below a directory as objects. -/
def filesBelow (t : FileTree) (l : Location) : ObjectStore where
  objects := .ofList ((t.below l).filterMap fun (k, n) => match n, k.getLast? with
    | .file d, some name => if isPending name then none else some ("/".intercalate k, d)
    | _, _ => none)

/-- A directory is reached through directories only, and a listing has no name with control
characters. -/
def isListable (t : FileTree) (l : Location) (key : String) : Bool :=
  let ks := FileTree.parts key
  (List.range ks.length).all (fun n => match t.node? (l ++ ks.take n) with
    | some (.file _) => false
    | _ => true) &&
  (t.below (l ++ ks)).all fun (k, _) => !k.any fun p => p.toList.any isControl

/-- The directory of a path as a source. A file can be opened like one, but not listed. -/
def ofDirectory (t : FileTree) (cwd : Location) (path : String) : Except AnalysisError Source :=
  match t.directory? cwd path with
  | some l => .ok { store := filesBelow t l, listable := isListable t l }
  | none =>
    if (t.fileAt? cwd path).isSome then .ok { store := {}, listable := fun _ => false }
    else .error .objectStore

end Source

namespace Analysis

/-- The report on the submissions of a source. The expected count is found before anything is read. -/
def report (a : Analysis) (s : Source) : Except AnalysisError Report := do
  let _ ← expectedCount a.sync a.period
  return ⟨a.period, a.ignoreIps, ← a.rows (← s.submissions a.period)⟩

end Analysis

end Rollcall
