import Rollcall.Ledger
import Rollcall.Text.Split

/-! A tree of directories and files, and what becomes of it when programs create directories and write
files by path. A path is followed part by part from the root or from a directory at hand; it needs a
directory at every part but the last. There are no links. -/

namespace Rollcall

inductive Node where
  | directory
  | file (data : ByteArray)

/-- The names that lead from the root of the tree to a place in it. -/
abbrev Location := List String

/-- Everything below the root, which is a directory itself. -/
structure FileTree where
  nodes : Ledger Location Node := .empty

namespace FileTree

/-- The longest name and the longest path that a system takes, in bytes. -/
def longestName : Nat := 255

def longestPath : Nat := 4095

def node? (t : FileTree) (l : Location) : Option Node :=
  if l = [] then some .directory else t.nodes.get? l

def isDirectory (t : FileTree) (l : Location) : Bool :=
  t.node? l matches some .directory

def put (t : FileTree) (l : Location) (n : Node) : FileTree := ⟨t.nodes.insert l n⟩

def parts (path : String) : List String := (Text.splitOn '/' path.toList).map String.ofList

/-- A part that stays where it is. -/
def isHere (p : String) : Bool := p = "" || p = "."

/-- Where a path starts. -/
def start (cwd : Location) (path : String) : Location :=
  if path.toList.head? = some '/' then [] else cwd

/-- The text is a path that the system takes at all. -/
def isPath (path : String) : Bool :=
  path ≠ "" && !path.toList.contains '\x00' && path.utf8ByteSize ≤ longestPath

def isName (p : String) : Bool := !isHere p && p ≠ ".." && p.utf8ByteSize ≤ longestName

/-- The directory to which the parts lead. -/
def walk (t : FileTree) : Location → List String → Option Location
  | l, [] => some l
  | l, p :: r =>
    if isHere p then walk t l r
    else if p = ".." then walk t l.dropLast r
    else if isName p && t.isDirectory (l ++ [p]) then walk t (l ++ [p]) r
    else none

/-- Creates the directories that are missing, from the first one on, and says whether all are there in
the end. -/
def makeEach (t : FileTree) : Location → List String → Bool × FileTree
  | _, [] => (true, t)
  | l, p :: r =>
    if isHere p then makeEach t l r
    else if p = ".." then makeEach t l.dropLast r
    else if !isName p then (false, t)
    else match t.node? (l ++ [p]) with
      | some .directory => makeEach t (l ++ [p]) r
      | some (.file _) => (false, t)
      | none => makeEach (t.put (l ++ [p]) .directory) (l ++ [p]) r

def makeDirectories (t : FileTree) (cwd : Location) (path : String) : Bool × FileTree :=
  if path = "" then (true, t)
  else if !isPath path then (false, t)
  else t.makeEach (start cwd path) (parts path)

/-- Where the file of that path stands or would stand. -/
def target? (t : FileTree) (cwd : Location) (path : String) : Option Location :=
  if !isPath path then none
  else match (parts path).getLast? with
    | none => none
    | some name =>
      if isName name then (t.walk (start cwd path) (parts path).dropLast).map (· ++ [name]) else none

def writeFile (t : FileTree) (cwd : Location) (path : String) (data : ByteArray) : Bool × FileTree :=
  match t.target? cwd path with
  | none => (false, t)
  | some l => if t.isDirectory l then (false, t) else (true, t.put l (.file data))

def fileAt? (t : FileTree) (cwd : Location) (path : String) : Option ByteArray :=
  match (t.target? cwd path).bind t.node? with
  | some (.file d) => some d
  | _ => none

/-- The directory of that path. -/
def directory? (t : FileTree) (cwd : Location) (path : String) : Option Location :=
  if isPath path then t.walk (start cwd path) (parts path) else none

/-- What stands in a directory, by name. -/
def children (t : FileTree) (d : Location) : List (String × Node) :=
  t.nodes.entries.filterMap fun (l, n) => match l.getLast? with
    | some name => if l = d ++ [name] then some (name, n) else none
    | none => none

/-- Everything below a directory, by the names that lead there from it. -/
def below (t : FileTree) (d : Location) : List (Location × Node) :=
  t.nodes.entries.filterMap fun (l, n) =>
    if d.isPrefixOf l ∧ l ≠ d then some (l.drop d.length, n) else none

/-- A path without its last part, as text. -/
def parentText (path : String) : String :=
  let names := (parts path).reverse.dropWhile isHere
  "/".intercalate (names.tail.dropWhile isHere).reverse

/-- A path without the parts at either end that stay where they are. -/
def trimmed (path : String) : String :=
  "/".intercalate (((parts path).dropWhile isHere).reverse.dropWhile isHere).reverse

end FileTree

end Rollcall
