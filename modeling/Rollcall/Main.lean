import Rollcall.Command.Run

/-! The program. The files that a command may look at are loaded into a tree, the command runs on the tree,
and what it printed and wrote there becomes real. -/

namespace Rollcall.Main

/-- The variables that are text. -/
def environment : IO (List (String × String)) := do
  let entries ← IO.FS.readBinFile "/proc/self/environ"
  let text := (String.fromUTF8? entries).getD ""
  return (Text.splitOn '\x00' text.toList).filterMap fun e =>
    (Text.splitFirst? '=' e).map fun (k, v) => (String.ofList k, String.ofList v)

/-- The time at which a file that is made now is stamped. -/
def clock : IO Instant :=
  IO.FS.withTempFile fun _ path => do
    let t := (← path.metadata).modified
    return (Instant.ofUnix? t.sec t.nsec.toNat).getD .epoch

/-- Loads what stands at a path, and if it is a directory, what is below it to that depth. -/
def load (cwd : Location) : Nat → String → FileTree → IO FileTree
  | depth, path, t => do
    let place := (← IO.currentDir).join path
    if ← place.isDir then
      let t := (t.makeDirectories cwd path).2
      match depth with
      | 0 => return t
      | depth + 1 =>
        (← place.readDir).foldlM (fun t e => load cwd depth (path ++ "/" ++ e.fileName) t) t
    else if ← place.pathExists then
      return (t.writeFile cwd path (← IO.FS.readBinFile place)).2
    else return t

/-- Loads a file with the directory that it stands in or would stand in. -/
def loadFile (cwd : Location) (path : String) (t : FileTree) : IO FileTree := do
  load cwd 0 path (← load cwd 0 (FileTree.parentText path) t)

/-- Loads what the command may look at. -/
def loadFor (cwd : Location) (environment : List (String × String)) (c : Command) (t : FileTree) :
    IO FileTree := do
  let t ← loadFile cwd c.config t
  let t ← (FileTree.withConfigExtension c.config).elim (pure t) (loadFile cwd · t)
  match c with
  | .serve _ | .migrate .. => return t
  | .analyze config =>
    match AnalyzerConfig.load (t.configFile? cwd config) environment with
    | .error _ => return t
    | .ok c =>
      let t ← match c.source with
        | .directory path => load cwd FileTree.longestPath path t
        | .bucket _ => pure t
      c.output.path.elim (pure t) (loadFile cwd · t)

end Rollcall.Main

open Rollcall

def main (arguments : List String) : IO UInt32 := do
  let here := (← IO.currentDir).toString
  let cwd := (FileTree.parts here).filter (!FileTree.isHere ·)
  let environment ← Main.environment
  let t := (({} : FileTree).makeDirectories [] here).2
  let t ← match Command.read arguments with
    | .command c => Main.loadFor cwd environment c t
    | _ => pure t
  let o := Command.execute arguments t cwd environment (← Main.clock)
  IO.print o.stdout
  for path in o.written do
    if let some data := o.tree.fileAt? cwd path then IO.FS.writeBinFile path data
  if let some problem := o.problem then IO.eprintln ("Error: " ++ problem)
  return o.code
