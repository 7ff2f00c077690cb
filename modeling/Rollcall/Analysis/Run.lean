import Rollcall.Analysis.Source
import Rollcall.Config.Analyzer

/-! An analysis as it is configured: from the files that it reads to the places where its report is
published. No bucket can be reached from here. -/

namespace Rollcall

namespace AnalyzerConfig

/-- The source that the configuration names. -/
def openSource (c : AnalyzerConfig) (t : FileTree) (cwd : Location) : Except AnalysisError Source :=
  match c.source with
  | .directory path => Source.ofDirectory t cwd path
  | .bucket _ => .ok { store := {}, keyPrefix := c.networkName, listable := fun _ => false }

def report (c : AnalyzerConfig) (t : FileTree) (cwd : Location) (now : Instant) :
    Except AnalysisError Report := do
  match Period.resolve c.period.start c.period.stop c.period.minutes now with
  | .error e => throw (.period e)
  | .ok p => Analysis.report ⟨p, c.syncMinutes.toUInt32, c.ignoreIps⟩ (← c.openSource t cwd)

end AnalyzerConfig

/-- What publishing a report leaves behind. -/
structure Publication where
  stdout : String
  tree : FileTree
  outcome : Except AnalysisError Unit

namespace Report

/-- Publishes the report to standard output, to a file and to a bucket, as far as each is asked for and the
one before it worked. -/
def publish (r : Report) (o : Config.ReportOutput) (t : FileTree) (cwd : Location) : Publication :=
  let stdout := if o.stdout then r.text else ""
  let (written, t) := match o.path with
    | some p => t.writeFile cwd p r.text.toUTF8
    | none => (true, t)
  ⟨stdout, t, if !written then .error .io
    else if o.upload?.isSome then .error .objectStore
    else .ok ()⟩

end Report

end Rollcall
