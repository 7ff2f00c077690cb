import Rollcall.Config.Service
import Rollcall.Number.Power
import Rollcall.Time.Rfc3339

/-! The configuration of an analysis: where submissions are read from, which period is looked at, and where the
report goes. -/

namespace Rollcall

namespace Config

inductive SourceAccess where
  | bucket (b : BucketAccess)
  | directory (path : String)

namespace SourceAccess

def fieldNames (kind : String) : Option (List String) :=
  [("s3", BucketAccess.fieldNames), ("local", ["path"])].lookup kind

def ofSetting (v : Setting) : Option SourceAccess := do
  let (kind, f) ← v.tagged? "kind" fieldNames
  if kind = "s3" then (BucketAccess.ofFields f).map .bucket
  else (f.required "path" Setting.exactText?).map .directory

def check : SourceAccess → Check
  | .bucket b => b.checkNames "source"
  | .directory path => if path = "" then throw (.missing "source.path") else pure ()

end SourceAccess

/-- The period as far as it is given. -/
structure PeriodBounds where
  start : Option Instant := none
  stop : Option Instant := none
  minutes : Option Int := none

namespace PeriodBounds

def instant? (v : Setting) : Option Instant := v.text?.bind fun s => (Time.readRfc3339? s.toList)

def ofSetting (v : Setting) : Option PeriodBounds := do
  let f ← v.fields? ["start", "end", "interval_minutes"]
  return {
    start := ← f.optional "start" instant?
    stop := ← f.optional "end" instant?
    minutes := ← f.optional "interval_minutes" Setting.integer? }

/-- The least length in minutes. -/
def leastMinutes : Int := 60

def check (p : PeriodBounds) : Check := do
  match p.minutes with
  | some m =>
    if m < leastMinutes then
      throw (.invalid "period.interval_minutes"
        ("must be at least one hour, got " ++ Decimal.int m ++ " minutes"))
  | none => pure ()
  match p.start, p.stop with
  | some a, some b =>
    if b.sub a < leastMinutes * (60 * billion) then
      throw (.invalid "period.end" "must be at least one hour after period.start")
  | _, _ => pure ()

end PeriodBounds

structure ReportOutput where
  stdout : Bool := false
  path : Option String := none
  bucket : Option String := none
  key : Option String := none
  region : Option String := none

namespace ReportOutput

def ofSetting (v : Setting) : Option ReportOutput := do
  let f ← v.fields? ["stdout", "local", "s3_bucket", "s3_key", "s3_region"]
  return {
    stdout := ← f.withDefault "stdout" false Setting.boolean?
    path := ← f.optional "local" Setting.text?
    bucket := ← f.optional "s3_bucket" Setting.text?
    key := ← f.optional "s3_key" Setting.text?
    region := ← f.optional "s3_region" Setting.text? }

/-- A name that is there and not empty. -/
def given (s : Option String) : Option String := s.filter (· ≠ "")

/-- Bucket and key of the upload. -/
def upload? (o : ReportOutput) : Option (String × String) := do
  return (← given o.bucket, ← given o.key)

def check (o : ReportOutput) : Check :=
  if (given o.bucket).isSome ≠ (given o.key).isSome then throw .halfUpload
  else if !o.stdout && o.path.isNone && (given o.key).isNone then throw .noOutput
  else pure ()

end ReportOutput

end Config

structure AnalyzerConfig where
  networkName : String
  logging : Config.Logging := {}
  source : Config.SourceAccess
  period : Config.PeriodBounds := {}
  ignoreIps : Bool := false
  /-- Minutes between two expected submissions. -/
  syncMinutes : Nat := 15
  output : Config.ReportOutput := {}

namespace AnalyzerConfig

open Config

def ofSetting (v : Setting) : Option AnalyzerConfig := do
  let f ← v.fields? []
  return {
    networkName := ← f.required "network_name" Setting.text?
    logging := ← f.withDefault "logging" {} Logging.ofSetting
    source := ← f.required "source" SourceAccess.ofSetting
    period := ← f.withDefault "period" {} PeriodBounds.ofSetting
    ignoreIps := ← f.withDefault "ignore_ips" false Setting.boolean?
    syncMinutes := ← f.withDefault "sync_period_minutes" 15 (Setting.natural? (twoTo 32 - 1))
    output := ← f.withDefault "output" {} ReportOutput.ofSetting }

def check (c : AnalyzerConfig) : Check := do
  require "network_name" c.networkName
  if c.syncMinutes = 0 ∨ 60 < c.syncMinutes then
    throw (.invalid "sync_period_minutes" ("must be between 1 and 60, got " ++ Decimal.nat c.syncMinutes))
  c.source.check
  c.period.check
  c.output.check

/-- The region of the upload, as far as one is known. -/
def uploadRegion? (c : AnalyzerConfig) : Option String :=
  c.output.region <|> match c.source with
    | .bucket b => some b.region
    | .directory _ => none

def load (file : Option ByteArray) (environment : List (String × String)) :
    Except ConfigError AnalyzerConfig := do
  match (Setting.load? file environment).bind ofSetting with
  | none => throw .load
  | some c =>
    c.check
    return c

end AnalyzerConfig

end Rollcall
