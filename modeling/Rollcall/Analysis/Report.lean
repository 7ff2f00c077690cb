import Rollcall.Analysis.Uptime
import Rollcall.Storage.ObjectStore
import Rollcall.Time.Field
import Rollcall.Time.Span

/-! The report on a period as text: three lines on the period, a heading, and a line for each node. Where
addresses are ignored they are left out of the lines. -/

namespace Rollcall

structure Report where
  period : Period
  ignoreIps : Bool
  rows : List Uptime

namespace Report

/-- An interval, or nothing for a negative one. -/
def writeInterval (d : Int) : String := if d < 0 then "" else Span.write d.toNat

def line (cells : List String) : String := "; ".intercalate cells

/-- The lines above the rows. -/
def header (r : Report) : List String :=
  let ending := if r.ignoreIps then "" else ";"
  [line ["Period start", String.ofList (Time.writeStamp r.period.start)] ++ ending,
    line ["Period end", String.ofList (Time.writeStamp r.period.stop)] ++ ending,
    line ["Interval", writeInterval r.period.interval] ++ ending,
    line (if r.ignoreIps then ["public key", "uptime (%)"]
      else ["public key", "public ip", "uptime (%)"])]

def cells (r : Report) (u : Uptime) : List String :=
  if r.ignoreIps then [u.identity.publicKey, u.text]
  else [u.identity.publicKey, u.identity.publicIp, u.text]

def lines (r : Report) : List String := r.header ++ r.rows.map fun u => line (r.cells u)

def text (r : Report) : String := String.join (r.lines.map (· ++ "\n"))

def fileName (r : Report) : String :=
  "summary_" ++ String.ofList r.period.start.writeLocal ++ "-" ++
    String.ofList r.period.stop.writeLocal ++ ".csv"

/-- The key of the report below another one. -/
def key (r : Report) (above : String) : String :=
  Key.ofPath (String.ofList (above.toList.reverse.dropWhile (· = '/')).reverse ++ "/" ++ r.fileName)

/-- Puts the report into a store, in one attempt. -/
def upload (r : Report) (above : String) : Act ObjectStore AnalysisError String := do
  (ObjectStore.put (r.key above) r.text.toUTF8).mapError fun _ => .objectStore
  return r.key above

end Report

end Rollcall
