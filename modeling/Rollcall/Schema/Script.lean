import Rollcall.Text.Blank
import Rollcall.Text.Split

/-! A script is a list of statements, each ended by a semicolon. Lines that begin with two dashes are
comments, wherever they stand. -/

namespace Rollcall.Script

def isComment (line : List Char) : Bool := Text.startsWith ['-', '-'] (Text.trimStart line)

/-- The text without its comments. -/
def code (s : List Char) : List Char :=
  Text.joinWith ['\n'] ((Text.lines s).filter fun l => !isComment l)

def statements (s : String) : List String :=
  (((Text.splitOn ';' (code s.toList)).map Text.trim).filter (!·.isEmpty)).map String.ofList

end Rollcall.Script
