import Rollcall.Config.Layers
import Rollcall.Net.SocketAddress
import Rollcall.Text.Blank
import Rollcall.Time.Span

/-! What all configurations have in common: why one is refused, and how a program logs and is measured. -/

namespace Rollcall

inductive ConfigError where
  /-- There is no file, it is no document, or a setting is missing or cannot be taken for what it is. -/
  | load
  | missing (field : String)
  | invalid (field reason : String)
  | halfUpload
  | noOutput
  deriving DecidableEq

namespace ConfigError

def quoted (s : String) : String := "\x60" ++ s ++ "\x60"

def message : ConfigError → String
  | .load => "Failed to load configuration"
  | .missing f => "Missing required setting " ++ quoted f
  | .invalid f r => "Invalid setting " ++ quoted f ++ ": " ++ r
  | .halfUpload =>
    "Either both or neither of " ++ quoted "output.s3_bucket" ++ " and " ++ quoted "output.s3_key" ++
      " must be set"
  | .noOutput =>
    "No output specified, set at least one of " ++ quoted "output.stdout" ++ ", " ++
      quoted "output.local" ++ " or " ++ quoted "output.s3_key"

end ConfigError

namespace Config

/-- A check that stops at the first fault. -/
abbrev Check := Except ConfigError Unit

def require (field value : String) : Check :=
  if Text.allBlank value then .error (.missing field) else .ok ()

def mustBePositive (field : String) (n : Nat) : Check :=
  if n = 0 then .error (.invalid field "must be positive") else .ok ()

/-- Two settings are both there or both absent. -/
def together {α : Type} (a b : Option α) (field reason : String) : Check :=
  if a.isSome = b.isSome then .ok () else .error (.invalid field reason)

inductive LogLevel where
  | trace | debug | info | warn | error
  deriving DecidableEq

def LogLevel.name : LogLevel → String
  | .trace => "trace"
  | .debug => "debug"
  | .info => "info"
  | .warn => "warn"
  | .error => "error"

def LogLevel.all : List LogLevel := [.trace, .debug, .info, .warn, .error]

inductive LogFormat where
  | plaintext | json
  deriving DecidableEq

def LogFormat.name : LogFormat → String
  | .plaintext => "plaintext"
  | .json => "json"

structure Logging where
  level : LogLevel := .info
  format : LogFormat := .plaintext

def Logging.ofSetting (v : Setting) : Option Logging := do
  let f ← v.fields? ["log_level", "log_format"]
  return {
    level := ← f.withDefault "log_level" .info (Setting.choice? (LogLevel.all.map fun l => (l.name, l)))
    format := ← f.withDefault "log_format" .plaintext
      (Setting.choice? ([.plaintext, .json].map fun l => (LogFormat.name l, l))) }

/-- A socket address as text. -/
def address? (v : Setting) : Option SocketAddress := v.text?.bind SocketAddress.read?

structure MetricsEndpoint where
  enabled : Bool := false
  listen : SocketAddress := .loopback 9000

def MetricsEndpoint.ofSetting (v : Setting) : Option MetricsEndpoint := do
  let f ← v.fields? ["enabled", "listen_addr"]
  return {
    enabled := ← f.withDefault "enabled" false Setting.boolean?
    listen := ← f.withDefault "listen_addr" (.loopback 9000) address? }

end Config

end Rollcall
