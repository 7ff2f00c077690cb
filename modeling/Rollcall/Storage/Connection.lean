import Rollcall.Config.Service
import Rollcall.Storage.Error

/-! What is settled about a connection to a store before the first byte is sent: how it is encrypted. -/

namespace Rollcall

/-- How far a relational store is asked to encrypt and to prove who it is. -/
inductive SslMode where
  | disable | allow | prefer | require | verifyCa | verifyFull
  deriving DecidableEq

namespace SslMode

def name : SslMode → String
  | .disable => "disable"
  | .allow => "allow"
  | .prefer => "prefer"
  | .require => "require"
  | .verifyCa => "verify-ca"
  | .verifyFull => "verify-full"

def all : List SslMode := [.disable, .allow, .prefer, .require, .verifyCa, .verifyFull]

/-- The mode of that name in any case. -/
def ofName (s : String) : Except StorageError SslMode :=
  match all.find? fun m => m.name.toList = Text.lower s.toList with
  | some m => .ok m
  | none => .error (.connect "postgres")

end SslMode

namespace Config.KeyspaceAccess

/-- Whether the connection is encrypted. A certificate that is given has to be one that loads. -/
def tls (k : KeyspaceAccess) (loads : String → Bool) : Except StorageError Bool :=
  match k.certificatePath with
  | none => .ok k.usesTls
  | some p => if loads p then .ok true else .error (.connect "keyspaces")

end Config.KeyspaceAccess

end Rollcall
