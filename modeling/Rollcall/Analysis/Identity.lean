import Rollcall.Digest
import Rollcall.Submission.Basic
import Rollcall.Text.Hex

/-! What counts as one node. Nodes are told apart by public key, address and control port, or by key
and port alone when addresses are ignored; the digest of these is the node's identifier. -/

namespace Rollcall

structure Identity where
  /-- The digest of the identity's text in hexadecimal digits. -/
  id : String
  publicKey : String
  publicIp : String
  port : Option UInt16
  deriving DecidableEq

namespace Identity

/-- The text of which the digest is taken. -/
def text (publicKey publicIp : String) (port : Option UInt16) : String :=
  publicKey ++ "-" ++ publicIp ++ port.elim "" fun p => "-" ++ Decimal.nat p.toNat

def digest (s : String) : String := Hex.encode (Digest.sha3 s.toUTF8.data.toList)

def new (publicKey publicIp : String) (port : Option UInt16) : Identity :=
  ⟨digest (text publicKey publicIp port), publicKey, publicIp, port⟩

/-- The address that tells nodes apart. -/
def address (ignoreIps : Bool) (s : Submission) : String := if ignoreIps then "" else s.remoteAddr

/-- The port that tells nodes apart. A port of zero stands for none, and is kept beside an address. -/
def port? (ignoreIps : Bool) (s : Submission) : Option UInt16 :=
  let p := s.controlPort.getD 0
  if ignoreIps && p = 0 then none else some p

def of (ignoreIps : Bool) (s : Submission) : Identity :=
  new s.submitter (address ignoreIps s) (port? ignoreIps s)

end Identity

end Rollcall
