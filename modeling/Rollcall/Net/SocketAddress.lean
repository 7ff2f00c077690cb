import Rollcall.Number.Power
import Rollcall.Text.Decimal
import Rollcall.Text.Hex
import Rollcall.Text.Split

/-! Socket addresses: an address of four bytes or of eight groups of sixteen bits, and a port. Names are no
addresses, and bytes have no leading zeros. The written form of eight groups leaves out the longest run of
zeros. -/

namespace Rollcall

inductive SocketAddress where
  | v4 (bytes : List Nat) (port : Nat)
  | v6 (groups : List Nat) (scope : Nat) (port : Nat)
  deriving DecidableEq

namespace SocketAddress

/-- The loopback address with a port. -/
def loopback (port : Nat) : SocketAddress := .v4 [127, 0, 0, 1] port

/-- All addresses of the host with a port. -/
def anywhere (port : Nat) : SocketAddress := .v4 [0, 0, 0, 0] port

/-- Decimal digits for a number below a bound. -/
def number? (bound : Nat) (s : List Char) : Option Nat := do
  let n ← Decimal.nat? s
  if n < bound then some n else none

def byte? (s : List Char) : Option Nat :=
  if 1 < s.length ∧ s.head? = some '0' then none else number? 256 s

def bytes? (s : List Char) : Option (List Nat) := do
  let l ← (Text.splitOn '.' s).mapM byte?
  if l.length = 4 then some l else none

/-- One to four hexadecimal digits. -/
def group? (s : List Char) : Option Nat :=
  if s = [] ∨ 4 < s.length then none else Hex.value? s

/-- Groups with colons between them. The last two may be written as four bytes where that is allowed. -/
def groups? (bytesAllowed : Bool) : List (List Char) → Option (List Nat)
  | [] => some []
  | [g] =>
    if g.contains '.' then
      match bytes? g with
      | some [a, b, c, d] => if bytesAllowed then some [256 * a + b, 256 * c + d] else none
      | _ => none
    else (group? g).map ([·])
  | g :: r => do return (← group? g) :: (← groups? bytesAllowed r)

def groupsOfText? (bytesAllowed : Bool) (s : List Char) : Option (List Nat) :=
  if s = [] then some [] else groups? bytesAllowed (Text.splitOn ':' s)

/-- The texts around the first double colon. -/
def splitDouble? : List Char → Option (List Char × List Char)
  | ':' :: ':' :: r => some ([], r)
  | c :: r => (splitDouble? r).map fun (a, b) => (c :: a, b)
  | [] => none

/-- Eight groups; a double colon stands for one or more that are zero. -/
def address? (s : List Char) : Option (List Nat) :=
  match splitDouble? s with
  | none => do
    let l ← groupsOfText? true s
    if l.length = 8 then some l else none
  | some (a, b) => do
    let head ← groupsOfText? false a
    let tail ← groupsOfText? true b
    if head.length + tail.length < 8 then
      some (head ++ List.replicate (8 - (head.length + tail.length)) 0 ++ tail)
    else none

/-- An address with an optional scope behind a percent sign. -/
def scoped? (s : List Char) : Option (List Nat × Nat) :=
  match Text.splitFirst? '%' s with
  | none => (address? s).map (·, 0)
  | some (a, n) => do return (← address? a, ← number? (twoTo 32) n)

def read? (s : String) : Option SocketAddress :=
  match s.toList with
  | '[' :: r => do
    let (inner, rest) ← Text.splitFirst? ']' r
    let (groups, scope) ← scoped? inner
    match rest with
    | ':' :: p => do return .v6 groups scope (← number? 65536 p)
    | _ => none
  | r => do
    let (a, p) ← Text.splitFirst? ':' r
    return .v4 (← bytes? a) (← number? 65536 p)

def writeBytes (l : List Nat) : List Char := Text.joinWith ['.'] (l.map Decimal.digits)

def writeGroups (l : List Nat) : List Char := Text.joinWith [':'] (l.map (Nat.toDigits 16))

/-- The number of zeros at the start. -/
def zeros (l : List Nat) : Nat := (l.takeWhile (· = 0)).length

/-- Start and length of the longest run of zeros, the first one of several. -/
def longestZeros (l : List Nat) : Nat × Nat :=
  (List.range l.length).foldl (fun best i =>
    let n := zeros (l.drop i)
    if best.2 < n then (i, n) else best) (0, 0)

def writeAddress (l : List Nat) : List Char :=
  match l with
  | [0, 0, 0, 0, 0, 0xffff, a, b] =>
    "::ffff:".toList ++ writeBytes [a / 256, a % 256, b / 256, b % 256]
  | _ =>
    let (i, n) := longestZeros l
    if 1 < n then writeGroups (l.take i) ++ ':' :: ':' :: writeGroups (l.drop (i + n))
    else writeGroups l

def write : SocketAddress → String
  | .v4 l p => String.ofList (writeBytes l ++ ':' :: Decimal.digits p)
  | .v6 l s p =>
    String.ofList ('[' :: writeAddress l ++ (if s = 0 then [] else '%' :: Decimal.digits s) ++
      ']' :: ':' :: Decimal.digits p)

end SocketAddress

end Rollcall
