import Rollcall.Json.Skip
import Rollcall.Number.Binary64
import Rollcall.Number.Power
import Rollcall.Text.Decimal

/-! Numbers in JSON, told apart as far as their readers need: a natural number of sixty-four bits, a
negative whole one, and all the rest. A number too large for a double is no number. -/

namespace Rollcall.Json

inductive Number where
  | natural (n : Nat)
  | negative
  | real
  deriving DecidableEq

/-- The digits at the front, and what follows them. -/
def digitRun (s : Input) : List Char × Input :=
  ((s.takeWhile isDigit).map fun c => Char.ofNat c.toNat, s.dropWhile isDigit)

theorem digitRun_rest_le (s : Input) : (digitRun s).2.length ≤ s.length :=
  (List.dropWhile_sublist _).length_le

/-- What sixty-four bits hold of the digits, and how many digits are left. -/
def heldDigits (n : Nat) : List Char → Nat × Nat
  | [] => (n, 0)
  | d :: r =>
    let k := 10 * n + Decimal.digitValue d
    if k < twoTo 64 then heldDigits k r else (n, r.length + 1)

/-- Beyond this exponent there is no power of ten among the doubles. -/
def greatestPower : Int := 308

/-- Whether the number with these digits before and behind the point is too large for a double, if it is
made of what sixty-four bits hold of its digits by one product of doubles. -/
def isTooLarge (whole part : List Char) (exponent : Int) : Bool :=
  let (n, more) := heldDigits 0 whole
  let (m, rest) := heldDigits n part
  let e : Int := exponent + more - (part.length - rest : Nat)
  if m = 0 ∨ e < 0 then false
  else if greatestPower < e then true
  else (Binary64.ofNat m).times (.ofNat (tenTo e.toNat)) = .infinite false

namespace Reader

def digits : Reader (List Char) where
  run s := .ok (digitRun s)
  rest_le s a r h := by
    have := digitRun_rest_le s
    grind

/-- At least one digit. -/
def someDigits : Reader (List Char) := do
  match ← digits with
  | [] => match ← peek with
    | none => fail .truncated
    | some _ => fail .malformed
  | d => pure d

/-- The exponent, 0 without one. -/
def exponent : Reader (Option Int) := do
  match ← peek with
  | some c =>
    if c = 101 ∨ c = 69 then
      drop
      let negative ← match ← peek with
        | some s => if s = 43 ∨ s = 45 then do drop; pure (s == 45) else pure false
        | none => pure false
      let d ← someDigits
      let n : Int := Decimal.value d
      pure (some (if negative then -n else n))
    else pure none
  | none => pure none

/-- The part of a number behind its sign. -/
def unsigned (negative : Bool) : Reader Number := do
  let whole ← someDigits
  if 1 < whole.length ∧ whole.head? = some '0' then fail .malformed
  let fraction ← match ← peek with
    | some c => if c = 46 then do drop; some <$> someDigits else pure none
    | none => pure none
  let e ← exponent
  let part := fraction.getD []
  let m := Decimal.value (whole ++ part)
  if fraction.isNone ∧ e.isNone ∧ m < twoTo 64 then
    if !negative then pure (.natural m)
    else if 0 < m ∧ m ≤ twoTo 63 then pure .negative
    else pure .real
  else if isTooLarge whole part (e.getD 0) then fail .malformed
  else pure .real

/-- A number, whose first byte is known to be a digit or the minus. -/
def number : Reader Number := do
  match ← peek with
  | some c => if c = 45 then do drop; unsigned true else unsigned false
  | none => fail .truncated

end Reader

end Rollcall.Json
