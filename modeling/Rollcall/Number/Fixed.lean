import Rollcall.Number.Binary64
import Rollcall.Number.Power
import Rollcall.Text.Decimal

/-! Floating-point numbers written with a fixed count of decimal places. The exact value is rounded, and a
value halfway between two texts goes to the one with the even last digit. -/

namespace Rollcall.Binary64

def sign (negative : Bool) : String := if negative then "-" else ""

def writeFixed (places : Nat) : Binary64 → String
  | .nan _ => "NaN"
  | .infinite s => sign s ++ "inf"
  | .finite s m e =>
    let n := scaleEven (m * tenTo places) 1 e
    sign s ++ String.ofList (Decimal.digits (n / tenTo places) ++
      '.' :: Decimal.padded places (n % tenTo places))

end Rollcall.Binary64
