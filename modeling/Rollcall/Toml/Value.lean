import Rollcall.Number.Binary64

/-! What documents hold. The entries of a table keep the order in which they came into being. -/

namespace Rollcall.Toml

inductive Value where
  | boolean (b : Bool)
  | integer (n : Int)
  | float (x : Binary64)
  | text (s : String)
  /-- A date, a time of day or both, in the form in which it is written. -/
  | moment (s : String)
  | list (l : List Value)
  | table (entries : List (String × Value))

end Rollcall.Toml
