import Rollcall.Number.DecimalText
import Rollcall.Number.Power
import Rollcall.Text.Split

/-! The values that settings have before it is known what they are for, and what they can be taken for. Outside of
tagged tables they are converted: numbers and truth values to text, words and numbers to truth values,
text to numbers. Inside of them a value is taken for what it is. -/

namespace Rollcall

inductive Setting where
  /-- What stands at a place of a list where nothing was put. -/
  | nothing
  | boolean (b : Bool)
  | integer (n : Int)
  | float (x : Binary64)
  | text (s : String)
  | list (l : List Setting)
  | table (entries : List (String × Setting))

namespace Setting

/-- Letters of ASCII in lower case. The sign for kelvin is the one other character that becomes a letter
of ASCII, and all names and words are written in these. -/
def lowered (s : String) : String :=
  String.ofList (Text.lower (s.toList.map fun c => if c = '\u212a' then 'k' else c))

/-- The words for true and false. -/
def word? (s : String) : Option Bool :=
  if ["true", "on", "yes"].contains (lowered s) then some true
  else if ["false", "off", "no"].contains (lowered s) then some false
  else none

def isZero : Binary64 → Bool
  | .finite _ m _ => m = 0
  | _ => false

def boolean? : Setting → Option Bool
  | .boolean b => some b
  | .integer n => some (n ≠ 0)
  | .float x => some (!isZero x)
  | .text s =>
    if s = "1" then some true else if s = "0" then some false else word? s
  | .nothing | .list _ | .table _ => none

/-- The nearest whole number between two bounds. -/
def rounded (lo hi : Int) : Binary64 → Int
  | .nan _ => 0
  | .infinite negative => if negative then lo else hi
  | .finite negative m e =>
    let n : Int := Binary64.roundAway m e
    max lo (min hi (if negative then -n else n))

def leastSigned : Int := -twoTo 63
def greatestSigned : Int := twoTo 63 - 1
def greatestUnsigned : Int := twoTo 64 - 1

def digit (b : Bool) : Int := if b then 1 else 0

/-- A signed number of sixty-four bits. -/
def integer? : Setting → Option Int
  | .boolean b => some (digit b)
  | .integer n => some n
  | .float x => some (rounded leastSigned greatestSigned x)
  | .text s => match word? s with
    | some b => some (digit b)
    | none => Decimal.signed? s.toList
  | .nothing | .list _ | .table _ => none

/-- Digits with an optional plus sign. -/
def unsigned? (s : List Char) : Option Int :=
  match s with
  | '+' :: r => (Decimal.nat? r).map Int.ofNat
  | r => (Decimal.nat? r).map Int.ofNat

/-- A number from zero up to a bound within sixty-four bits. -/
def natural? (greatest : Int) (v : Setting) : Option Nat := do
  let n ← match v with
    | .boolean b => some (digit b)
    | .integer n => some n
    | .float x => some (rounded 0 greatestUnsigned x)
    | .text s => match word? s with
      | some b => some (digit b)
      | none => unsigned? s.toList
    | .nothing | .list _ | .table _ => none
  if 0 ≤ n ∧ n ≤ greatest then some n.toNat else none

def text? : Setting → Option String
  | .boolean b => some (if b then "true" else "false")
  | .integer n => some (Decimal.int n)
  | .float x => some x.writeShortest
  | .text s => some s
  | .nothing | .list _ | .table _ => none

/-- A value that is text. -/
def exactText? : Setting → Option String
  | .text s => some s
  | _ => none

def exactBoolean? : Setting → Option Bool
  | .boolean b => some b
  | _ => none

def exactNatural? (greatest : Int) : Setting → Option Nat
  | .integer n => if 0 ≤ n ∧ n ≤ greatest then some n.toNat else none
  | _ => none

/-- One of several names in any case, or a table whose only key is one. -/
def choice? {α : Type} (options : List (String × α)) (v : Setting) : Option α := do
  let s ← match v with
    | .text s => some s
    | .table [(k, _)] => some k
    | _ => none
  options.lookup (lowered s)

/-- What stands under a name, in a table or in a list with a place for each name. -/
abbrev Fields := String → Option Setting

def fields? (names : List String) : Setting → Option Fields
  | .table es => some fun n => es.lookup n
  | .list l => some fun n => (names.zip l).lookup n
  | _ => none

/-- A table with a tag, or a list that begins with one and has no more places than there are names. -/
def tagged? (tag : String) (names : String → Option (List String)) : Setting → Option (String × Fields)
  | .table es => do
    let t ← (← es.lookup tag).exactText?
    let _ ← names t
    some (t, fun n => es.lookup n)
  | .list (t :: l) => do
    let t ← t.exactText?
    let ns ← names t
    if ns.length < l.length then none else some (t, fun n => (ns.zip l).lookup n)
  | _ => none

namespace Fields

variable {α : Type}

def required (f : Fields) (name : String) (read : Setting → Option α) : Option α :=
  (f name).bind read

/-- What the setting says, or the default if it is not there. -/
def withDefault (f : Fields) (name : String) (default : α) (read : Setting → Option α) : Option α :=
  match f name with
  | none => some default
  | some v => read v

def optional (f : Fields) (name : String) (read : Setting → Option α) : Option (Option α) :=
  match f name with
  | none | some .nothing => some none
  | some v => (read v).map some

end Fields

end Setting

end Rollcall
