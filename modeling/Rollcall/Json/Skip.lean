import Rollcall.Json.Reader

/-! Passing over a value without keeping it. A machine walks the bytes with a stack of the brackets that
are open; it checks the shape of the value but neither the encoding of its texts nor the size of its
numbers, and nesting may go as deep as it likes. -/

namespace Rollcall.Json

inductive Bracket where
  | array | object
  deriving DecidableEq

def Bracket.closing : Bracket → UInt8
  | .array => 93
  | .object => 125

/-- Where in a value the machine stands. -/
inductive Spot where
  /-- Before a value, before a key, before the colon after a key. -/
  | value | key | colon
  /-- Behind an opening bracket, behind a member or an element. -/
  | opened | after
  /-- Inside a word, before these letters. -/
  | word (rest : List UInt8)
  /-- Inside a text, which is a key or not; behind a backslash; inside its hexadecimal digits. -/
  | text (isKey : Bool) | escape (isKey : Bool) | hex (isKey bad : Bool) (left : Nat)
  /-- Behind the minus, a leading zero, a leading digit, the point, a digit after the point. -/
  | minus | zero | whole | point | fraction
  /-- Behind the mark of the exponent, its sign, one of its digits. -/
  | mark | markSign | exponent

/-- What a byte does to the machine. -/
inductive Move where
  | go (s : Spot) (open_ : List Bracket)
  /-- The value ends with this byte. -/
  | stop
  /-- The value ended before this byte. -/
  | stopBefore
  | fault (f : Fault)

def isDigit (c : UInt8) : Bool := 48 ≤ c && c ≤ 57

/-- Behind a whole value inside the open brackets. -/
def Move.ended : List Bracket → Move
  | [] => .stop
  | b => .go .after b

/-- The byte behind a whole value. -/
def Move.following (c : UInt8) : List Bracket → Move
  | [] => .stopBefore
  | b :: r =>
    if Reader.isBlank c then .go .after (b :: r)
    else if c = 44 then .go (if b = .array then .value else .key) (b :: r)
    else if c = b.closing then .ended r
    else .fault .malformed

/-- The first byte of a value. -/
def Move.begin (c : UInt8) (o : List Bracket) : Move :=
  if c = 110 then .go (.word [117, 108, 108]) o
  else if c = 116 then .go (.word [114, 117, 101]) o
  else if c = 102 then .go (.word [97, 108, 115, 101]) o
  else if c = 45 then .go .minus o
  else if c = 48 then .go .zero o
  else if isDigit c then .go .whole o
  else if c = 34 then .go (.text false) o
  else if c = 91 then .go .opened (.array :: o)
  else if c = 123 then .go .opened (.object :: o)
  else .fault .malformed

def Move.beginKey (c : UInt8) (o : List Bracket) : Move :=
  if c = 34 then .go (.text true) o else .fault .malformed

def Spot.step (c : UInt8) (o : List Bracket) : Spot → Move
  | .value => if Reader.isBlank c then .go .value o else .begin c o
  | .key => if Reader.isBlank c then .go .key o else .beginKey c o
  | .colon =>
    if Reader.isBlank c then .go .colon o
    else if c = 58 then .go .value o else .fault .malformed
  | .opened =>
    match o with
    | [] => .fault .malformed
    | b :: r =>
      if Reader.isBlank c then .go .opened o
      else if c = b.closing then .ended r
      else if b = .array then .begin c o else .beginKey c o
  | .after => .following c o
  | .word [] => .fault .malformed
  | .word (x :: r) =>
    if c ≠ x then .fault .malformed
    else if r.isEmpty then .ended o else .go (.word r) o
  | .text isKey =>
    if c = 34 then (if isKey then .go .colon o else .ended o)
    else if c = 92 then .go (.escape isKey) o
    else if c < 32 then .fault .malformed
    else .go (.text isKey) o
  | .escape isKey =>
    if c = 117 then .go (.hex isKey false 4) o
    else if [34, 92, 47, 98, 102, 110, 114, 116].contains c then .go (.text isKey) o
    else .fault .malformed
  | .hex isKey bad left =>
    let bad := bad || !(isDigit c || (65 ≤ c && c ≤ 70) || (97 ≤ c && c ≤ 102))
    if 1 < left then .go (.hex isKey bad (left - 1)) o
    else if bad then .fault .malformed else .go (.text isKey) o
  | .minus => if c = 48 then .go .zero o else if isDigit c then .go .whole o else .fault .malformed
  | .zero =>
    if isDigit c then .fault .malformed
    else if c = 46 then .go .point o
    else if c = 101 ∨ c = 69 then .go .mark o else .following c o
  | .whole =>
    if isDigit c then .go .whole o
    else if c = 46 then .go .point o
    else if c = 101 ∨ c = 69 then .go .mark o else .following c o
  | .point => if isDigit c then .go .fraction o else .fault .malformed
  | .fraction =>
    if isDigit c then .go .fraction o
    else if c = 101 ∨ c = 69 then .go .mark o else .following c o
  | .mark =>
    if c = 43 ∨ c = 45 then .go .markSign o
    else if isDigit c then .go .exponent o else .fault .malformed
  | .markSign => if isDigit c then .go .exponent o else .fault .malformed
  | .exponent => if isDigit c then .go .exponent o else .following c o

/-- The end of the input: a number may end there, and lacks its digits otherwise. -/
def Spot.atEnd (o : List Bracket) : Spot → Except Fault (Unit × Input)
  | .zero | .whole | .fraction | .exponent => if o.isEmpty then .ok ((), []) else .error .truncated
  | .minus | .point | .mark | .markSign => .error .malformed
  | _ => .error .truncated

def skipFrom : Spot → List Bracket → Input → Except Fault (Unit × Input)
  | s, o, [] => s.atEnd o
  | s, o, c :: r =>
    match s.step c o with
    | .go s' o' => skipFrom s' o' r
    | .stop => .ok ((), r)
    | .stopBefore => .ok ((), c :: r)
    | .fault f => .error f

theorem skipFrom_rest_le (s : Spot) (o : List Bracket) (i : Input) :
    ∀ a r, skipFrom s o i = .ok (a, r) → r.length ≤ i.length := by
  fun_induction skipFrom s o i with
  | case1 s o => cases s <;> grind [Spot.atEnd]
  | _ => grind

/-- Passes over one value. -/
def Reader.skip : Reader Unit := ⟨skipFrom .value [], skipFrom_rest_le _ _⟩

end Rollcall.Json
