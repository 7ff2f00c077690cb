import Rollcall.Json.Text
import Rollcall.Json.Number
import Rollcall.Text.Base64

/-! Readers of values of a known shape: texts, numbers, optional values, arrays and objects. A value of
another kind is read as far as its kind shows, so that a fault inside it comes first. -/

namespace Rollcall.Json

namespace Reader

variable {α σ : Type}

/-- The rest of a word such as `null`. -/
def word : List UInt8 → Reader Unit
  | [] => pure ()
  | c :: r => do
    expect c
    word r

def nullWord : Reader Unit := word [110, 117, 108, 108]

/-- A value of the wrong kind, of which `c` is the first byte. -/
def unfit (c : UInt8) : Reader α := do
  if c = 110 then nullWord
  else if c = 116 then word [116, 114, 117, 101]
  else if c = 102 then word [102, 97, 108, 115, 101]
  else if c = 45 ∨ isDigit c then let _ ← number
  else if c = 34 then drop; let _ ← textAfterQuote
  else if c ≠ 91 ∧ c ≠ 123 then fail .malformed
  fail .unfit

/-- The first byte of a value that must be there. -/
def firstByte : Reader UInt8 := do
  match ← visible with
  | some c => pure c
  | none => fail .truncated

def text : Reader String := do
  let c ← firstByte
  if c = 34 then drop; textAfterQuote else unfit c

/-- A text that `f` accepts. -/
def textOf (f : String → Option α) : Reader α := do
  match f (← text) with
  | some a => pure a
  | none => fail .unfit

/-- A value of the shape or `null`. -/
def optional (x : Reader α) : Reader (Option α) := do
  if (← visible) = some 110 then do nullWord; pure none
  else some <$> x

/-- A natural number below `bound`. -/
def naturalBelow (bound : Nat) : Reader Nat := do
  let c ← firstByte
  if c = 45 ∨ isDigit c then match ← number with
    | .natural n => if n < bound then pure n else fail .unfit
    | _ => fail .unfit
  else unfit c

def bytes : Reader ByteArray := textOf Base64.decode?

/-- Bytes, where `null` and the empty text stand for none. -/
def optionalBytes : Reader (Option ByteArray) := do
  match ← optional text with
  | none => pure none
  | some s =>
    if s.isEmpty then pure none
    else match Base64.decode? s with
      | some b => pure (some b)
      | none => fail .unfit

/-- The next element of an array, if there is one. Its closing bracket stays. -/
def element? (isFirst : Bool) (x : Reader α) : Reader (Option α) := do
  match ← visible with
  | none => fail .truncated
  | some c =>
    if c = 93 then pure none
    else if isFirst then some <$> x
    else if c = 44 then
      drop
      let d ← firstByte
      if d = 93 then fail .malformed else some <$> x
    else fail .malformed

/-- The end of an array all of whose elements are read. -/
def closeArray : Reader Unit := do
  let c ← firstByte
  if c = 93 then drop else fail .malformed

def colon : Reader Unit := do
  let c ← firstByte
  if c = 58 then drop else fail .malformed

/-- The value of a member that may be named once. -/
def once (known : Option α) (x : Reader α) : Reader (Option α) := do
  if known.isSome then fail .unfit
  colon
  some <$> x

end Reader

/-- What stands where the next member of an object may: the end of the object or the quote of a key,
each with what follows it. -/
inductive Turn where
  | close (rest : Input)
  | key (rest : Input)

def turn (isFirst : Bool) (s : Input) : Except Fault Turn :=
  match s.dropWhile Reader.isBlank with
  | [] => .error .truncated
  | c :: r =>
    if c = 125 then .ok (.close r)
    else if isFirst then (if c = 34 then .ok (.key r) else .error .malformed)
    else if c ≠ 44 then .error .malformed
    else match r.dropWhile Reader.isBlank with
      | [] => .error .truncated
      | c :: r => if c = 34 then .ok (.key r) else .error .malformed

theorem turn_close_lt {isFirst : Bool} {s r : Input} (h : turn isFirst s = .ok (.close r)) :
    r.length < s.length := by
  have h1 := (List.dropWhile_sublist Reader.isBlank (l := s)).length_le
  unfold turn at h
  grind

theorem turn_key_lt {isFirst : Bool} {s r : Input} (h : turn isFirst s = .ok (.key r)) :
    r.length < s.length := by
  have h1 := (List.dropWhile_sublist Reader.isBlank (l := s)).length_le
  unfold turn at h
  split at h
  · simp at h
  · rename_i c t ht
    have h2 := (List.dropWhile_sublist Reader.isBlank (l := t)).length_le
    grind

/-- The members of an object whose brace has been read, up to its end. `member` gets each key with
the colon still to come. -/
def membersFrom {σ : Type} (member : String → σ → Reader σ) (isFirst : Bool) (state : σ)
    (s : Input) : Except Fault (σ × Input) :=
  match h : turn isFirst s with
  | .error e => .error e
  | .ok (.close r) => .ok (state, r)
  | .ok (.key r) =>
    match hm : (Reader.textAfterQuote >>= fun k => member k state).run r with
    | .error e => .error e
    | .ok (state', r') =>
      have := turn_key_lt h
      have := Reader.rest_le _ _ _ _ hm
      membersFrom member false state' r'
termination_by s.length

theorem membersFrom_rest_le {σ : Type} (member : String → σ → Reader σ) (isFirst : Bool) (state : σ)
    (s : Input) : ∀ a r, membersFrom member isFirst state s = .ok (a, r) → r.length ≤ s.length := by
  fun_induction membersFrom member isFirst state s with
  | case1 => simp
  | case2 =>
    rename_i h
    have := turn_close_lt h
    grind
  | case3 => simp
  | case4 => grind

def Reader.members {σ : Type} (member : String → σ → Reader σ) (state : σ) : Reader σ :=
  ⟨membersFrom member true state, membersFrom_rest_le member true state⟩

end Rollcall.Json
