/-! Readers of JSON bytes. A reader takes a value off the front of its input and leaves the rest, or
stops at the first fault in the order of the text; it never leaves more than it was given, which is
what lets a loop over members end. -/

namespace Rollcall.Json

/-- Why bytes are not a value of the kind asked for. -/
inductive Fault where
  /-- The bytes are not JSON. -/
  | malformed
  /-- The bytes end inside the value. -/
  | truncated
  /-- The bytes are JSON so far, but not of the kind asked for. -/
  | unfit
  deriving DecidableEq, Repr

abbrev Input := List UInt8

structure Reader (α : Type) where
  run : Input → Except Fault (α × Input)
  rest_le : ∀ s a r, run s = .ok (a, r) → r.length ≤ s.length

namespace Reader

variable {α β : Type}

instance : Monad Reader where
  pure a := ⟨fun s => .ok (a, s), by grind⟩
  bind x f := ⟨fun s => match x.run s with
    | .error e => .error e
    | .ok (a, r) => (f a).run r, by
      intro s b r h
      cases hx : x.run s with
      | error e => simp [hx] at h
      | ok p =>
        simp only [hx] at h
        exact Nat.le_trans ((f p.1).rest_le _ _ _ h) (x.rest_le _ _ _ hx)⟩

def fail (f : Fault) : Reader α := ⟨fun _ => .error f, by grind⟩

/-- The first byte that is left, which stays. -/
def peek : Reader (Option UInt8) := ⟨fun s => .ok (s.head?, s), by grind⟩

/-- Takes the first byte off. -/
def drop : Reader Unit := ⟨fun s => .ok ((), s.tail), by grind⟩

/-- Takes the first byte off, where there must be one. -/
def next : Reader UInt8 where
  run
    | [] => .error .truncated
    | c :: r => .ok (c, r)
  rest_le := by grind

def expect (c : UInt8) : Reader Unit := do
  if (← next) ≠ c then fail .malformed

/-- Space, tab, line feed and carriage return. -/
def isBlank (c : UInt8) : Bool := c = 32 || c = 9 || c = 10 || c = 13

/-- Passes over blanks; the first byte after them stays. -/
def visible : Reader (Option UInt8) :=
  ⟨fun s => let r := s.dropWhile isBlank; .ok (r.head?, r), by
    intro s a r h
    obtain ⟨_, rfl⟩ : _ = a ∧ _ = r := by simpa using h
    exact (List.dropWhile_sublist _).length_le⟩

/-- The value alone: nothing but blanks may follow it. -/
def all (x : Reader α) (s : Input) : Except Fault α :=
  match x.run s with
  | .error e => .error e
  | .ok (a, r) => if (r.dropWhile isBlank).isEmpty then .ok a else .error .malformed

end Reader

end Rollcall.Json
