/-! A ledger files one value under each key and keeps the entries in the order of the keys, so the
list of entries is determined by what can be looked up. -/

namespace Rollcall

/-- Keys in a strict order, in which one of any two different keys comes before the other. -/
class KeyOrder (κ : Type) [LT κ] : Prop where
  trans {a b c : κ} : a < b → b < c → a < c
  eq_of_not_lt {a b : κ} : ¬a < b → ¬b < a → a = b

instance : KeyOrder String := ⟨Std.lt_trans, fun h k => Std.le_antisymm (Std.not_lt.1 k) (Std.not_lt.1 h)⟩

instance : KeyOrder (List String) :=
  ⟨Std.lt_trans, fun h k => Std.le_antisymm (Std.not_lt.1 k) (Std.not_lt.1 h)⟩

instance : KeyOrder Int := ⟨Int.lt_trans, fun _ _ => by omega⟩

structure Ledger (κ α : Type) [LT κ] where
  entries : List (κ × α)
  sorted : entries.Pairwise fun a b => a.1 < b.1

namespace Ledger

def empty {κ α : Type} [LT κ] : Ledger κ α := ⟨[], List.Pairwise.nil⟩

variable {κ α : Type} [LT κ] [DecidableLT κ]

/-- Files `v` under `k` in a list sorted by key, in place of what stood there. -/
def put (k : κ) (v : α) : List (κ × α) → List (κ × α)
  | [] => [(k, v)]
  | e :: r => if k < e.1 then (k, v) :: e :: r
    else if e.1 < k then e :: put k v r
    else (k, v) :: r

theorem mem_put {k : κ} {v : α} {l : List (κ × α)} {e : κ × α} (h : e ∈ put k v l) :
    e = (k, v) ∨ e ∈ l := by
  fun_induction put k v l <;> simp_all <;> grind

variable [KeyOrder κ]

theorem sorted_put (k : κ) (v : α) (l : List (κ × α)) (h : l.Pairwise fun a b => a.1 < b.1) :
    (put k v l).Pairwise fun a b => a.1 < b.1 := by
  induction l with
  | nil => simp [put]
  | cons e r ih =>
    rw [put]
    obtain ⟨he, hr⟩ := List.pairwise_cons.1 h
    split
    · rename_i hk
      exact List.pairwise_cons.2 ⟨fun x hx => by
        rcases List.mem_cons.1 hx with rfl | hx
        · exact hk
        · exact KeyOrder.trans hk (he x hx), h⟩
    · split
      · rename_i hk
        refine List.pairwise_cons.2 ⟨fun x hx => ?_, ih hr⟩
        rcases mem_put hx with rfl | hx
        · exact hk
        · exact he x hx
      · rename_i h1 h2
        have : k = e.1 := KeyOrder.eq_of_not_lt h1 h2
        exact List.pairwise_cons.2 ⟨fun x hx => this ▸ he x hx, hr⟩

def insert (t : Ledger κ α) (k : κ) (v : α) : Ledger κ α :=
  ⟨put k v t.entries, sorted_put k v t.entries t.sorted⟩

def filter (t : Ledger κ α) (p : κ × α → Bool) : Ledger κ α :=
  ⟨t.entries.filter p, t.sorted.filter p⟩

/-- Later pairs replace earlier ones with the same key. -/
def ofList (l : List (κ × α)) : Ledger κ α :=
  l.foldl (fun t e => t.insert e.1 e.2) .empty

variable [DecidableEq κ]

/-- The value filed under `k`. -/
def get? (t : Ledger κ α) (k : κ) : Option α :=
  t.entries.lookup k

def erase (t : Ledger κ α) (k : κ) : Ledger κ α :=
  t.filter (·.1 != k)

def contains (t : Ledger κ α) (k : κ) : Bool :=
  (t.get? k).isSome

end Ledger

end Rollcall
