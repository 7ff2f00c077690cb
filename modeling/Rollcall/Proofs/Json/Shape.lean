import Rollcall.Json.Shape
import Rollcall.Proofs.Json.Number
import Rollcall.Proofs.Text.Base64

/-! Values that are written in JSON read back as values of their shape: texts, bytes, numbers, and objects
member by member. What follows a member is a comma or the end of the object, and that is all that a member
may rely on. -/

namespace Rollcall.Json

open Text (octets)

namespace Reader

variable {α : Type} {r : Input}

theorem not_isBlank_of_isDigit {c : UInt8} (h : isDigit c) : isBlank c = false := by
  by_contra hb
  simp only [isBlank, Bool.not_eq_false, Bool.or_eq_true, decide_eq_true_eq] at hb
  rcases hb with ((rfl | rfl) | rfl) | rfl <;> exact absurd h (by decide)

theorem run_firstByte {c : UInt8} (hc : isBlank c = false) : firstByte.run (c :: r) = .ok (c, c :: r) := by
  have hvisible : visible.run (c :: r) = .ok (some c, c :: r) := by simp [visible, hc]
  rw [firstByte, run_bind_of_ok hvisible]
  rfl

theorem run_text (s : String) (r : Input) : text.run (octets (Json.text s) ++ r) = .ok (s, r) := by
  rw [octets_text, List.append_assoc, List.cons_append, text, run_bind_of_ok (run_firstByte (by decide)),
    if_pos rfl, run_bind_of_ok (a := ()) rfl]
  exact run_textAfterQuote s r

theorem run_textOf {f : String → Option α} {s : String} {a : α} (h : f s = some a) (r : Input) :
    (textOf f).run (octets (Json.text s) ++ r) = .ok (a, r) := by
  rw [textOf, run_bind_of_ok (run_text s r)]
  simp only [h]
  rfl

/-- A value that is there is read as itself, unless it could be the word for none. -/
theorem run_optional {x : Reader α} {a : α} {c : UInt8} {t : Input} (hc : isBlank c = false) (hn : c ≠ 110)
    (h : x.run (c :: t) = .ok (a, r)) : (optional x).run (c :: t) = .ok (some a, r) := by
  have hvisible : visible.run (c :: t) = .ok (some c, c :: t) := by simp [visible, hc]
  rw [optional, run_bind_of_ok hvisible, if_neg (by simpa using hn)]
  exact run_map_of_ok h

theorem run_optional_text (s : String) (r : Input) :
    (optional text).run (octets (Json.text s) ++ r) = .ok (some s, r) := by
  have h := run_text s r
  rw [octets_text] at h ⊢
  exact run_optional (by decide) (by decide) h

theorem run_bytes (b : ByteArray) (r : Input) :
    bytes.run (octets (Json.text (Base64.encode b)) ++ r) = .ok (b, r) :=
  run_textOf (Base64.decode?_encode b) r

/-- Bytes are read back, but no bytes at all as none. -/
theorem run_optionalBytes (b : ByteArray) (r : Input) :
    optionalBytes.run (octets (Json.text (Base64.encode b)) ++ r) =
      .ok (some b |>.filter (0 < ·.size), r) := by
  rw [optionalBytes, run_bind_of_ok (run_optional_text _ r)]
  simp only [Base64.decode?_encode, Base64.isEmpty_encode_iff]
  by_cases h : b.size = 0
  · have hnone : (some b).filter (0 < ·.size) = none := by simpa using h
    rw [if_pos h, hnone]
    rfl
  · have hsome : (some b).filter (0 < ·.size) = some b := by simpa using Nat.pos_of_ne_zero h
    rw [if_neg h, hsome]
    rfl

theorem run_naturalBelow {bound n : Nat} (hr : EndsNumber r) (hb : n < bound) (hn : n < twoTo 64) :
    (naturalBelow bound).run (octets (Decimal.nat n) ++ r) = .ok (n, r) := by
  obtain ⟨c, t, ht, hc⟩ := exists_octets_nat n
  have hfirst : firstByte.run (octets (Decimal.nat n) ++ r) = .ok (c, octets (Decimal.nat n) ++ r) := by
    rw [ht]
    exact run_firstByte (not_isBlank_of_isDigit hc)
  rw [naturalBelow, run_bind_of_ok hfirst, if_pos (.inr hc), run_bind_of_ok (run_number hr hn)]
  simp only
  rw [if_pos hb]
  rfl

/-- A value that begins with a brace is read behind it. -/
theorem run_braced {x : Reader α} {y : UInt8 → Reader α} {s : Input} {a : α} (h : x.run s = .ok (a, r)) :
    (do let c ← firstByte; if c = 123 then (do drop; x) else y c : Reader α).run (123 :: s) = .ok (a, r) := by
  rw [run_bind_of_ok (run_firstByte (by decide)), if_pos rfl, run_bind_of_ok (a := ()) (r := s) rfl]
  exact h

theorem run_colon (r : Input) : colon.run (58 :: r) = .ok ((), r) := by
  rw [colon, run_bind_of_ok (run_firstByte (by decide))]
  rfl

theorem run_once {x : Reader α} {s : Input} {a : α} (h : x.run s = .ok (a, r)) :
    (once none x).run (58 :: s) = .ok (some a, r) := by
  rw [once, if_neg (by simp)]
  change (colon >>= _).run _ = _
  rw [run_bind_of_ok (run_colon s)]
  exact run_map_of_ok h

end Reader

section Object

variable {σ : Type} {member : String → σ → Reader σ} {st mid fin : σ} {r s : Input}

/-- What stands behind a member: the comma before the next one, or the end of the object. -/
def EndsMember (r : Input) : Prop := ∃ t, r = 44 :: t ∨ r = 125 :: t

theorem EndsMember.endsNumber (h : EndsMember r) : EndsNumber r := by
  obtain ⟨t, rfl | rfl⟩ := h <;> simp [EndsNumber, isDigit]

/-- Written members that are read one after the other lead from one state to another. -/
inductive Leads (member : String → σ → Reader σ) : σ → List (String × String) → σ → Prop
  | nil (st : σ) : Leads member st [] st
  | cons {st mid fin : σ} {e : String × String} {l : List (String × String)} :
    (∀ r, EndsMember r → (member e.1 st).run (58 :: octets e.2 ++ r) = .ok (mid, r)) →
    Leads member mid l fin → Leads member st (e :: l) fin

theorem Leads.append {l k : List (String × String)} (hl : Leads member st l mid)
    (hk : Leads member mid k fin) : Leads member st (l ++ k) fin := by
  induction hl with
  | nil => exact hk
  | cons h _ ih => exact .cons h (ih hk)

theorem membersFrom_of_close {isFirst : Bool} (h : turn isFirst s = .ok (.close r)) :
    membersFrom member isFirst st s = .ok (st, r) := by
  rw [membersFrom]
  split <;> simp_all

theorem membersFrom_of_key {isFirst : Bool} {t : Input} (h : turn isFirst s = .ok (.key r))
    (hm : (Reader.textAfterQuote >>= fun k => member k st).run r = .ok (mid, t)) :
    membersFrom member isFirst st s = membersFrom member false mid t := by
  rw [membersFrom]
  split
  · rename_i e he
    rw [h] at he
    contradiction
  · rename_i u hu
    simp [h] at hu
  · rename_i u hu
    obtain rfl : r = u := by simpa [h] using hu
    split
    · rename_i e he
      rw [hm] at he
      contradiction
    · rename_i st' u hu
      rw [hm] at hu
      obtain ⟨rfl, rfl⟩ := Prod.mk.inj (Except.ok.inj hu)
      rfl

/-- The bytes of a member behind its first quote. -/
def memberOctets (e : String × String) : Input :=
  (e.1.toList.flatMap fun c => octets (escapeChar c)) ++ 34 :: 58 :: octets e.2

theorem run_member (e : String × String) (h : (member e.1 st).run (58 :: octets e.2 ++ r) = .ok (mid, r)) :
    (Reader.textAfterQuote >>= fun k => member k st).run (memberOctets e ++ r) = .ok (mid, r) := by
  rw [memberOctets, List.append_assoc, List.cons_append, Reader.run_bind_of_ok (run_textAfterQuote e.1 _)]
  exact h

theorem endsMember_members (l : List (String × String)) (r : Input) :
    EndsMember ((l.flatMap fun e => 44 :: 34 :: memberOctets e) ++ 125 :: r) := by
  cases l with
  | nil => exact ⟨r, .inr rfl⟩
  | cons e l => exact ⟨_, .inl rfl⟩

/-- The members that follow another one are read to the end of the object. -/
theorem membersFrom_false {l : List (String × String)} (h : Leads member st l fin) (r : Input) :
    membersFrom member false st ((l.flatMap fun e => 44 :: 34 :: memberOctets e) ++ 125 :: r) =
      .ok (fin, r) := by
  induction h with
  | nil st => exact membersFrom_of_close rfl
  | @cons st mid fin e l he _ ih =>
    rw [List.flatMap_cons, List.append_assoc]
    rw [membersFrom_of_key (r := memberOctets e ++ _) rfl (run_member e (he _ (endsMember_members l r)))]
    exact ih

theorem octets_member (e : String × String) :
    octets (text e.1 ++ ":" ++ e.2) = 34 :: memberOctets e := by
  have hcolon : octets ":" = [58] := rfl
  rw [Text.octets_append, Text.octets_append, octets_text, hcolon, memberOctets]
  simp

theorem octets_members (e : String × String) (l : List (String × String)) :
    octets (",".intercalate ((e :: l).map fun m => text m.1 ++ ":" ++ m.2)) =
      34 :: memberOctets e ++ l.flatMap fun m => 44 :: 34 :: memberOctets m := by
  have hcomma : octets "," = [44] := rfl
  induction l generalizing e with
  | nil =>
    rw [List.map_singleton, String.intercalate_singleton, octets_member]
    simp
  | cons d l ih =>
    have htail := ih d
    rw [List.map_cons] at htail
    rw [List.map_cons, List.map_cons, String.intercalate_cons_cons, Text.octets_append,
      Text.octets_append, htail, octets_member, hcomma]
    simp

/-- An object is read to its end, member by member. -/
theorem run_members {l : List (String × String)} (h : Leads member st l fin) (r : Input) :
    ∃ s, octets (object l) = 123 :: s ∧ (Reader.members member st).run (s ++ r) = .ok (fin, r) := by
  have hopen : octets "\x7b" = [123] := rfl
  have hclose : octets "\x7d" = [125] := rfl
  rw [object, Text.octets_append, Text.octets_append, hopen, hclose]
  refine ⟨octets (",".intercalate (l.map fun m => text m.1 ++ ":" ++ m.2)) ++ [125], rfl, ?_⟩
  cases h with
  | nil => exact membersFrom_of_close rfl
  | @cons _ mid _ e l he hl =>
    have hbytes : octets (",".intercalate ((e :: l).map fun m => text m.1 ++ ":" ++ m.2)) ++ [125] ++ r =
        34 :: (memberOctets e ++ ((l.flatMap fun m => 44 :: 34 :: memberOctets m) ++ 125 :: r)) := by
      rw [octets_members]
      simp
    rw [hbytes]
    exact (membersFrom_of_key rfl (run_member e (he _ (endsMember_members l r)))).trans
      (membersFrom_false hl r)

end Object

end Rollcall.Json
