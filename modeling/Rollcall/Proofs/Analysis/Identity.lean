import Rollcall.Analysis.Identity
import Rollcall.Proofs.Text.Decimal
import Rollcall.Proofs.Text.Hex
import Rollcall.Proofs.Text.Octets
import Rollcall.Proofs.Text.Split

/-! Which submissions share an identifier. The text that is digested ends with the port behind a dash, and no
port holds one, so the port can be told from it. Key and address stand in front with a dash between them, and
both may hold dashes: two nodes blur where the key of one goes on as the address of the other begins. Without
addresses nothing blurs. Digests that collide are the only other thing that can merge two nodes. -/

namespace Rollcall.Identity

/-- The port as it tells nodes apart, zero for none. -/
def portOf (s : Submission) : UInt16 := s.controlPort.getD 0

/-- The text that stands for the node of a submission. -/
def message (ignoreIps : Bool) (s : Submission) : String :=
  text s.submitter (address ignoreIps s) (port? ignoreIps s)

/-- Two submissions say the same of their nodes. -/
structure SameNode (ignoreIps : Bool) (s t : Submission) : Prop where
  key : s.submitter = t.submitter
  address : address ignoreIps s = address ignoreIps t
  port : portOf s = portOf t

/-- The key of the second goes on, behind a dash, with what the address of the first begins with. -/
def Blurs (s t : Submission) : Prop :=
  portOf s = portOf t ∧ ∃ r, t.submitter = s.submitter ++ "-" ++ r ∧ s.remoteAddr = r ++ "-" ++ t.remoteAddr

/-- Addresses count, and one of the two blurs into the other. -/
def Blurred (ignoreIps : Bool) (s t : Submission) : Prop := ignoreIps = false ∧ (Blurs s t ∨ Blurs t s)

/-- Different texts stand for the nodes and have the same digest. -/
def Collide (ignoreIps : Bool) (s t : Submission) : Prop :=
  message ignoreIps s ≠ message ignoreIps t ∧
    Digest.sha3 (Text.octets (message ignoreIps s)) = Digest.sha3 (Text.octets (message ignoreIps t))

variable {ignoreIps : Bool} {s t : Submission}

section Message

/-- What stands behind the last dash. -/
def portDigits (p : Option UInt16) : List Char := p.elim [] fun p => Decimal.digits p.toNat

theorem dash_not_mem_portDigits (p : Option UInt16) : '-' ∉ portDigits p := by
  cases p with
  | none => exact List.not_mem_nil
  | some p => exact fun h => absurd (Decimal.isDigit_of_mem_digits h) (by decide)

theorem portDigits_inj {p q : Option UInt16} : portDigits p = portDigits q ↔ p = q := by
  constructor
  · intro h
    rcases p with _ | p <;> rcases q with _ | q
    · rfl
    · exact absurd h.symm (Decimal.digits_ne_nil _)
    · exact absurd h (Decimal.digits_ne_nil _)
    · have hvalue := congrArg Decimal.value h
      simp only [portDigits, Option.elim_some, Decimal.value_digits] at hvalue
      rw [UInt16.toNat_inj.1 hvalue]
  · rintro rfl
    rfl

theorem port?_eq_iff : port? ignoreIps s = port? ignoreIps t ↔ portOf s = portOf t := by
  unfold port? portOf
  grind

theorem toList_message_false (s : Submission) : (message false s).toList =
    (s.submitter.toList ++ '-' :: s.remoteAddr.toList) ++ '-' :: portDigits (port? false s) := by
  simp [message, text, address, port?, portDigits, Decimal.nat]

/-- Without an address its dash is written nonetheless, and is the last one if there is no port. -/
theorem toList_message_true (s : Submission) : (message true s).toList =
    (s.submitter.toList ++ if portOf s = 0 then [] else ['-']) ++ '-' :: portDigits (port? true s) := by
  unfold portOf
  by_cases h : s.controlPort.getD 0 = 0
  · simp [message, text, address, port?, portDigits, h]
  · simp [message, text, address, port?, portDigits, Decimal.nat, h]

theorem blurs_iff : Blurs s t ↔ portOf s = portOf t ∧ ∃ m,
    t.submitter.toList = s.submitter.toList ++ '-' :: m ∧ s.remoteAddr.toList = m ++ '-' :: t.remoteAddr.toList := by
  refine and_congr_right fun _ => ⟨?_, ?_⟩
  · rintro ⟨r, hkey, haddress⟩
    exact ⟨r.toList, by simp [hkey], by simp [haddress]⟩
  · rintro ⟨m, hkey, haddress⟩
    refine ⟨String.ofList m, String.toList_inj.1 ?_, String.toList_inj.1 ?_⟩
    · simp [hkey]
    · simp [haddress]

theorem message_false_eq_iff :
    message false s = message false t ↔ SameNode false s t ∨ Blurs s t ∨ Blurs t s := by
  have hsame : SameNode false s t ↔ portOf s = portOf t ∧
      s.submitter.toList = t.submitter.toList ∧ s.remoteAddr.toList = t.remoteAddr.toList := by
    rw [String.toList_inj, String.toList_inj]
    constructor
    · rintro ⟨hkey, haddress, hport⟩
      exact ⟨hport, hkey, haddress⟩
    · rintro ⟨hport, hkey, haddress⟩
      exact ⟨hkey, haddress, hport⟩
  rw [hsame, blurs_iff, blurs_iff, eq_comm (a := portOf t), ← and_or_left, ← and_or_left,
    ← append_cons_eq_append_cons_iff, ← String.toList_inj, toList_message_false, toList_message_false,
    Text.append_cons_inj (dash_not_mem_portDigits _) (dash_not_mem_portDigits _), portDigits_inj, port?_eq_iff,
    and_comm]

theorem message_true_eq_iff : message true s = message true t ↔ SameNode true s t := by
  rw [← String.toList_inj, toList_message_true, toList_message_true,
    Text.append_cons_inj (dash_not_mem_portDigits _) (dash_not_mem_portDigits _), portDigits_inj, port?_eq_iff]
  constructor
  · rintro ⟨hfront, hport⟩
    rw [hport] at hfront
    exact ⟨String.toList_inj.1 (List.append_cancel_right hfront), rfl, hport⟩
  · rintro ⟨hkey, -, hport⟩
    exact ⟨by rw [hkey, hport], hport⟩

theorem message_eq_iff :
    message ignoreIps s = message ignoreIps t ↔ SameNode ignoreIps s t ∨ Blurred ignoreIps s t := by
  unfold Blurred
  cases ignoreIps with
  | false => rw [message_false_eq_iff, and_iff_right rfl]
  | true => rw [message_true_eq_iff, or_iff_left fun h => absurd h.1 (by decide)]

end Message

theorem of_id_eq_iff : (of ignoreIps s).id = (of ignoreIps t).id ↔
    SameNode ignoreIps s t ∨ Blurred ignoreIps s t ∨ Collide ignoreIps s t := by
  have hdigest : (of ignoreIps s).id = (of ignoreIps t).id ↔
      Digest.sha3 (Text.octets (message ignoreIps s)) = Digest.sha3 (Text.octets (message ignoreIps t)) :=
    ⟨fun h => Hex.encode_inj h, fun h => congrArg Hex.encode h⟩
  rw [hdigest, ← or_assoc, ← message_eq_iff]
  by_cases h : message ignoreIps s = message ignoreIps t
  · exact iff_of_true (by rw [h]) (.inl h)
  · exact ⟨fun hcollide => .inr ⟨h, hcollide⟩, fun hor => (hor.resolve_left h).2⟩

theorem Blurs.key_ne (h : Blurs s t) : s.submitter ≠ t.submitter := by
  obtain ⟨-, r, hkey, -⟩ := h
  intro heq
  have hlength := congrArg String.length (heq.trans hkey)
  simp only [String.length_append] at hlength
  have : "-".length = 1 := rfl
  omega

theorem SameNode.not_blurred (h : SameNode ignoreIps s t) : ¬Blurred ignoreIps s t := by
  rintro ⟨-, hblurs | hblurs⟩
  · exact hblurs.key_ne h.key
  · exact hblurs.key_ne h.key.symm

theorem SameNode.not_collide (h : SameNode ignoreIps s t) : ¬Collide ignoreIps s t :=
  fun hcollide => hcollide.1 (message_eq_iff.2 (.inl h))

/-- Submissions share an identifier exactly if they are of one node: it is so for each pair of which neither
blurs into the other and the digests do not collide, and for no other pair. -/
theorem tells_apart_iff (ignoreIps : Bool) (s t : Submission) :
    ((of ignoreIps s).id = (of ignoreIps t).id ↔ SameNode ignoreIps s t) ↔
      ¬Blurred ignoreIps s t ∧ ¬Collide ignoreIps s t := by
  rw [of_id_eq_iff]
  constructor
  · intro hlaw
    exact ⟨fun h => (hlaw.1 (.inr (.inl h))).not_blurred h, fun h => (hlaw.1 (.inr (.inr h))).not_collide h⟩
  · rintro ⟨hblurred, hcollide⟩
    exact ⟨fun h => h.resolve_right (not_or.2 ⟨hblurred, hcollide⟩), .inl⟩

def alice : Submission := { submitter := "B62qalice", remoteAddr := "eu-10.0.0.1" }

def aliceAbroad : Submission := { submitter := "B62qalice-eu", remoteAddr := "10.0.0.1" }

/-- Two nodes with different keys and different addresses share an identifier. -/
theorem alice_merged : (of false alice).id = (of false aliceAbroad).id ∧
    alice.submitter ≠ aliceAbroad.submitter ∧ address false alice ≠ address false aliceAbroad := by
  have hmessage : message false alice = message false aliceAbroad := by decide
  exact ⟨congrArg digest hmessage, by decide, by decide⟩

end Rollcall.Identity
