import Mathlib.Data.List.Basic

/-! The bytes of a text, character by character. A character of ASCII is one byte, and no byte of another
character looks like one of ASCII, so bytes and characters of ASCII can be told by each other. -/

namespace Rollcall.Text

def octets (s : String) : List UInt8 := s.toUTF8.data.toList

@[simp] theorem octets_append (s t : String) : octets (s ++ t) = octets s ++ octets t := by
  simp [octets, String.toUTF8_eq_toByteArray]

theorem octets_ofList (l : List Char) : octets (String.ofList l) = l.flatMap String.utf8EncodeChar := by
  simp [octets, String.toUTF8_eq_toByteArray, List.utf8Encode]

theorem octets_eq (s : String) : octets s = s.toList.flatMap String.utf8EncodeChar := by
  rw [← octets_ofList, String.ofList_toList]

theorem octets_singleton (c : Char) : octets (String.singleton c) = String.utf8EncodeChar c := by
  simp [octets_eq]

/-- The bytes of a text are the text. -/
theorem fromUTF8?_octets (s : String) : String.fromUTF8? ⟨(octets s).toArray⟩ = some s := by
  have hbytes : (⟨(octets s).toArray⟩ : ByteArray) = s.toByteArray := by
    simp [octets, String.toUTF8_eq_toByteArray]
  rw [hbytes, String.fromUTF8?, dif_pos s.isValidUTF8]
  rfl

theorem octets_inj {s t : String} (h : octets s = octets t) : s = t := by
  have hs := fromUTF8?_octets s
  rw [h, fromUTF8?_octets t] at hs
  exact (Option.some.inj hs).symm

theorem utf8EncodeChar_of_lt {c : Char} (h : c.toNat < 128) :
    String.utf8EncodeChar c = [c.toNat.toUInt8] := by
  have hv : c.val.toNat ≤ 127 := Nat.le_of_lt_succ h
  simp only [String.utf8EncodeChar, if_pos hv]
  rfl

theorem le_of_mem_utf8EncodeChar {c : Char} (h : 128 ≤ c.toNat) {b : UInt8}
    (hb : b ∈ String.utf8EncodeChar c) : 128 ≤ b.toNat := by
  have hv : ¬c.val.toNat ≤ 127 := Nat.not_le.2 h
  simp only [String.utf8EncodeChar, if_neg hv] at hb
  split at hb
  · simp only [List.mem_cons, List.not_mem_nil, or_false] at hb
    rcases hb with rfl | rfl <;> simp only [UInt8.toNat_ofNat'] <;> omega
  · split at hb
    · simp only [List.mem_cons, List.not_mem_nil, or_false] at hb
      rcases hb with rfl | rfl | rfl <;> simp only [UInt8.toNat_ofNat'] <;> omega
    · simp only [List.mem_cons, List.not_mem_nil, or_false] at hb
      rcases hb with rfl | rfl | rfl | rfl <;> simp only [UInt8.toNat_ofNat'] <;> omega

/-- A byte of ASCII in a text is a character of it. -/
theorem mem_of_mem_octets {s : String} {b : UInt8} (hb : b ∈ octets s) (hlt : b.toNat < 128) :
    Char.ofNat b.toNat ∈ s.toList := by
  rw [octets_eq, List.mem_flatMap] at hb
  obtain ⟨c, hc, hbc⟩ := hb
  by_cases h : c.toNat < 128
  · rw [utf8EncodeChar_of_lt h, List.mem_singleton] at hbc
    have hnat : b.toNat = c.toNat := by
      rw [hbc, Nat.toUInt8, UInt8.toNat_ofNat']
      omega
    rwa [hnat, Char.ofNat_toNat]
  · have := le_of_mem_utf8EncodeChar (Nat.not_lt.1 h) hbc
    omega

/-- Characters of ASCII are their own bytes. -/
theorem octets_of_ascii {s : String} (h : ∀ c ∈ s.toList, c.toNat < 128) :
    octets s = s.toList.map (·.toNat.toUInt8) := by
  rw [octets_eq, List.flatMap_congr fun c hc => utf8EncodeChar_of_lt (h c hc)]
  exact List.flatMap_pure_eq_map _ _

end Rollcall.Text
