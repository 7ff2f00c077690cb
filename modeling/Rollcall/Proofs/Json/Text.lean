import Rollcall.Json.Text
import Rollcall.Proofs.Text.Octets

/-! A text that is written in JSON reads back, whatever characters it has. The bytes of a character that
stands for itself are none that mean something inside a text, and an escape reads as the bytes of the
character that it was written for; so the bytes that are read are those of the text. -/

namespace Rollcall.Json

open Text (octets)

namespace Reader

variable {α β : Type} {x : Reader α} {f : α → Reader β} {s r : Input} {a : α}

theorem run_bind_of_ok (h : x.run s = .ok (a, r)) : (x >>= f).run s = (f a).run r := by
  simp only [Bind.bind, h]

theorem run_map_of_ok {g : α → β} (h : x.run s = .ok (a, r)) : (g <$> x).run s = .ok (g a, r) :=
  run_bind_of_ok h

end Reader

section Read

variable {acc : ByteArray} {r : Input}

theorem textBytes_quote : textBytes acc (34 :: r) = .ok (acc, r) := by
  rw [textBytes, if_pos rfl]

theorem textBytes_escape {s : Input} {b : ByteArray} (h : Reader.escape.run s = .ok (b, r)) :
    textBytes acc (92 :: s) = textBytes (acc ++ b) r := by
  rw [textBytes, if_neg (by decide), if_neg (by decide), if_neg (by decide)]
  split
  · rename_i e he
    rw [h] at he
    contradiction
  · rename_i c t ht
    rw [h] at ht
    obtain ⟨rfl, rfl⟩ := Prod.mk.inj (Except.ok.inj ht)
    rfl

/-- A byte that means nothing inside a text. -/
def isInner (b : UInt8) : Prop := b ≠ 34 ∧ b ≠ 92 ∧ 32 ≤ b

theorem textBytes_inner {l : List UInt8} (hl : ∀ b ∈ l, isInner b) :
    textBytes acc (l ++ r) = textBytes (acc ++ ⟨l.toArray⟩) r := by
  induction l generalizing acc with
  | nil =>
    congr 1
    ext1
    simp
  | cons b l ih =>
    obtain ⟨⟨hquote, hslash, hlow⟩, hl⟩ := List.forall_mem_cons.1 hl
    rw [List.cons_append, textBytes, if_neg hquote, if_neg (by simpa using hlow), if_pos hslash, ih hl]
    congr 1
    ext1
    simp

end Read

section Escape

variable {acc : ByteArray} {r : Input} {c : Char}

theorem utf8_singleton (c : Char) :
    (String.singleton c).toUTF8 = ⟨(String.utf8EncodeChar c).toArray⟩ := by
  rw [← Text.octets_singleton]
  rfl

/-- The four digits of a control character are those of its number. -/
theorem readHexFour_padded {n : Nat} (h : n < 32) :
    Reader.readHexFour (octets (String.ofList (Hex.padded 4 n)) ++ r) = .ok (n, r) := by
  have hdigits : ∀ n < 32, (octets (String.ofList (Hex.padded 4 n))).length = 4 ∧
      Hex.value? ((octets (String.ofList (Hex.padded 4 n))).map fun x => Char.ofNat x.toNat) = some n := by
    decide +kernel
  obtain ⟨hlen, hvalue⟩ := hdigits n h
  obtain ⟨w, x, y, z, hw⟩ := List.length_eq_four.1 hlen
  rw [hw] at hvalue ⊢
  simp only [List.cons_append, List.nil_append, Reader.readHexFour, hvalue]

theorem run_escape_hex (h : c.toNat < 32) :
    Reader.escape.run (117 :: octets (String.ofList (Hex.padded 4 c.toNat)) ++ r) =
      .ok (⟨(String.utf8EncodeChar c).toArray⟩, r) := by
  have hpoint : Reader.codePoint.run (octets (String.ofList (Hex.padded 4 c.toNat)) ++ r) =
      .ok (c.toNat, r) := by
    rw [Reader.codePoint, Reader.run_bind_of_ok (readHexFour_padded h), if_neg (by omega),
      if_pos (by omega)]
    rfl
  rw [List.cons_append, Reader.escape, Reader.run_bind_of_ok (a := 117) rfl, if_pos rfl,
    Reader.run_bind_of_ok hpoint, Char.ofNat_toNat, utf8_singleton]
  rfl

/-- What stands for itself is not mistaken for anything else. -/
theorem isInner_of_mem (hquote : c ≠ '"') (hslash : c ≠ '\\') (hlow : ¬c.toNat < 32) {b : UInt8}
    (hb : b ∈ String.utf8EncodeChar c) : isInner b := by
  have hinner (h : b.toNat ≠ 34 ∧ b.toNat ≠ 92 ∧ 32 ≤ b.toNat) : isInner b :=
    ⟨fun e => h.1 (by rw [e]; rfl), fun e => h.2.1 (by rw [e]; rfl), UInt8.le_iff_toNat_le.2 h.2.2⟩
  by_cases hascii : c.toNat < 128
  · rw [Text.utf8EncodeChar_of_lt hascii, List.mem_singleton] at hb
    have hnat : b.toNat = c.toNat := by
      rw [hb, Nat.toUInt8, UInt8.toNat_ofNat']
      omega
    have hne (d : Char) (hd : c ≠ d) : c.toNat ≠ d.toNat := fun e => hd (Char.toNat_inj.1 e)
    refine hinner ⟨?_, ?_, ?_⟩
    · rw [hnat]
      exact hne '"' hquote
    · rw [hnat]
      exact hne '\\' hslash
    · omega
  · have := Text.le_of_mem_utf8EncodeChar (Nat.not_lt.1 hascii) hb
    exact hinner (by omega)

/-- The bytes of a character that is written in a text are read as the bytes of the character. -/
theorem textBytes_escapeChar (c : Char) (acc : ByteArray) (r : Input) :
    textBytes acc (octets (escapeChar c) ++ r) =
      textBytes (acc ++ ⟨(String.utf8EncodeChar c).toArray⟩) r := by
  have hof {n : Nat} (h : c.toNat = n) : c = Char.ofNat n := by rw [← h, Char.ofNat_toNat]
  rw [escapeChar]
  split
  · rename_i h
    subst h
    exact textBytes_escape rfl
  split
  · rename_i h
    subst h
    exact textBytes_escape rfl
  split
  · rename_i h
    rw [hof h]
    exact textBytes_escape rfl
  split
  · rename_i h
    rw [hof h]
    exact textBytes_escape rfl
  split
  · rename_i h
    rw [hof h]
    exact textBytes_escape rfl
  split
  · rename_i h
    rw [hof h]
    exact textBytes_escape rfl
  split
  · rename_i h
    rw [hof h]
    exact textBytes_escape rfl
  split
  · rename_i h
    rw [Text.octets_append, List.append_assoc]
    exact textBytes_escape (run_escape_hex h)
  · rename_i hquote hslash _ _ _ _ _ hlow
    rw [Text.octets_singleton]
    exact textBytes_inner fun b => isInner_of_mem hquote hslash hlow

end Escape

theorem octets_foldl (l : List Char) (s : String) :
    octets (l.foldl (fun t c => t ++ escapeChar c) s) =
      octets s ++ l.flatMap fun c => octets (escapeChar c) := by
  induction l generalizing s with
  | nil => simp
  | cons c l ih => simp [ih]

theorem octets_text (s : String) :
    octets (text s) = 34 :: (s.toList.flatMap fun c => octets (escapeChar c)) ++ [34] := by
  rw [text, String.foldl_eq_foldl_toList, Text.octets_append, octets_foldl]
  rfl

theorem textBytes_text (s : List Char) (acc : ByteArray) (r : Input) :
    textBytes acc (s.flatMap (fun c => octets (escapeChar c)) ++ 34 :: r) =
      .ok (acc ++ ⟨(s.flatMap String.utf8EncodeChar).toArray⟩, r) := by
  induction s generalizing acc with
  | nil =>
    rw [List.flatMap_nil, List.nil_append, textBytes_quote]
    congr 2
    ext1
    simp
  | cons c s ih =>
    rw [List.flatMap_cons, List.append_assoc, textBytes_escapeChar, ih]
    congr 2
    ext1
    simp

theorem run_textAfterQuote (s : String) (r : Input) :
    Reader.textAfterQuote.run (s.toList.flatMap (fun c => octets (escapeChar c)) ++ 34 :: r) =
      .ok (s, r) := by
  have hbytes : (ByteArray.empty ++ ⟨(s.toList.flatMap String.utf8EncodeChar).toArray⟩ : ByteArray) =
      ⟨(octets s).toArray⟩ := by
    rw [Text.octets_eq]
    ext1
    simp
  simp only [Reader.textAfterQuote, textBytes_text, hbytes, Text.fromUTF8?_octets]

end Rollcall.Json
