import Rollcall.Proofs.List
import Rollcall.Text.Hex

/-! Bytes told by their hexadecimal digits. Two digits make a byte, so bytes that are written alike are the
same, in upper case and in lower case. -/

namespace Rollcall.Hex

theorem upperDigit_inj {m n : Nat} (hm : m < 16) (hn : n < 16) (h : upperDigit m = upperDigit n) : m = n := by
  have hall : ∀ m n : Fin 16, upperDigit m = upperDigit n → m = n := by decide
  exact Fin.mk.inj (hall ⟨m, hm⟩ ⟨n, hn⟩ h)

theorem eq_of_upperDigits {a b : UInt8} (hhigh : upperDigit (a.toNat / 16) = upperDigit (b.toNat / 16))
    (hlow : upperDigit (a.toNat % 16) = upperDigit (b.toNat % 16)) : a = b := by
  have := a.toNat_lt
  have := b.toNat_lt
  have := upperDigit_inj (by omega) (by omega) hhigh
  have := upperDigit_inj (by omega) (by omega) hlow
  exact UInt8.toNat_inj.1 (by omega)

def byteDigits (b : UInt8) : List Char := [lowerDigit (b.toNat / 16), lowerDigit (b.toNat % 16)]

theorem byteDigits_append_inj {a b : UInt8} {r s : List Char} (h : byteDigits a ++ r = byteDigits b ++ s) :
    a = b ∧ r = s := by
  obtain ⟨hhigh, h⟩ := List.cons.inj h
  obtain ⟨hlow, hrest⟩ := List.cons.inj h
  exact ⟨eq_of_upperDigits (congrArg Char.toUpper hhigh) (congrArg Char.toUpper hlow), hrest⟩

theorem toList_encode (l : List UInt8) : (encode l).toList = l.flatMap byteDigits := by
  have hpush : ∀ s : String, (l.foldl (fun s b =>
      (s.push (lowerDigit (b.toNat / 16))).push (lowerDigit (b.toNat % 16))) s).toList =
        s.toList ++ l.flatMap byteDigits := by
    induction l with
    | nil => simp
    | cons b l ih =>
      intro s
      rw [List.foldl_cons, ih]
      simp [byteDigits]
  exact hpush ""

theorem encode_inj {l m : List UInt8} (h : encode l = encode m) : l = m := by
  have hdigits := congrArg String.toList h
  rw [toList_encode, toList_encode] at hdigits
  exact flatMap_inj (fun _ => List.cons_ne_nil _ _) byteDigits_append_inj hdigits

end Rollcall.Hex
