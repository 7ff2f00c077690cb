import Rollcall.Text.Base64

/-! Bytes written in base64 read back, whatever they are. Three bytes make a group of four characters; the
last group may hold one or two bytes, and what it lacks is padded. -/

namespace Rollcall.Base64

theorem digit?_digit {n : Nat} (h : n < 64) : digit? (digit n) = some n := by
  revert n
  decide

theorem digit_ne_pad {n : Nat} (h : n < 64) : digit n ≠ '=' := by
  revert n
  decide

theorem toUInt8_eq {n : Nat} {a : UInt8} (h : n = a.toNat) : n.toUInt8 = a := by
  rw [h]
  exact UInt8.ofNat_toNat

section Group

variable (a b c : UInt8)

theorem group?_one : group? (digit (a.toNat / 4)) (digit (a.toNat % 4 * 16)) '=' '=' = some [a] := by
  have ha := a.toNat_lt
  have hx : a.toNat / 4 < 64 := by omega
  have hy : a.toNat % 4 * 16 < 64 := by omega
  have hbits : a.toNat % 4 * 16 % 16 = 0 := by omega
  have hbyte : (a.toNat / 4 * 4 + a.toNat % 4 * 16 / 16).toUInt8 = a := toUInt8_eq (by omega)
  simp only [group?, digit?_digit hx, digit?_digit hy, Option.bind_eq_bind, Option.bind_some, hbits, hbyte,
    and_self, if_true]

theorem group?_two {n : Nat} (hn : n = a.toNat * 256 + b.toNat) :
    group? (digit (n / 1024)) (digit (n / 16 % 64)) (digit (n % 16 * 4)) '=' = some [a, b] := by
  have ha := a.toNat_lt
  have hb := b.toNat_lt
  have hx : n / 1024 < 64 := by omega
  have hy : n / 16 % 64 < 64 := by omega
  have hz : n % 16 * 4 < 64 := by omega
  have hfirst : (n / 1024 * 4 + n / 16 % 64 / 16).toUInt8 = a := toUInt8_eq (by omega)
  have hsecond : (n / 16 % 64 % 16 * 16 + n % 16 * 4 / 4).toUInt8 = b := toUInt8_eq (by omega)
  have hbits : n % 16 * 4 % 4 = 0 := by omega
  simp only [group?, digit?_digit hx, digit?_digit hy, digit?_digit hz, digit_ne_pad hz,
    Option.bind_eq_bind, Option.bind_some, hbits, hfirst, hsecond, if_false, if_true]

theorem group?_three {n : Nat} (hn : n = (a.toNat * 256 + b.toNat) * 256 + c.toNat) :
    group? (digit (n / 262144)) (digit (n / 4096 % 64)) (digit (n / 64 % 64)) (digit (n % 64)) =
      some [a, b, c] := by
  have ha := a.toNat_lt
  have hb := b.toNat_lt
  have hc := c.toNat_lt
  have hx : n / 262144 < 64 := by omega
  have hy : n / 4096 % 64 < 64 := by omega
  have hz : n / 64 % 64 < 64 := by omega
  have hw : n % 64 < 64 := by omega
  have hfirst : (n / 262144 * 4 + n / 4096 % 64 / 16).toUInt8 = a := toUInt8_eq (by omega)
  have hsecond : (n / 4096 % 64 % 16 * 16 + n / 64 % 64 / 4).toUInt8 = b := toUInt8_eq (by omega)
  have hthird : (n / 64 % 64 % 4 * 64 + n % 64).toUInt8 = c := toUInt8_eq (by omega)
  simp only [group?, digit?_digit hx, digit?_digit hy, digit?_digit hz, digit?_digit hw, digit_ne_pad hz,
    digit_ne_pad hw, Option.bind_eq_bind, Option.bind_some, hfirst, hsecond, hthird, if_false]

end Group

/-- What is appended for the bytes reads as the bytes, after those that were read before. -/
theorem exists_write (s : String) (l : List UInt8) : ∃ t, (write s l).toList = s.toList ++ t ∧
    ∀ acc, read acc t = some (l.foldl ByteArray.push acc) := by
  fun_induction write s l with
  | case1 s => exact ⟨[], by simp, fun acc => rfl⟩
  | case2 s a n =>
    refine ⟨[digit (n / 4), digit (n % 4 * 16), '=', '='], by simp, fun acc => ?_⟩
    simp [read, n, group?_one]
  | case3 s a b n =>
    refine ⟨[digit (n / 1024), digit (n / 16 % 64), digit (n % 16 * 4), '='], by simp, fun acc => ?_⟩
    simp [read, group?_two a b (n := n) rfl]
  | case4 s a b c r n ih =>
    obtain ⟨t, ht, hread⟩ := ih
    refine ⟨digit (n / 262144) :: digit (n / 4096 % 64) :: digit (n / 64 % 64) :: digit (n % 64) :: t,
      by rw [ht]; simp, fun acc => ?_⟩
    simp [read, group?_three a b c (n := n) rfl, hread]

theorem foldl_push (l : List UInt8) (acc : ByteArray) :
    l.foldl ByteArray.push acc = ⟨acc.data ++ l.toArray⟩ := by
  induction l generalizing acc with
  | nil => simp
  | cons a l ih =>
    rw [List.foldl_cons, ih]
    simp

@[simp] theorem decode?_encode (b : ByteArray) : decode? (encode b) = some b := by
  obtain ⟨t, ht, hread⟩ := exists_write "" b.data.toList
  rw [decode?, encode, ht, String.toList_empty, List.nil_append, hread, foldl_push]
  simp

/-- Only no bytes at all are written as no text. -/
theorem isEmpty_encode_iff (b : ByteArray) : (encode b).isEmpty ↔ b.size = 0 := by
  rw [ByteArray.size_eq_zero_iff]
  constructor
  · intro h
    have htext : encode b = "" := by simpa using h
    have hread := decode?_encode b
    rw [htext] at hread
    exact (Option.some.inj hread).symm
  · rintro rfl
    rfl

end Rollcall.Base64
