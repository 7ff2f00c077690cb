import Rollcall.Storage.Key
import Rollcall.Proofs.List
import Rollcall.Proofs.Text.Hex
import Rollcall.Proofs.Text.Octets
import Rollcall.Proofs.Text.Split

/-! What a key makes of a path. Plain characters stay as they are, and what is written for any other one is a
percent sign and digits; so no part of a path is cut in two, and a key of plain parts is the path itself. Names
can be told by what is written for them, so paths share a key exactly if they differ in repeated slashes only. -/

namespace Rollcall.Key

/-- What a text becomes in a key. -/
def encodeText (l : List Char) : List Char :=
  l.flatMap fun c => (String.utf8EncodeChar c).flatMap encodeByte

theorem encodeText_eq (p : List Char) :
    encodeText p = (Text.octets (String.ofList p)).flatMap encodeByte := by
  rw [Text.octets_ofList, List.flatMap_assoc]
  rfl

/-- Characters that a key holds as they are. -/
def isPlainChar (c : Char) : Bool :=
  32 ≤ c.toNat && c.toNat < 127 && !reserved.contains c

theorem encodePart_eq {p : List Char} (hone : p ≠ ['.']) (htwo : p ≠ ['.', '.']) :
    encodePart p = encodeText p := by
  rw [encodePart, if_neg hone, if_neg htwo, encodeText_eq]
  rfl

theorem encodePart_cases (p : List Char) :
    p = ['.'] ∨ p = ['.', '.'] ∨ encodePart p = encodeText p := by
  by_cases hone : p = ['.']
  · exact .inl hone
  · by_cases htwo : p = ['.', '.']
    · exact .inr (.inl htwo)
    · exact .inr (.inr (encodePart_eq hone htwo))

/-- A byte stands for itself, and then it is no percent sign, or is written with one. -/
theorem encodeByte_cases (b : UInt8) :
    (isPlain b ∧ b.toNat < 128 ∧ encodeByte b = [Char.ofNat b.toNat] ∧ Char.ofNat b.toNat ≠ '%') ∨
      (¬isPlain b ∧
        encodeByte b = ['%', Hex.upperDigit (b.toNat / 16), Hex.upperDigit (b.toNat % 16)]) := by
  by_cases h : isPlain b
  · refine .inl ⟨h, ?_, if_pos h, fun hc => ?_⟩
    · simp only [isPlain, Bool.and_eq_true, decide_eq_true_eq, UInt8.lt_iff_toNat_lt] at h
      exact Nat.lt_trans h.1.2 (by decide)
    · rw [isPlain, hc] at h
      simp [reserved] at h
  · exact .inr ⟨h, if_neg h⟩

/-- A character of ASCII is plain as its byte is. -/
theorem isPlain_toUInt8 {c : Char} (h : c.toNat < 128) : isPlain c.toNat.toUInt8 = isPlainChar c := by
  have hnat : c.toNat.toUInt8.toNat = c.toNat := by
    rw [Nat.toUInt8, UInt8.toNat_ofNat']
    omega
  rw [Bool.eq_iff_iff]
  simp only [isPlain, isPlainChar, Bool.and_eq_true, decide_eq_true_eq, UInt8.le_iff_toNat_le,
    UInt8.lt_iff_toNat_lt, hnat, Char.ofNat_toNat]
  rfl

theorem lt_of_isPlainChar {c : Char} (h : isPlainChar c) : c.toNat < 128 := by
  simp only [isPlainChar, Bool.and_eq_true, decide_eq_true_eq] at h
  omega

theorem encodeByte_of_plain {c : Char} (h : isPlainChar c) : encodeByte c.toNat.toUInt8 = [c] := by
  have hlt := lt_of_isPlainChar h
  have hnat : c.toNat.toUInt8.toNat = c.toNat := by
    rw [Nat.toUInt8, UInt8.toNat_ofNat']
    omega
  rw [encodeByte, if_pos (by rw [isPlain_toUInt8 hlt, h]), hnat, Char.ofNat_toNat]

theorem encodeText_of_plain {l : List Char} (h : ∀ c ∈ l, isPlainChar c) : encodeText l = l := by
  induction l with
  | nil => rfl
  | cons c l ih =>
    have hc : isPlainChar c := h c List.mem_cons_self
    have hlt := lt_of_isPlainChar hc
    have hl : encodeText l = l := ih fun d hd => h d (List.mem_cons_of_mem c hd)
    rw [encodeText, List.flatMap_cons, ← encodeText, hl, Text.utf8EncodeChar_of_lt hlt]
    simp [encodeByte_of_plain hc]

theorem encodeText_append (l r : List Char) : encodeText (l ++ r) = encodeText l ++ encodeText r :=
  List.flatMap_append

/-- A mark that is no percent sign and no digit stays away from where it was not. -/
theorem not_mem_encodeText {c : Char} (hpercent : c ≠ '%') (hdigit : ∀ n < 16, c ≠ Hex.upperDigit n)
    {l : List Char} (h : c ∉ l) : c ∉ encodeText l := by
  intro hm
  rw [encodeText_eq, List.mem_flatMap] at hm
  obtain ⟨b, hb, hc⟩ := hm
  rcases encodeByte_cases b with ⟨-, hlt, hbyte, -⟩ | ⟨-, hbyte⟩
  · rw [hbyte, List.mem_singleton] at hc
    rw [hc] at h
    exact h (by simpa using Text.mem_of_mem_octets hb hlt)
  · have := b.toNat_lt
    simp only [hbyte, List.mem_cons, List.not_mem_nil, or_false, hpercent, false_or] at hc
    rcases hc with hc | hc
    · exact hdigit _ (by omega) hc
    · exact hdigit _ (by omega) hc

theorem isPlainChar_of_isAlphanum {c : Char} (h : c.isAlphanum) : isPlainChar c := by
  have hfree : c ∉ reserved := by
    intro hm
    have hnone : reserved.all fun d => !d.isAlphanum := by decide
    have hc : c.isAlphanum = false := by simpa using List.all_eq_true.1 hnone c hm
    simp [h] at hc
  have hranges : (65 ≤ c.toNat ∧ c.toNat ≤ 90 ∨ 97 ≤ c.toNat ∧ c.toNat ≤ 122) ∨
      48 ≤ c.toNat ∧ c.toNat ≤ 57 := by
    change ((decide (65 ≤ c.val ∧ c.val ≤ 90) || (decide (97 ≤ c.val) && decide (c.val ≤ 122))) ||
      (decide (48 ≤ c.val) && decide (c.val ≤ 57))) = true at h
    simpa [UInt32.le_iff_toNat_le] using h
  simp only [isPlainChar, Bool.and_eq_true, decide_eq_true_eq, Bool.not_eq_true', List.contains_eq_mem,
    decide_eq_false_iff_not]
  exact ⟨⟨by omega, by omega⟩, hfree⟩

theorem parts_append (a b : String) : parts (a ++ "/" ++ b) = parts a ++ parts b := by
  simp [parts, Text.splitOn_append_cons]

theorem parts_eq {path : String} (hne : [] ∉ Text.splitOn '/' path.toList) :
    parts path = (Text.splitOn '/' path.toList).map encodePart := by
  rw [parts, List.filter_eq_self.2 fun p hp => ?_]
  rw [decide_eq_true_eq]
  rintro rfl
  exact hne hp

/-- The key of a path none of whose parts changes. -/
theorem ofPath_of_plain {path : String} (hne : [] ∉ Text.splitOn '/' path.toList)
    (h : ∀ p ∈ Text.splitOn '/' path.toList, encodePart p = p) : ofPath path = path := by
  rw [ofPath, parts_eq hne, List.map_congr_left h, List.map_id', Text.joinWith_splitOn,
    String.ofList_toList]

/-- What stands below a longer key stands below a shorter one. -/
theorem isBelow_of_isBelow_append {a b key : String} (ha : a ≠ "") (h : isBelow (a ++ "/" ++ b) key) :
    isBelow a key := by
  have hne : a ++ "/" ++ b ≠ "" := by simp
  rw [isBelow, if_neg hne, Text.startsWith, List.isPrefixOf_iff_prefix] at h
  rw [isBelow, if_neg ha, Text.startsWith, List.isPrefixOf_iff_prefix]
  refine List.IsPrefix.trans ?_ h
  exact ⟨(b ++ "/").toList, by simp⟩

section Injective

theorem toNat_ofNat_of_lt {n : Nat} (h : n < 128) : (Char.ofNat n).toNat = n := by
  have hvalid : n.isValidChar := .inl (Nat.lt_trans h (by decide))
  rw [Char.ofNat, dif_pos hvalid]
  rfl

theorem encodeByte_ne_nil (b : UInt8) : encodeByte b ≠ [] := by
  rw [encodeByte]
  split <;> exact List.cons_ne_nil _ _

/-- How a byte is written ends where the next one begins. -/
theorem encodeByte_append_inj {a b : UInt8} {r s : List Char} (h : encodeByte a ++ r = encodeByte b ++ s) :
    a = b ∧ r = s := by
  rcases encodeByte_cases a with ⟨-, halt, ha, hpa⟩ | ⟨-, ha⟩ <;>
    rcases encodeByte_cases b with ⟨-, hblt, hb, hpb⟩ | ⟨-, hb⟩ <;> rw [ha, hb] at h
  · obtain ⟨hc, rfl⟩ := List.cons.inj h
    refine ⟨UInt8.toNat_inj.1 ?_, rfl⟩
    rw [← toNat_ofNat_of_lt halt, hc, toNat_ofNat_of_lt hblt]
  · exact absurd (List.cons.inj h).1 hpa
  · exact absurd (List.cons.inj h).1.symm hpb
  · simp only [List.cons_append, List.nil_append, List.cons.injEq, true_and] at h
    obtain ⟨hhigh, hlow, rfl⟩ := h
    exact ⟨Hex.eq_of_upperDigits hhigh hlow, rfl⟩

theorem encodeText_inj {p q : List Char} (h : encodeText p = encodeText q) : p = q := by
  rw [encodeText_eq, encodeText_eq] at h
  exact String.ofList_injective (Text.octets_inj (flatMap_inj encodeByte_ne_nil encodeByte_append_inj h))

/-- A dot is a dot in a text, and written with a percent sign only where it is a whole name. -/
theorem encodeText_ne_dot (p r : List Char) : encodeText p ≠ '%' :: '2' :: 'E' :: r := by
  intro h
  rw [encodeText_eq] at h
  cases ho : Text.octets (String.ofList p) with
  | nil => simp [ho] at h
  | cons b l =>
    rw [ho, List.flatMap_cons] at h
    rcases encodeByte_cases b with ⟨-, -, hb, hpercent⟩ | ⟨hplain, hb⟩ <;> rw [hb] at h
    · exact hpercent (List.cons.inj h).1
    · simp only [List.cons_append, List.nil_append, List.cons.injEq, true_and] at h
      have := b.toNat_lt
      have hhigh : b.toNat / 16 = 2 := Hex.upperDigit_inj (by omega) (by decide) h.1
      have hlow : b.toNat % 16 = 14 := Hex.upperDigit_inj (by omega) (by decide) h.2.1
      obtain rfl : b = 46 := UInt8.toNat_inj.1 (show b.toNat = 46 by omega)
      exact hplain (by decide)

theorem encodePart_inj {p q : List Char} (h : encodePart p = encodePart q) : p = q := by
  rcases encodePart_cases p with rfl | rfl | hp <;> rcases encodePart_cases q with rfl | rfl | hq
  · rfl
  · exact absurd h (by decide)
  · exact absurd (h.trans hq).symm (encodeText_ne_dot q _)
  · exact absurd h (by decide)
  · rfl
  · exact absurd (h.trans hq).symm (encodeText_ne_dot q _)
  · exact absurd (hp.symm.trans h) (encodeText_ne_dot p _)
  · exact absurd (hp.symm.trans h) (encodeText_ne_dot p _)
  · exact encodeText_inj (hp.symm.trans (h.trans hq))

/-- The names in a path that make its key. -/
def segments (path : String) : List (List Char) := (Text.splitOn '/' path.toList).filter (· ≠ [])

theorem parts_eq_map (path : String) : parts path = (segments path).map encodePart := rfl

theorem slash_not_mem_of_mem_parts {path : String} {p : List Char} (h : p ∈ parts path) : '/' ∉ p := by
  rw [parts_eq_map] at h
  obtain ⟨q, hq, rfl⟩ := List.mem_map.1 h
  have hslash : '/' ∉ q := Text.not_mem_of_mem_splitOn (List.mem_filter.1 hq).1
  rcases encodePart_cases q with rfl | rfl | hpart
  · decide
  · decide
  · rw [hpart]
    exact not_mem_encodeText (by decide) (by decide) hslash

theorem nil_not_mem_parts (path : String) : [] ∉ parts path := by
  intro h
  rw [parts_eq_map] at h
  obtain ⟨q, hq, hnil⟩ := List.mem_map.1 h
  have hq : q ≠ [] := by simpa using (List.mem_filter.1 hq).2
  exact hq (encodePart_inj hnil)

theorem parts_inj {q p : String} : parts q = parts p ↔ segments q = segments p := by
  rw [parts_eq_map, parts_eq_map, List.map_inj_right fun _ _ => encodePart_inj]

/-- Two paths have one key exactly if they have the same names in them. -/
theorem ofPath_inj {q p : String} : ofPath q = ofPath p ↔ segments q = segments p := by
  rw [← parts_inj, ofPath, ofPath, String.ofList_inj]
  exact ⟨Text.joinWith_inj (fun _ => slash_not_mem_of_mem_parts) (fun _ => slash_not_mem_of_mem_parts)
    (nil_not_mem_parts q) (nil_not_mem_parts p), fun h => h ▸ rfl⟩

theorem under_inj {pre q p : String} : under pre q = under pre p ↔ segments q = segments p := by
  rw [under, under]
  split
  · exact ofPath_inj
  · rw [ofPath_inj, ← parts_inj, parts_append, parts_append, List.append_cancel_left_eq, parts_inj]

end Injective

section Unchanged

/-- A part that stands in a key as it is. -/
structure IsPlainPart (p : List Char) : Prop where
  ne_nil : p ≠ []
  ne_dot : p ≠ ['.']
  ne_dots : p ≠ ['.', '.']
  plain : ∀ c ∈ p, isPlainChar c

/-- What is written as one character is plain: other bytes are written as three. -/
theorem isPlainChar_of_length {c : Char} (h : ((String.utf8EncodeChar c).flatMap encodeByte).length = 1) :
    isPlainChar c := by
  obtain ⟨b, r, hbytes⟩ := List.exists_cons_of_ne_nil (String.utf8EncodeChar_ne_nil (c := c))
  rw [hbytes, List.flatMap_cons, List.length_append] at h
  rcases encodeByte_cases b with ⟨hplain, hlt, -, -⟩ | ⟨-, hb⟩
  · have hc : c.toNat < 128 := by
      by_contra hge
      have := Text.le_of_mem_utf8EncodeChar (Nat.not_lt.1 hge) (hbytes ▸ List.mem_cons_self)
      omega
    rw [Text.utf8EncodeChar_of_lt hc] at hbytes
    rw [← isPlain_toUInt8 hc, (List.cons.inj hbytes).1, hplain]
  · simp only [hb, List.length_cons] at h
    omega

theorem encodeText_eq_self_iff {l : List Char} : encodeText l = l ↔ ∀ c ∈ l, isPlainChar c := by
  constructor
  · intro h c hc
    have hne (c : Char) : (String.utf8EncodeChar c).flatMap encodeByte ≠ [] := by
      obtain ⟨b, r, hbytes⟩ := List.exists_cons_of_ne_nil (String.utf8EncodeChar_ne_nil (c := c))
      simp [hbytes, encodeByte_ne_nil]
    exact isPlainChar_of_length ((length_flatMap_eq_iff hne).1 (congrArg List.length h) c hc)
  · exact encodeText_of_plain

theorem encodePart_eq_self_iff {p : List Char} : encodePart p = p ↔
    p ≠ ['.'] ∧ p ≠ ['.', '.'] ∧ ∀ c ∈ p, isPlainChar c := by
  constructor
  · intro h
    have hone : p ≠ ['.'] := by
      rintro rfl
      exact absurd h (by decide)
    have htwo : p ≠ ['.', '.'] := by
      rintro rfl
      exact absurd h (by decide)
    rw [encodePart_eq hone htwo] at h
    exact ⟨hone, htwo, encodeText_eq_self_iff.1 h⟩
  · rintro ⟨hone, htwo, hplain⟩
    rw [encodePart_eq hone htwo, encodeText_of_plain hplain]

/-- A text is its own key exactly if none of its parts changes or is dropped. -/
theorem ofPath_eq_self_iff {path : String} (hne : path ≠ "") :
    ofPath path = path ↔ ∀ p ∈ Text.splitOn '/' path.toList, IsPlainPart p := by
  constructor
  · intro h p hp
    have htext : path.toList = Text.joinWith ['/'] (parts path) := by
      have htext := congrArg String.toList h
      rw [ofPath, String.toList_ofList] at htext
      exact htext.symm
    have hparts : parts path ≠ [] := by
      intro hnil
      rw [hnil] at htext
      exact hne (String.toList_eq_nil_iff.1 htext)
    have hsplit : Text.splitOn '/' path.toList = parts path := by
      rw [htext, Text.splitOn_joinWith hparts fun _ => slash_not_mem_of_mem_parts]
    have hnil : [] ∉ Text.splitOn '/' path.toList := hsplit ▸ nil_not_mem_parts path
    have hself : (Text.splitOn '/' path.toList).map encodePart = (Text.splitOn '/' path.toList).map id := by
      rw [List.map_id, ← parts_eq hnil, hsplit]
    obtain ⟨hone, htwo, hplain⟩ := encodePart_eq_self_iff.1 (List.map_inj_left.1 hself p hp)
    exact ⟨fun he => hnil (he ▸ hp), hone, htwo, hplain⟩
  · intro h
    refine ofPath_of_plain (fun hnil => (h [] hnil).ne_nil rfl) fun p hp => ?_
    exact encodePart_eq_self_iff.2 ⟨(h p hp).ne_dot, (h p hp).ne_dots, (h p hp).plain⟩

end Unchanged

end Rollcall.Key
