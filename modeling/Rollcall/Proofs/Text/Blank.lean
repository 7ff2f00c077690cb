import Rollcall.Proofs.List
import Rollcall.Text.Blank

/-! Blanks around a text. What trimming leaves does not depend on blanks in front, and a text that neither begins nor
ends with a blank is left as it is. -/

namespace Rollcall.Text

variable {s : List Char}

theorem trimStart_eq_self (h : ∀ c ∈ s.head?, isBlank c = false) : trimStart s = s :=
  (dropWhile_eq_iff h).2 ⟨[], List.forall_mem_nil _, rfl⟩

theorem trimStart_append (b : List Char) (hb : ∀ c ∈ b, isBlank c) (s : List Char) :
    trimStart (b ++ s) = trimStart s :=
  List.dropWhile_append_of_pos hb

theorem trim_append (b : List Char) (hb : ∀ c ∈ b, isBlank c) (s : List Char) : trim (b ++ s) = trim s := by
  rw [trim, trimStart_append b hb, trim]

theorem trim_of_blank (h : ∀ c ∈ s, isBlank c) : trim s = [] := by
  rw [← List.append_nil s, trim_append s h]
  rfl

theorem trim_eq_self (hhead : ∀ c ∈ s.head?, isBlank c = false) (hlast : ∀ c ∈ s.getLast?, isBlank c = false) :
    trim s = s := by
  have hback : trimStart s.reverse = s.reverse := trimStart_eq_self (by rwa [List.head?_reverse])
  rw [trim, trimStart_eq_self hhead, trimEnd]
  exact (congrArg List.reverse hback).trans s.reverse_reverse

end Rollcall.Text
