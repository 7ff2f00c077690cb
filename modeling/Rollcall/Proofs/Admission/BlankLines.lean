import Rollcall.Proofs.Admission.Whitelist
import Rollcall.Proofs.Admission.Table
import Rollcall.Proofs.Text.Blank

/-! Lines of spaces in a table without quotes. Behind the header they change nothing: the line from which the
delimiter is guessed is the first that is not blank, and a record of spaces has no key. In front of the header the
two readers part. The guess passes over a line of spaces, while the reader of records passes over empty lines alone
and takes the spaces for the names of the columns; and a byte order mark is dropped only where nothing stands in
front of it. -/

namespace Rollcall.Whitelist

open Table (unmarked)

/-- Nothing but spaces, if anything. -/
def isSpaces (l : List Char) : Bool := l.all (· = ' ')

/-- The second list of lines is the first one with lines of spaces anywhere. -/
inductive Padded : List (List Char) → List (List Char) → Prop
  | nil : Padded [] []
  | keep {ls ls' : List (List Char)} (l : List Char) (h : Padded ls ls') : Padded (l :: ls) (l :: ls')
  | blank {ls ls' : List (List Char)} {l : List Char} (hl : isSpaces l) (h : Padded ls ls') : Padded ls (l :: ls')

/-- The lines of a table, with what follows the last line feed. -/
def linesOf (t : String) : List (List Char) := Text.splitOn '\n' t.toList

/-- The lines that are read as records. -/
def recordsOf (t : String) : List (List Char) := (Text.splitOn '\n' (unmarked t.toList)).filter (· ≠ [])

def cellsOf (d : Char) (l : List Char) : List String :=
  (Text.splitOn d l).map fun c => String.ofList (Text.trim c)

/-- The names of the columns. -/
def columnsOf (t : String) : List String :=
  (recordsOf t).head?.elim [] (cellsOf ((delimiter? t.toList).getD ','))

/-- A byte order mark stays in front, and the first record is the same line. -/
structure KeepsHeader (t t' : String) : Prop where
  mark : t.toList.head? = some '\ufeff' → t'.toList.head? = some '\ufeff'
  line : (recordsOf t').head? = (recordsOf t).head?

variable {t t' column : String} {ls ls' : List (List Char)} {l : List Char} {d : Char}

section Delimiter

theorem delimiter?_eq_head? {s : List Char} (hreturn : '\r' ∉ s) : delimiter? s =
    ((Text.splitOn '\n' s).filter fun l => !l.all Text.isBlank).head?.map fun l =>
      if l.contains '\t' then '\t' else ',' := by
  rw [delimiter?, ← List.head?_filter, Text.filter_lines hreturn rfl]

theorem isDelimiter_of_delimiter? {s : List Char} (h : delimiter? s = some d) : d = ',' ∨ d = '\t' := by
  obtain ⟨l, -, rfl⟩ := Option.map_eq_some_iff.1 h
  split
  · exact .inr rfl
  · exact .inl rfl

theorem getD_delimiter? (s : List Char) : (delimiter? s).getD ',' = ',' ∨ (delimiter? s).getD ',' = '\t' := by
  rcases h : delimiter? s with _ | d
  · exact .inl rfl
  · exact isDelimiter_of_delimiter? h

end Delimiter

section Reading

theorem isBlank_of_isSpaces (h : isSpaces l) : l.all Text.isBlank := by
  refine List.all_eq_true.2 fun c hc => ?_
  rw [of_decide_eq_true (List.all_eq_true.1 h c hc)]
  decide

theorem cellsOf_of_isSpaces (hd : d = ',' ∨ d = '\t') (hl : isSpaces l) : cellsOf d l = [""] := by
  have hcut : d ∉ l := by
    intro hmem
    have hspace : d = ' ' := of_decide_eq_true (List.all_eq_true.1 hl d hmem)
    rcases hd with rfl | rfl <;> contradiction
  have htrim : Text.trim l = [] := Text.trim_of_blank (List.all_eq_true.1 (isBlank_of_isSpaces hl))
  rw [cellsOf, Text.splitOn_of_not_mem hcut, List.map_singleton, htrim]

theorem addRow_blank (columns : List String) (key : Nat) (w : Whitelist) : addRow columns key w [""] = w := by
  cases key <;> simp [addRow]

/-- Lines of spaces file nothing. -/
theorem foldl_addRow_filter (hd : d = ',' ∨ d = '\t') (columns : List String) (key : Nat)
    (ls : List (List Char)) (w : Whitelist) :
    ((ls.filter (!isSpaces ·)).map (cellsOf d)).foldl (addRow columns key) w =
      (ls.map (cellsOf d)).foldl (addRow columns key) w := by
  induction ls generalizing w with
  | nil => rfl
  | cons l ls ih =>
    rw [List.map_cons, List.foldl_cons, ← ih]
    by_cases hl : isSpaces l
    · rw [List.filter_cons_of_neg (by simp [hl]), cellsOf_of_isSpaces hd hl, addRow_blank]
    · rw [List.filter_cons_of_pos (by simp [hl])]
      rfl

theorem ofTable_of_delimiter? (hquote : '"' ∉ t.toList) (hreturn : '\r' ∉ t.toList)
    (hd : delimiter? t.toList = some d) (column : String) : ofTable t column =
      match (columnsOf t).findIdx? (· = column) with
      | none => .error (.missingColumn column)
      | some key => .ok (((recordsOf t).tail.map (cellsOf d)).foldl (addRow (columnsOf t) key) .empty) := by
  have hrows : (Table.rows d t.toList).map (·.map fun c => String.ofList (Text.trim c)) =
      (recordsOf t).map (cellsOf d) := by
    rw [Table.rows_plain (isDelimiter (isDelimiter_of_delimiter? hd)) hquote hreturn, List.map_map]
    rfl
  have hcolumns : ((recordsOf t).map (cellsOf d)).headD [] = columnsOf t := by
    rw [columnsOf, hd]
    cases recordsOf t <;> rfl
  rcases hkey : (columnsOf t).findIdx? (· = column) with _ | key <;>
    simp only [ofTable, hd, hrows, hcolumns, hkey, List.map_tail]

end Reading

section Padded

/-- What passes over lines of spaces does not see them. -/
theorem Padded.filter_eq {p : List Char → Bool} (hp : ∀ l, isSpaces l → p l = false) (h : Padded ls ls') :
    ls'.filter p = ls.filter p := by
  induction h with
  | nil => rfl
  | keep l h ih => rw [List.filter_cons, List.filter_cons, ih]
  | blank hl h ih => rw [List.filter_cons_of_neg (by simp [hp _ hl]), ih]

/-- The first line that is not empty stays what it is, unless spaces come before it. -/
theorem Padded.head?_filter (h : Padded ls ls') : (ls'.filter (· ≠ [])).head? = (ls.filter (· ≠ [])).head? ∨
    ∃ l, isSpaces l ∧ (ls'.filter (· ≠ [])).head? = some l := by
  induction h with
  | nil => exact .inl rfl
  | keep l h ih =>
    by_cases hl : l = []
    · simpa [hl] using ih
    · exact .inl (by simp [hl])
  | @blank _ _ l hl h ih =>
    by_cases hnil : l = []
    · simpa [hnil] using ih
    · exact .inr ⟨l, hl, by simp [hnil]⟩

/-- A mark in front of the padded text stands in front of the other one too, and is not part of what is
padded. -/
theorem Padded.exists_of_marked {s r' : List Char}
    (h : Padded (Text.splitOn '\n' s) (Text.splitOn '\n' ('\ufeff' :: r'))) :
    ∃ r, s = '\ufeff' :: r ∧ Padded (Text.splitOn '\n' r) (Text.splitOn '\n' r') := by
  have hmark : '\ufeff' ≠ '\n' := by decide
  obtain ⟨p', ps', hp', hcut'⟩ := Text.splitOn_cons_of_ne hmark r'
  rw [hcut'] at h
  generalize hcut : Text.splitOn '\n' s = ls at h
  cases h with
  | blank hl h => simp [isSpaces] at hl
  | keep l h =>
    cases s with
    | nil => simp [Text.splitOn] at hcut
    | cons c r =>
      by_cases hc : c = '\n'
      · simp [Text.splitOn, hc] at hcut
      · obtain ⟨p, ps, hp, hcut''⟩ := Text.splitOn_cons_of_ne hc r
        rw [hcut''] at hcut
        obtain ⟨⟨rfl, rfl⟩, rfl⟩ : (c = '\ufeff' ∧ p = p') ∧ ps = _ := by simpa using hcut
        exact ⟨r, rfl, by rw [hp, hp']; exact .keep p h⟩

theorem Padded.unmarked (hmark : t.toList.head? = some '\ufeff' → t'.toList.head? = some '\ufeff')
    (h : Padded (linesOf t) (linesOf t')) :
    Padded (Text.splitOn '\n' (unmarked t.toList)) (Text.splitOn '\n' (unmarked t'.toList)) := by
  rw [linesOf, linesOf] at h
  by_cases hm : t'.toList.head? = some '\ufeff'
  · obtain ⟨r', hr'⟩ := List.head?_eq_some_iff.1 hm
    rw [hr'] at h
    obtain ⟨r, hr, hrest⟩ := h.exists_of_marked
    rw [hr, hr']
    simpa [Table.unmarked] using hrest
  · rwa [Table.unmarked, Table.unmarked, if_neg hm, if_neg (mt hmark hm)]

/-- The records that are not lines of spaces are those that were there. -/
theorem filter_recordsOf (hmark : t.toList.head? = some '\ufeff' → t'.toList.head? = some '\ufeff')
    (h : Padded (linesOf t) (linesOf t')) :
    (recordsOf t').filter (!isSpaces ·) = (recordsOf t).filter (!isSpaces ·) := by
  rw [recordsOf, recordsOf, List.filter_filter, List.filter_filter]
  exact (h.unmarked hmark).filter_eq fun l hl => by simp [hl]

/-- A table whose header is not kept has one column, without a name. -/
theorem columnsOf_eq_of_not_keepsHeader (h : Padded (linesOf t) (linesOf t'))
    (hmark : t.toList.head? ≠ some '\ufeff') (hkeep : ¬KeepsHeader t t') : columnsOf t' = [""] := by
  have hpad := h.unmarked fun hm => absurd hm hmark
  rcases hpad.head?_filter with hline | ⟨l, hl, hline⟩
  · exact absurd ⟨fun hm => absurd hm hmark, hline⟩ hkeep
  · rw [columnsOf, recordsOf, hline]
    exact cellsOf_of_isSpaces (getD_delimiter? _) hl

theorem Padded.not_mem_lines (h : Padded ls ls') {c : Char} (hspace : c ≠ ' ') (hls : ∀ l ∈ ls, c ∉ l) :
    ∀ l ∈ ls', c ∉ l := by
  induction h with
  | nil => exact hls
  | keep l h ih =>
    obtain ⟨hl, hrest⟩ := List.forall_mem_cons.1 hls
    exact List.forall_mem_cons.2 ⟨hl, ih hrest⟩
  | blank hl h ih =>
    refine List.forall_mem_cons.2 ⟨fun hmem => ?_, ih hls⟩
    exact hspace (of_decide_eq_true (List.all_eq_true.1 hl c hmem))

/-- Padding brings spaces and line feeds into a table and nothing else. -/
theorem Padded.not_mem (h : Padded (linesOf t) (linesOf t')) {c : Char} (hspace : c ≠ ' ') (hfeed : c ≠ '\n')
    (hc : c ∉ t.toList) : c ∉ t'.toList := by
  have hlines := h.not_mem_lines hspace fun l hl hcl => hc (Text.mem_of_mem_splitOn hl hcl)
  intro hmem
  rw [← Text.joinWith_splitOn '\n' t'.toList] at hmem
  rcases Text.mem_of_mem_joinWith hmem with hsep | ⟨p, hp, hcp⟩
  · exact hfeed (List.mem_singleton.1 hsep)
  · exact hlines p hp hcp

theorem Padded.delimiter?_eq (h : Padded (linesOf t) (linesOf t')) (hreturn : '\r' ∉ t.toList) :
    delimiter? t'.toList = delimiter? t.toList := by
  have hlines : (linesOf t').filter (fun l => !l.all Text.isBlank) =
      (linesOf t).filter fun l => !l.all Text.isBlank :=
    h.filter_eq fun l hl => by rw [isBlank_of_isSpaces hl]; rfl
  rw [linesOf, linesOf] at hlines
  rw [delimiter?_eq_head? hreturn, delimiter?_eq_head? (h.not_mem (by decide) (by decide) hreturn), hlines]

end Padded

theorem ofTable_eq_of_keepsHeader (hpad : Padded (linesOf t) (linesOf t')) (hquote : '"' ∉ t.toList)
    (hreturn : '\r' ∉ t.toList) (hkeep : KeepsHeader t t') (column : String) :
    ofTable t' column = ofTable t column := by
  have hquote' : '"' ∉ t'.toList := hpad.not_mem (by decide) (by decide) hquote
  have hreturn' : '\r' ∉ t'.toList := hpad.not_mem (by decide) (by decide) hreturn
  have hguess := hpad.delimiter?_eq hreturn
  have hcolumns : columnsOf t' = columnsOf t := by rw [columnsOf, columnsOf, hkeep.line, hguess]
  have htail := filter_tail_eq hkeep.line (filter_recordsOf hkeep.mark hpad)
  rcases hd : delimiter? t.toList with _ | d
  · rw [ofTable, ofTable, hguess, hd]
  · have hfold (key : Nat) := foldl_addRow_filter (isDelimiter_of_delimiter? hd) (columnsOf t) key
    rw [ofTable_of_delimiter? hquote' hreturn' (hguess.trans hd), ofTable_of_delimiter? hquote hreturn hd, hcolumns]
    rcases (columnsOf t).findIdx? (· = column) with _ | key
    · rfl
    · exact congrArg Except.ok (by rw [← hfold, htail, hfold])

/-- Lines of spaces in a table without quotes change nothing if the header stays the first record. If it does not,
the answer for a column that is no longer found stays the same only where it was an error before; and a table
without a byte order mark has no column left but one without a name. -/
theorem ofTable_padded (hpad : Padded (linesOf t) (linesOf t')) (hquote : '"' ∉ t.toList)
    (hreturn : '\r' ∉ t.toList) :
    (KeepsHeader t t' → ∀ column, ofTable t' column = ofTable t column) ∧
    (¬KeepsHeader t t' → (t.toList.head? ≠ some '\ufeff' → columnsOf t' = [""]) ∧
      ∀ column, column ∉ columnsOf t' →
        (ofTable t' column = ofTable t column ↔ ∃ e, ofTable t column = .error e)) := by
  refine ⟨ofTable_eq_of_keepsHeader hpad hquote hreturn, fun hkeep =>
    ⟨fun hmark => columnsOf_eq_of_not_keepsHeader hpad hmark hkeep, fun column hcolumn => ?_⟩⟩
  have hquote' : '"' ∉ t'.toList := hpad.not_mem (by decide) (by decide) hquote
  have hreturn' : '\r' ∉ t'.toList := hpad.not_mem (by decide) (by decide) hreturn
  have hguess := hpad.delimiter?_eq hreturn
  rcases hd : delimiter? t.toList with _ | d
  · rw [ofTable, ofTable, hguess, hd]
    simp
  · have hmissing : (columnsOf t').findIdx? (· = column) = none := by
      refine List.findIdx?_eq_none_iff.2 fun c hc => ?_
      exact decide_eq_false fun heq => hcolumn (heq ▸ hc)
    rw [ofTable_of_delimiter? hquote' hreturn' (hguess.trans hd), hmissing, ofTable_of_delimiter? hquote hreturn hd]
    rcases (columnsOf t).findIdx? (· = column) with _ | key <;> simp

section AlicesRoll

def alicesRoll : String := "key\nB62qalice\n"

theorem linesOf_alicesRoll : linesOf alicesRoll = ["key".toList, "B62qalice".toList, []] := by
  decide +kernel

/-- An empty line in front, spaces behind the header and an empty line at the end. -/
theorem ofTable_padded_alicesRoll :
    let t' := "\nkey\n  \nB62qalice\n\n"
    (Padded (linesOf alicesRoll) (linesOf t') ∧ '"' ∉ alicesRoll.toList ∧ '\r' ∉ alicesRoll.toList) ∧
      KeepsHeader alicesRoll t' ∧ ∀ column, ofTable t' column = ofTable alicesRoll column := by
  intro t'
  have hpad : Padded (linesOf alicesRoll) (linesOf t') := by
    have hlines : linesOf t' = [[], "key".toList, "  ".toList, "B62qalice".toList, [], []] := by
      decide +kernel
    rw [linesOf_alicesRoll, hlines]
    exact .blank rfl (.keep _ (.blank rfl (.keep _ (.blank rfl (.keep _ .nil)))))
  have hquote : '"' ∉ alicesRoll.toList := by decide +kernel
  have hreturn : '\r' ∉ alicesRoll.toList := by decide +kernel
  have hkeep : KeepsHeader alicesRoll t' := ⟨by decide +kernel, by decide +kernel⟩
  exact ⟨⟨hpad, hquote, hreturn⟩, hkeep, (ofTable_padded hpad hquote hreturn).1 hkeep⟩

/-- A line with one space in front of the header hides the column. -/
theorem alicesRoll_indented :
    let t' := " \nkey\nB62qalice\n"
    (Padded (linesOf alicesRoll) (linesOf t') ∧ '"' ∉ alicesRoll.toList ∧ '\r' ∉ alicesRoll.toList) ∧
      (∃ w, ofTable alicesRoll "key" = .ok w) ∧ ofTable t' "key" = .error (.missingColumn "key") := by
  intro t'
  have hquote : '"' ∉ alicesRoll.toList := by decide +kernel
  have hreturn : '\r' ∉ alicesRoll.toList := by decide +kernel
  have hpad : Padded (linesOf alicesRoll) (linesOf t') := by
    have hlines : linesOf t' = [" ".toList, "key".toList, "B62qalice".toList, []] := by decide +kernel
    rw [linesOf_alicesRoll, hlines]
    exact .blank rfl (.keep _ (.keep _ (.keep _ .nil)))
  have hguess : delimiter? alicesRoll.toList = some ',' := by decide +kernel
  have hguess' : delimiter? t'.toList = some ',' := by decide +kernel
  have hcolumns : columnsOf alicesRoll = ["key"] := by decide +kernel
  have hcolumns' : columnsOf t' = [""] := by decide +kernel
  refine ⟨⟨hpad, hquote, hreturn⟩, ?_, ?_⟩
  · rw [ofTable_of_delimiter? hquote hreturn hguess, hcolumns]
    exact ⟨_, rfl⟩
  · rw [ofTable_of_delimiter? (by decide +kernel) (by decide +kernel) hguess', hcolumns']
    rfl

end AlicesRoll

end Rollcall.Whitelist
