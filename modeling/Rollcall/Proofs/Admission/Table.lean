import Rollcall.Admission.Table
import Rollcall.Proofs.Text.Split

/-! A table that is written with every cell in quotes is read back as it was, whatever the cells hold. A
record without cells is an empty line, so those are gone. A table without quotes is cut at its line feeds and
delimiters. -/

namespace Rollcall.Table

open Progress

variable {d : Char}

/-- The delimiter takes no other part in a table. -/
structure IsDelimiter (d : Char) : Prop where
  ne_quote : d ≠ '"'
  ne_lineFeed : d ≠ '\n'

section Line

/-- The line of a record, without its end. -/
def line (d : Char) (r : List (List Char)) : List Char := Text.joinWith [d] (r.map quoteCell)

theorem writeRow_eq (d : Char) (r : List (List Char)) : writeRow d r = line d r ++ ['\n'] := rfl

theorem line_cons (d : Char) (c : List Char) {r : List (List Char)} (hr : r ≠ []) :
    line d (c :: r) = quoteCell c ++ d :: line d r := by
  rw [line, List.map_cons, Text.joinWith_cons _ (by simpa using hr), List.append_assoc]
  rfl

theorem mem_of_mem_quoteCell {x : Char} {c : List Char} (h : x ∈ quoteCell c) : x = '"' ∨ x ∈ c := by
  rw [quoteCell, List.mem_append, List.mem_cons, List.mem_flatMap, List.mem_singleton] at h
  rcases h with (h | ⟨y, hy, hx⟩) | h
  · exact .inl h
  · split at hx
    · exact .inl (by simpa using hx)
    · exact .inr (List.mem_singleton.1 hx ▸ hy)
  · exact .inl h

theorem mem_of_mem_line {x : Char} {r : List (List Char)} (h : x ∈ line d r) :
    x = '"' ∨ x = d ∨ ∃ c ∈ r, x ∈ c := by
  rcases Text.mem_of_mem_joinWith h with hx | ⟨p, hp, hx⟩
  · exact .inr (.inl (List.mem_singleton.1 hx))
  · obtain ⟨c, hc, rfl⟩ := List.mem_map.1 hp
    rcases mem_of_mem_quoteCell hx with hx | hx
    · exact .inl hx
    · exact .inr (.inr ⟨c, hc, hx⟩)

/-- The line of a record with cells ends with the quote of the last one. -/
theorem exists_line_eq_concat (d : Char) {r : List (List Char)} (hr : r ≠ []) :
    ∃ k, line d r = k ++ ['"'] := by
  induction r with
  | nil => contradiction
  | cons c r ih =>
    by_cases hnil : r = []
    · subst hnil
      exact ⟨_, rfl⟩
    · obtain ⟨k, hk⟩ := ih hnil
      exact ⟨quoteCell c ++ d :: k, by rw [line_cons d c hnil, hk]; simp⟩

end Line

section Reading

/-- Inside quotes each character is kept, a doubled quote as one. -/
theorem foldl_step_quoted (d : Char) (c acc : List Char) (row : List (List Char))
    (rows : List (List (List Char))) :
    (c.flatMap fun x => if x = '"' then ['"', '"'] else [x]).foldl (step d) ⟨.quoted, acc, row, rows⟩ =
      ⟨.quoted, c.reverse ++ acc, row, rows⟩ := by
  induction c generalizing acc with
  | nil => rfl
  | cons x c ih =>
    have hcell : (if x = '"' then ['"', '"'] else [x]).foldl (step d) ⟨.quoted, acc, row, rows⟩ =
        ⟨.quoted, x :: acc, row, rows⟩ := by
      by_cases hx : x = '"'
      · simp [hx, step, keep]
      · simp [hx, step, keep]
    rw [List.flatMap_cons, List.foldl_append, hcell, ih, List.reverse_cons, List.append_assoc]
    rfl

/-- A quoted cell is read up to its last quote. -/
theorem foldl_step_quoteCell (d : Char) {s : Spot} (hs : s = .recordStart ∨ s = .cellStart) (c : List Char)
    (row : List (List Char)) (rows : List (List (List Char))) :
    (quoteCell c).foldl (step d) ⟨s, [], row, rows⟩ = ⟨.quote, c.reverse, row, rows⟩ := by
  have hopen : step d ⟨s, [], row, rows⟩ '"' = ⟨.quoted, [], row, rows⟩ := by
    rcases hs with rfl | rfl <;> simp [step, isEnd]
  rw [quoteCell, List.cons_append, List.foldl_cons, hopen, List.foldl_append, foldl_step_quoted,
    List.append_nil]
  rfl

/-- A record with cells is read up to the end of its line, from wherever a cell can begin. -/
theorem foldl_step_writeRow (hd : IsDelimiter d) {r : List (List Char)} (hr : r ≠ []) {s : Spot}
    (hs : s = .recordStart ∨ s = .cellStart) (row : List (List Char)) (rows : List (List (List Char))) :
    (writeRow d r).foldl (step d) ⟨s, [], row, rows⟩ =
      ⟨.recordStart, [], [], (row.reverse ++ r) :: rows⟩ := by
  induction r generalizing s row with
  | nil => contradiction
  | cons c r ih =>
    by_cases hnil : r = []
    · have hend : step d ⟨.quote, c.reverse, row, rows⟩ '\n' =
          ⟨.recordStart, [], [], (row.reverse ++ [c]) :: rows⟩ := by
        simp [step, bare, hd.ne_lineFeed.symm, isEnd, endRow, endCell]
      rw [hnil, writeRow, List.map_singleton, Text.joinWith, List.foldl_append, foldl_step_quoteCell d hs]
      exact hend
    · have hnext : step d ⟨.quote, c.reverse, row, rows⟩ d = ⟨.cellStart, [], c :: row, rows⟩ := by
        simp [step, bare, hd.ne_quote, endCell]
      have hrest : writeRow d (c :: r) = quoteCell c ++ d :: writeRow d r := by
        rw [writeRow_eq, line_cons d c hnil, writeRow_eq, List.append_assoc, List.cons_append]
      rw [hrest, List.foldl_append, foldl_step_quoteCell d hs, List.foldl_cons, hnext, ih hnil (.inr rfl)]
      simp

theorem foldl_step_written (hd : IsDelimiter d) (l rows : List (List (List Char))) :
    (l.flatMap (writeRow d)).foldl (step d) ⟨.recordStart, [], [], rows⟩ =
      ⟨.recordStart, [], [], (l.filter (· ≠ [])).reverse ++ rows⟩ := by
  induction l generalizing rows with
  | nil => rfl
  | cons r l ih =>
    rw [List.flatMap_cons, List.foldl_append]
    by_cases hr : r = []
    · have hblank : (writeRow d r).foldl (step d) ⟨.recordStart, [], [], rows⟩ =
          ⟨.recordStart, [], [], rows⟩ := by
        simp [hr, writeRow, Text.joinWith, step, isEnd]
      rw [hblank, ih, List.filter_cons_of_neg (by simp [hr])]
    · rw [foldl_step_writeRow hd hr (.inl rfl), ih, List.filter_cons_of_pos (by simpa using hr)]
      simp

end Reading

theorem head?_writeRow (d : Char) (r : List (List Char)) :
    (writeRow d r).head? = some '\n' ∨ (writeRow d r).head? = some '"' := by
  match r with
  | [] => exact .inl rfl
  | [c] => exact .inr rfl
  | c :: e :: r => exact .inr rfl

/-- The records that were written, those without cells left out. -/
theorem rows_written (hd : IsDelimiter d) (l : List (List (List Char))) :
    rows d (l.flatMap (writeRow d)) = l.filter (· ≠ []) := by
  have hmark : (l.flatMap (writeRow d)).head? ≠ some '\ufeff' := by
    cases l with
    | nil => simp
    | cons r l =>
      rw [List.flatMap_cons, List.head?_append]
      rcases head?_writeRow d r with h | h <;> simp [h]
  rw [rows, if_neg hmark, foldl_step_written hd, List.append_nil]
  exact List.reverse_reverse _

section Plain

/-- A text without the byte order mark in front. -/
def unmarked (s : List Char) : List Char := if s.head? = some '\ufeff' then s.tail else s

/-- A line without quotes, up to its end. -/
structure IsPlainLine (l : List Char) : Prop where
  quote : '"' ∉ l
  lineFeed : '\n' ∉ l
  lineReturn : '\r' ∉ l

theorem IsPlainLine.of_cons {c : Char} {l : List Char} (h : IsPlainLine (c :: l)) :
    (c ≠ '"' ∧ isEnd c = false) ∧ IsPlainLine l := by
  have hfeed := (List.ne_of_not_mem_cons h.lineFeed).symm
  have hreturn := (List.ne_of_not_mem_cons h.lineReturn).symm
  exact ⟨⟨(List.ne_of_not_mem_cons h.quote).symm, by simp [isEnd, hfeed, hreturn]⟩,
    List.not_mem_of_not_mem_cons h.quote, List.not_mem_of_not_mem_cons h.lineFeed,
    List.not_mem_of_not_mem_cons h.lineReturn⟩

/-- Where a reader stands on a line without quotes. -/
def IsOnLine (p : Progress) : Prop := p.spot = .cellStart ∨ p.spot = .plain

theorem IsOnLine.step_lineFeed (hd : IsDelimiter d) {p : Progress} (h : IsOnLine p) : step d p '\n' = p.endRow := by
  have hbare : bare d p '\n' = p.endRow := by simp [bare, hd.ne_lineFeed.symm, isEnd]
  rcases h with h | h <;> simpa [step, h] using hbare

theorem IsOnLine.finish_eq {p : Progress} (h : IsOnLine p) : p.finish = p.endRow.rows.reverse := by
  rcases h with h | h <;> simp [finish, h]

/-- From the first cell on the reader cuts the line at each delimiter. What it has of the cell under way goes in
front. -/
theorem foldl_step_line {l : List Char} (hl : IsPlainLine l) {p : Progress} (hp : IsOnLine p) (hcell : d ∉ p.cell) :
    IsOnLine (l.foldl (step d) p) ∧ (l.foldl (step d) p).endRow =
      { rows := (p.row.reverse ++ Text.splitOn d (p.cell.reverse ++ l)) :: p.rows } := by
  induction l generalizing p with
  | nil =>
    have hsplit : Text.splitOn d p.cell.reverse = [p.cell.reverse] := Text.splitOn_of_not_mem (by simpa using hcell)
    exact ⟨hp, by simp [endRow, endCell, hsplit]⟩
  | cons c l ih =>
    obtain ⟨⟨hquote, hend⟩, hrest⟩ := hl.of_cons
    have hbare : step d p c = p.bare d c := by
      rcases hp with h | h <;> simp [step, h, hquote]
    rw [List.foldl_cons, hbare]
    by_cases hc : c = d
    · have hcut : p.bare d c = p.endCell := by simp [bare, hc]
      have hrow := ih hrest (p := p.endCell) (.inl rfl) List.not_mem_nil
      rw [hcut, hc, Text.splitOn_append_cons, Text.splitOn_of_not_mem (by simpa using hcell)]
      simpa [endCell] using hrow
    · have hkeep : p.bare d c = p.keep .plain c := by simp [bare, hc, hend]
      have hrow := ih hrest (p := p.keep .plain c) (.inr rfl) (by simp [keep, Ne.symm hc, hcell])
      rw [hkeep]
      simpa [keep] using hrow

/-- A line that is not empty is a record. -/
theorem foldl_step_record {l : List Char} (hl : IsPlainLine l) (hne : l ≠ []) (rows : List (List (List Char))) :
    IsOnLine (l.foldl (step d) { rows }) ∧
      (l.foldl (step d) { rows }).endRow = { rows := Text.splitOn d l :: rows } := by
  have hstart : l.foldl (step d) { rows } = l.foldl (step d) { spot := .cellStart, rows } := by
    obtain ⟨c, r, rfl⟩ := List.exists_cons_of_ne_nil hne
    obtain ⟨⟨hquote, hend⟩, -⟩ := hl.of_cons
    simp [step, hquote, hend, bare, endCell, keep]
  rw [hstart]
  exact foldl_step_line hl (.inl rfl) List.not_mem_nil

theorem finish_foldl_step_lines (hd : IsDelimiter d) {ps : List (List Char)} (hne : ps ≠ [])
    (hps : ∀ p ∈ ps, IsPlainLine p) (rows : List (List (List Char))) :
    ((Text.joinWith ['\n'] ps).foldl (step d) { rows }).finish =
      rows.reverse ++ (ps.filter (· ≠ [])).map (Text.splitOn d) := by
  induction ps generalizing rows with
  | nil => contradiction
  | cons p ps ih =>
    obtain ⟨hp, hrest⟩ := List.forall_mem_cons.1 hps
    by_cases hlast : ps = []
    · by_cases hnil : p = []
      · simp [hlast, hnil, Text.joinWith, finish]
      · obtain ⟨hline, hrow⟩ := foldl_step_record (d := d) hp hnil rows
        rw [hlast, Text.joinWith, hline.finish_eq, hrow]
        simp [hnil]
    · rw [Text.joinWith_cons p hlast, List.append_assoc, List.foldl_append, List.singleton_append, List.foldl_cons]
      by_cases hnil : p = []
      · have hskip : step d { rows } '\n' = { rows } := by simp [step, isEnd]
        rw [hnil, List.foldl_nil, hskip, ih hlast hrest, List.filter_cons_of_neg (by simp)]
      · obtain ⟨hline, hrow⟩ := foldl_step_record (d := d) hp hnil rows
        rw [hline.step_lineFeed hd, hrow, ih hlast hrest, List.filter_cons_of_pos (by simpa using hnil)]
        simp

/-- The records of a table without quotes are its lines, the empty ones left out, cut at the delimiters. -/
theorem rows_plain (hd : IsDelimiter d) {s : List Char} (hquote : '"' ∉ s) (hreturn : '\r' ∉ s) :
    rows d s = ((Text.splitOn '\n' (unmarked s)).filter (· ≠ [])).map (Text.splitOn d) := by
  have hsub : unmarked s ⊆ s := by
    rw [unmarked]
    split
    · exact (List.tail_sublist s).subset
    · exact List.Subset.refl s
  have hlines : ∀ p ∈ Text.splitOn '\n' (unmarked s), IsPlainLine p := fun p hp =>
    ⟨fun h => hquote (hsub (Text.mem_of_mem_splitOn hp h)), Text.not_mem_of_mem_splitOn hp,
      fun h => hreturn (hsub (Text.mem_of_mem_splitOn hp h))⟩
  have hread := finish_foldl_step_lines hd (Text.splitOn_ne_nil '\n' (unmarked s)) hlines []
  rwa [Text.joinWith_splitOn] at hread

end Plain

end Rollcall.Table
