import Mathlib.Data.List.Basic
import Mathlib.Data.List.Nodup
import Rollcall.Admission.Whitelist
import Rollcall.Proofs.Admission.Table
import Rollcall.Proofs.Ledger
import Rollcall.Proofs.List

/-! The whitelist of a table that is written with every cell in quotes. Whatever the cells hold, the submitters
are the trimmed cells of the key's column, each with the trimmed other cells of its last row. The delimiter
is guessed from the line of the header, which is why the names in it may hold no tabs and no line feeds. -/

namespace Rollcall.Whitelist

open Table (line writeRow IsDelimiter)

/-- A cell as the whitelist has it. -/
def trimmed (c : String) : String := String.ofList (Text.trim c.toList)

/-- The text of a table with a line for each record. -/
def written (d : Char) (l : List (List String)) : String :=
  String.ofList (l.flatMap fun r => writeRow d (r.map String.toList))

/-- The key of a row: the trimmed cell of that column, if it is there and not empty. -/
def keyOf? (i : Nat) (r : List String) : Option String := (r[i]?.map trimmed).filter (· ≠ "")

/-- The other cells of a row by column. -/
def details (header : List String) (i : Nat) (r : List String) : Ledger String String :=
  .ofList ((header.zip (r.map trimmed)).eraseIdx i)

variable {d : Char} {header : List String} {i : Nat} {r : List String}

section Delimiter

theorem isDelimiter (hd : d = ',' ∨ d = '\t') : IsDelimiter d := by
  rcases hd with rfl | rfl <;> exact ⟨by decide, by decide⟩

/-- Two cells have a delimiter between them. -/
theorem mem_line (d : Char) {cells : List (List Char)} (h : 2 ≤ cells.length) : d ∈ line d cells := by
  match cells, h with
  | c :: e :: r, _ => simp [Table.line_cons]

/-- Tabs part the cells of the first line if it has any. -/
theorem delimiter?_written (hd : d = ',' ∨ d = '\t' ∧ 2 ≤ header.length) (hne : header ≠ [])
    (hnames : ∀ n ∈ header, '\t' ∉ n.toList ∧ '\n' ∉ n.toList) (l : List (List String)) :
    delimiter? (written d (header :: l)).toList = some d := by
  have hcells : header.map String.toList ≠ [] := by simpa using hne
  have hdelimiter : d = ',' ∨ d = '\t' := hd.imp_right And.left
  have hfeed : '\n' ∉ line d (header.map String.toList) := by
    intro hm
    rcases Table.mem_of_mem_line hm with hq | hd' | ⟨c, hc, hx⟩
    · contradiction
    · exact (isDelimiter hdelimiter).ne_lineFeed hd'.symm
    · obtain ⟨n, hn, rfl⟩ := List.mem_map.1 hc
      exact (hnames n hn).2 hx
  have htab : '\t' ∈ line d (header.map String.toList) ↔ d = '\t' := by
    constructor
    · intro hm
      rcases Table.mem_of_mem_line hm with hq | hd' | ⟨c, hc, hx⟩
      · contradiction
      · exact hd'.symm
      · obtain ⟨n, hn, rfl⟩ := List.mem_map.1 hc
        exact absurd hx (hnames n hn).1
    · rintro rfl
      refine mem_line _ ?_
      rcases hd with h | h
      · contradiction
      · simpa using h.2
  obtain ⟨k, hk⟩ := Table.exists_line_eq_concat d hcells
  have hline : Text.dropReturn (line d (header.map String.toList)) = line d (header.map String.toList) := by
    rw [hk]
    exact Text.dropReturn_of_concat k (by decide)
  have hblank : (line d (header.map String.toList)).all Text.isBlank = false := by
    rw [hk, List.all_append]
    exact Bool.and_eq_false_iff.2 (.inr (by decide))
  have hlines : Text.lines (written d (header :: l)).toList = line d (header.map String.toList) ::
      Text.lines (l.flatMap fun r => writeRow d (r.map String.toList)) := by
    rw [written, String.toList_ofList, List.flatMap_cons, Table.writeRow_eq, List.append_assoc,
      List.singleton_append, Text.lines_cons hfeed, hline]
  rw [delimiter?, hlines, List.find?_cons_of_pos (by simp [hblank]), Option.map_some, List.contains_eq_mem]
  rcases hdelimiter with rfl | rfl <;> simp [htab]

end Delimiter

section Rows

theorem addRow_of_none (h : keyOf? i r = none) (header : List String) (w : Whitelist) :
    addRow header i w (r.map trimmed) = w := by
  rw [keyOf?] at h
  rw [addRow, List.getElem?_map]
  rcases hr : r[i]?.map trimmed with _ | k
  · rfl
  · have hk : k = "" := by simpa [hr, Option.filter] using h
    simp [hk]

theorem addRow_of_some {k : String} (h : keyOf? i r = some k) (header : List String) (w : Whitelist) :
    addRow header i w (r.map trimmed) = w.insert k (details header i r) := by
  obtain ⟨hr, hk⟩ := Option.filter_eq_some_iff.1 h
  have hne : k ≠ "" := by simpa using hk
  rw [addRow, List.getElem?_map, hr]
  simp [hne, details]

/-- Rows that are filed one after the other are filed by their keys, the last one of a key for good. -/
theorem get?_foldl_addRow (header : List String) (i : Nat) (l : List (List String)) (k : String) :
    ((l.map (·.map trimmed)).foldl (addRow header i) .empty).get? k =
      (l.filter fun r => keyOf? i r = some k).getLast?.map (details header i) := by
  have hfold : (l.map (·.map trimmed)).foldl (addRow header i) .empty =
      .ofList (l.filterMap fun r => (keyOf? i r).map fun k => (k, details header i r)) := by
    rw [Ledger.ofList, List.foldl_filterMap, List.foldl_map]
    congr 1
    funext w r
    rcases hr : keyOf? i r with _ | k
    · exact addRow_of_none hr header w
    · exact addRow_of_some hr header w
  rw [hfold, Ledger.get?_ofList, filter_filterMap_key, List.getLast?_map, Option.map_map]
  rfl

/-- A short row says nothing of the last columns, and what a long one has behind them is dropped. -/
theorem get?_details (hheader : header.Nodup) {c v : String} :
    (details header i r).get? c = some v ↔
      ∃ j, j ≠ i ∧ header[j]? = some c ∧ r[j]?.map trimmed = some v := by
  have hkeys : (((header.zip (r.map trimmed)).eraseIdx i).map (·.1)).Nodup := by
    exact hheader.sublist (((List.eraseIdx_sublist _ _).map _).trans (map_fst_zip_sublist _ _))
  rw [details, Ledger.get?_ofList_of_nodup hkeys, List.mem_eraseIdx_iff_getElem?]
  simp only [List.getElem?_zip_eq_some, List.getElem?_map]

theorem cells_written (hd : IsDelimiter d) (l : List (List String)) :
    (Table.rows d (written d l).toList).map (·.map fun c => String.ofList (Text.trim c)) =
      (l.filter (· ≠ [])).map (·.map trimmed) := by
  have htext : (written d l).toList = (l.map (·.map String.toList)).flatMap (writeRow d) := by
    rw [written, String.toList_ofList, List.flatMap_map]
  rw [htext, Table.rows_written hd, List.filter_map, List.map_map]
  simp [Function.comp_def, trimmed]

end Rows

/-- Going through the rows in order, each one with a key is filed under it, in place of an earlier one: its
trimmed other cells, by the names of their columns. -/
theorem ofTable_written (hd : d = ',' ∨ d = '\t' ∧ 2 ≤ header.length) (hheader : header.Nodup)
    (hnames : ∀ n ∈ header, trimmed n = n ∧ '\t' ∉ n.toList ∧ '\n' ∉ n.toList) (l : List (List String))
    (hi : i < header.length) : ∃ w, ofTable (written d (header :: l)) header[i] = .ok w ∧
      ∀ k, match (l.filter fun r => keyOf? i r = some k).getLast? with
        | none => w.get? k = none
        | some r => ∃ m, w.get? k = some m ∧ ∀ c v, m.get? c = some v ↔
            ∃ j, j ≠ i ∧ header[j]? = some c ∧ r[j]?.map trimmed = some v := by
  have hne : header ≠ [] := List.ne_nil_of_length_pos (Nat.zero_lt_of_lt hi)
  have hguess := delimiter?_written hd hne (fun n hn => (hnames n hn).2) l
  have hcells := cells_written (isDelimiter (hd.imp_right And.left)) (header :: l)
  have hcolumns : header.map trimmed = header := by
    rw [List.map_congr_left fun n hn => (hnames n hn).1, List.map_id']
  have hcolumn : header.findIdx? (· = header[i]) = some i := by
    rw [List.findIdx?_eq_some_iff_getElem]
    exact ⟨hi, by simp, fun j hj => by simp [hheader.getElem_inj_iff, Nat.ne_of_lt hj]⟩
  have hkeys (k : String) : (l.filter (· ≠ [])).filter (fun r => keyOf? i r = some k) =
      l.filter fun r => keyOf? i r = some k := by
    rw [List.filter_filter]
    refine List.filter_congr fun r _ => ?_
    cases r <;> simp [keyOf?]
  rw [List.filter_cons_of_pos (by simpa using hne), List.map_cons, hcolumns] at hcells
  refine ⟨((l.filter (· ≠ [])).map (·.map trimmed)).foldl (addRow header i) .empty, ?_, fun k => ?_⟩
  · simp only [ofTable, hguess, hcells, List.headD_cons, hcolumn, List.tail_cons]
  · rw [get?_foldl_addRow, hkeys]
    rcases (l.filter fun r => keyOf? i r = some k).getLast? with _ | r
    · rfl
    · exact ⟨_, rfl, fun c v => get?_details hheader⟩

section AlicesRows

def columns : List String := ["name", "key"]

/-- Two rows of alice, the first with a name that holds all that parts cells, and rows without a key. -/
def alicesRows : List (List String) :=
  [["Doe, \"A\"\tB\n", " alice "], ["nobody"], [], ["blank", " \n"], ["A. Doe ", "alice", "surplus"]]

/-- The last row of alice is the one that counts. -/
theorem ofTable_written_alicesRows :
    (('\t' = ',' ∨ '\t' = '\t' ∧ 2 ≤ columns.length) ∧ columns.Nodup ∧
      (∀ n ∈ columns, trimmed n = n ∧ '\t' ∉ n.toList ∧ '\n' ∉ n.toList) ∧ 1 < columns.length) ∧
    ∃ w, ofTable (written '\t' (columns :: alicesRows)) "key" = .ok w ∧ w.get? "nobody" = none ∧
      ∃ m, w.get? "alice" = some m ∧ m.get? "name" = some "A. Doe" := by
  have hd : '\t' = ',' ∨ '\t' = '\t' ∧ 2 ≤ columns.length := .inr ⟨rfl, by decide⟩
  have hheader : columns.Nodup := by decide
  have hnames : ∀ n ∈ columns, trimmed n = n ∧ '\t' ∉ n.toList ∧ '\n' ∉ n.toList := by decide +kernel
  have hi : 1 < columns.length := by decide
  obtain ⟨w, hw, hmap⟩ := ofTable_written hd hheader hnames alicesRows hi
  have hnobody : (alicesRows.filter fun r => keyOf? 1 r = some "nobody").getLast? = none := by decide +kernel
  have halice : (alicesRows.filter fun r => keyOf? 1 r = some "alice").getLast? =
      some ["A. Doe ", "alice", "surplus"] := by decide +kernel
  have hnone := hmap "nobody"
  rw [hnobody] at hnone
  have hsome := hmap "alice"
  rw [halice] at hsome
  obtain ⟨m, hm, hcells⟩ := hsome
  exact ⟨⟨hd, hheader, hnames, hi⟩, w, hw, hnone, m, hm, (hcells _ _).2 ⟨0, by decide, rfl, by decide +kernel⟩⟩

end AlicesRows

end Rollcall.Whitelist
