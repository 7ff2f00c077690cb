import Rollcall.Analysis.Report
import Rollcall.Proofs.Analysis.Uptime
import Rollcall.Proofs.Text.Decimal
import Rollcall.Proofs.Text.Split
import Rollcall.Proofs.Time.Stamp

/-! What a report says to those who read it line by line and cut the lines. Keys and addresses stand in it as
they were submitted, so one that holds a line feed or the separator adds lines or cells to the report; as long
as none does, there is a line for each row and the cells are those of the row. -/

namespace Rollcall

namespace Report

/-- The pieces of a line between semicolons with a blank behind them, found from the left. -/
def cut : List Char → List (List Char)
  | [] => [[]]
  | [c] => [[c]]
  | c :: d :: r =>
    if c = ';' ∧ d = ' ' then [] :: cut r else (cut (d :: r)).modifyHead (c :: ·)

section Cut

variable {s t : List Char}

theorem cut_ne_nil (s : List Char) : cut s ≠ [] := by
  induction s using cut.induct with
  | case1 | case2 => simp [cut]
  | case3 c d r h ih => simp [cut, h]
  | case4 c d r h ih => simpa [cut, h] using ih

theorem cut_append (s t : List Char) : cut (s ++ ';' :: ' ' :: t) = cut s ++ cut t := by
  induction s using cut.induct with
  | case1 => simp [cut]
  | case2 c => simp [cut]
  | case3 c d r h ih => simp [cut, h, ih]
  | case4 c d r h ih =>
    obtain ⟨p, ps, hp⟩ := List.exists_cons_of_ne_nil (cut_ne_nil (d :: r))
    rw [List.cons_append] at ih
    simp [cut, h, ih, hp]

/-- A text without the separator is not cut. -/
theorem cut_eq_singleton (h : ¬[';', ' '] <:+: s) : cut s = [s] := by
  induction s using cut.induct with
  | case1 | case2 => simp [cut]
  | case3 c d r hsep ih =>
    obtain ⟨rfl, rfl⟩ := hsep
    exact absurd ⟨[], r, rfl⟩ h
  | case4 c d r hsep ih =>
    have hrest : ¬[';', ' '] <:+: d :: r := fun hr => h (hr.trans (List.suffix_cons c (d :: r)).isInfix)
    simp [cut, hsep, ih hrest]

theorem length_cut_eq_one_iff : (cut s).length = 1 ↔ ¬[';', ' '] <:+: s := by
  constructor
  · rintro h ⟨a, b, rfl⟩
    have ha := List.length_pos_iff.2 (cut_ne_nil a)
    have hb := List.length_pos_iff.2 (cut_ne_nil b)
    have happend : a ++ [';', ' '] ++ b = a ++ ';' :: ' ' :: b := by simp
    rw [happend, cut_append, List.length_append] at h
    omega
  · intro h
    rw [cut_eq_singleton h]
    rfl

theorem cut_joinWith {ps : List (List Char)} (h : ps ≠ []) :
    cut (Text.joinWith [';', ' '] ps) = ps.flatMap cut := by
  induction ps with
  | nil => contradiction
  | cons p ps ih =>
    by_cases hnil : ps = []
    · subst hnil
      simp [Text.joinWith]
    · have happend : p ++ [';', ' '] ++ Text.joinWith [';', ' '] ps =
          p ++ ';' :: ' ' :: Text.joinWith [';', ' '] ps := by simp
      rw [Text.joinWith_cons p hnil, happend, cut_append, ih hnil, List.flatMap_cons]

/-- Texts with separators between them are cut apart again exactly if none holds one. -/
theorem cut_joinWith_eq_iff {ps : List (List Char)} (h : ps ≠ []) :
    cut (Text.joinWith [';', ' '] ps) = ps ↔ ∀ p ∈ ps, ¬[';', ' '] <:+: p := by
  rw [cut_joinWith h]
  constructor
  · intro heq
    have hlength := (length_flatMap_eq_iff cut_ne_nil).1 (congrArg List.length heq)
    exact fun p hp => length_cut_eq_one_iff.1 (hlength p hp)
  · intro hps
    have hcut : ps.flatMap cut = ps.flatMap ([·]) :=
      List.flatMap_congr fun p hp => cut_eq_singleton (hps p hp)
    rw [hcut, List.flatMap_singleton']

end Cut

section Printed

/-- The text has nothing that ends a line or may stand before such an end. -/
def OneLine (s : String) : Prop := '\n' ∉ s.toList ∧ '\r' ∉ s.toList

instance (s : String) : Decidable (OneLine s) := inferInstanceAs (Decidable ('\n' ∉ s.toList ∧ '\r' ∉ s.toList))

theorem oneLine_append {a b : String} : OneLine (a ++ b) ↔ OneLine a ∧ OneLine b := by
  simp only [OneLine, String.toList_append, List.mem_append, not_or]
  exact and_and_and_comm

theorem oneLine_intercalate {sep : String} {l : List String} (hsep : OneLine sep) (hl : ∀ x ∈ l, OneLine x) :
    OneLine (sep.intercalate l) := by
  constructor
  · intro h
    rcases Text.mem_of_mem_intercalate h with h | ⟨x, hx, h⟩
    · exact hsep.1 h
    · exact (hl x hx).1 h
  · intro h
    rcases Text.mem_of_mem_intercalate h with h | ⟨x, hx, h⟩
    · exact hsep.2 h
    · exact (hl x hx).2 h

theorem oneLine_ofList {s : List Char} {p : Char → Bool} (h : ∀ c ∈ s, p c) (hfeed : p '\n' = false)
    (hreturn : p '\r' = false) : OneLine (String.ofList s) := by
  rw [OneLine, String.toList_ofList]
  exact ⟨fun hmem => by simpa [hfeed] using h _ hmem, fun hmem => by simpa [hreturn] using h _ hmem⟩

/-- Spans are written with digits, blanks and the names of the units. -/
theorem oneLine_of_mem_parts {d : Nat} {us : List (Nat × String × Bool)} (hus : ∀ u ∈ us, OneLine u.2.1) :
    ∀ p ∈ Span.parts d us, OneLine p := by
  induction us generalizing d with
  | nil => simp [Span.parts]
  | cons u us ih =>
    obtain ⟨hu, hus⟩ := List.forall_mem_cons.1 hus
    have hrest := ih (d := d % u.1) hus
    have hcount : OneLine (Decimal.nat (d / u.1)) :=
      oneLine_ofList (p := Char.isDigit) (fun c => Decimal.isDigit_of_mem_digits) (by decide) (by decide)
    have hplural : OneLine (if u.2.2 && 1 < d / u.1 then "s" else "") := by
      split <;> decide
    rw [Span.parts]
    split
    · exact hrest
    · exact List.forall_mem_cons.2 ⟨oneLine_append.2 ⟨oneLine_append.2 ⟨hcount, hu⟩, hplural⟩, hrest⟩

theorem oneLine_writeInterval (d : Int) : OneLine (writeInterval d) := by
  rw [writeInterval]
  split
  · decide
  · rw [Span.write]
    split
    · decide
    · exact oneLine_intercalate (by decide) (oneLine_of_mem_parts (by decide))

theorem oneLine_stamp (t : Instant) : OneLine (String.ofList (Time.writeStamp t)) :=
  oneLine_ofList (fun _ => Time.isStampChar_of_mem_writeStamp) (by decide) (by decide)

theorem oneLine_line {cells : List String} (h : ∀ x ∈ cells, OneLine x) : OneLine (line cells) :=
  oneLine_intercalate (by decide) h

/-- No line of the header ends early. -/
theorem oneLine_of_mem_header {r : Report} : ∀ l ∈ r.header, OneLine l := by
  have hpair {a b : String} (ha : OneLine a) (hb : OneLine b) :
      OneLine (line [a, b] ++ if r.ignoreIps then "" else ";") := by
    refine oneLine_append.2 ⟨oneLine_line (by simpa using ⟨ha, hb⟩), ?_⟩
    split <;> decide
  have hheading : OneLine (line (if r.ignoreIps then ["public key", "uptime (%)"]
      else ["public key", "public ip", "uptime (%)"])) := by
    split <;> exact oneLine_line (by decide)
  intro l hl
  simp only [header, List.mem_cons, List.not_mem_nil, or_false] at hl
  rcases hl with rfl | rfl | rfl | rfl
  · exact hpair (by decide) (oneLine_stamp _)
  · exact hpair (by decide) (oneLine_stamp _)
  · exact hpair (by decide) (oneLine_writeInterval _)
  · exact hheading

/-- What percentages are written with. -/
theorem mem_writeFixed {places : Nat} {x : Binary64} {c : Char} (h : c ∈ (x.writeFixed places).toList) :
    c.isDigit ∨ c = '.' ∨ c ∈ "-".toList ∨ c ∈ "NaN".toList ∨ c ∈ "inf".toList := by
  have hsign {b : Bool} (hc : c ∈ (Binary64.sign b).toList) : c ∈ "-".toList := by
    cases b with
    | false => simp [Binary64.sign] at hc
    | true => exact hc
  cases x with
  | nan b => exact .inr (.inr (.inr (.inl h)))
  | infinite b =>
    rw [Binary64.writeFixed, String.toList_append, List.mem_append] at h
    exact .inr (.inr (h.elim (fun hc => .inl (hsign hc)) fun hc => .inr (.inr hc)))
  | finite b m e =>
    rw [Binary64.writeFixed, String.toList_append, List.mem_append, String.toList_ofList, List.mem_append,
      List.mem_cons] at h
    rcases h with h | h | h | h
    · exact .inr (.inr (.inl (hsign h)))
    · exact .inl (Decimal.isDigit_of_mem_digits h)
    · exact .inr (.inl h)
    · exact .inl (Decimal.isDigit_of_mem_padded h)

theorem writeFixed_ne_nil (places : Nat) (x : Binary64) : (x.writeFixed places).toList ≠ [] := by
  cases x <;> simp [Binary64.writeFixed]

end Printed

section Legible

/-- The text neither ends a line nor holds what cuts one. -/
def PlainCell (s : String) : Prop := '\n' ∉ s.toList ∧ ¬[';', ' '] <:+: s.toList

instance (s : String) : Decidable (PlainCell s) :=
  decidable_of_iff ('\n' ∉ s.toList ∧ (cut s.toList).length = 1) (and_congr_right fun _ => length_cut_eq_one_iff)

/-- The text of the report is four lines of header and a line for each row, and these are cut into the key, the
address, unless it is left out, and the percentage of the row. -/
def Legible (r : Report) : Prop :=
  ∃ body, Text.lines r.text.toList = r.header.map String.toList ++ body ∧ r.header.length = 4 ∧
    body.map cut = r.rows.map fun u =>
      (if r.ignoreIps then [u.identity.publicKey, u.text]
        else [u.identity.publicKey, u.identity.publicIp, u.text]).map String.toList

variable {r : Report} {u : Uptime}

theorem plainCell_text (u : Uptime) : PlainCell u.text := by
  constructor
  · exact fun h => absurd (mem_writeFixed h) (by decide)
  · intro h
    have hsemicolon : ';' ∈ u.text.toList := h.subset List.mem_cons_self
    exact absurd (mem_writeFixed hsemicolon) (by decide)

theorem plainCell_cells_iff : (∀ x ∈ r.cells u, PlainCell x) ↔
    PlainCell u.identity.publicKey ∧ (r.ignoreIps = false → PlainCell u.identity.publicIp) := by
  rw [cells]
  cases r.ignoreIps <;> simp [plainCell_text]

theorem toList_line (cells : List String) :
    (line cells).toList = Text.joinWith [';', ' '] (cells.map String.toList) := Text.toList_intercalate "; " cells

theorem newline_not_mem_line {cells : List String} :
    '\n' ∉ (line cells).toList ↔ ∀ x ∈ cells, '\n' ∉ x.toList := by
  constructor
  · intro h x hx hmem
    rw [toList_line] at h
    exact h (Text.mem_joinWith_of_mem (List.mem_map_of_mem hx) hmem)
  · intro h hmem
    rcases Text.mem_of_mem_intercalate hmem with hmem | ⟨x, hx, hmem⟩
    · exact absurd hmem (by decide)
    · exact h x hx hmem

/-- Lines end with the percentage. -/
theorem dropReturn_line (r : Report) (u : Uptime) :
    Text.dropReturn (line (r.cells u)).toList = (line (r.cells u)).toList := by
  obtain ⟨front, hfront, hcells⟩ : ∃ front, front ≠ [] ∧ r.cells u = front ++ [u.text] := by
    rw [cells]
    cases r.ignoreIps with
    | false => exact ⟨[u.identity.publicKey, u.identity.publicIp], by simp, rfl⟩
    | true => exact ⟨[u.identity.publicKey], by simp, rfl⟩
  obtain ⟨k, c, htext⟩ := (List.eq_nil_or_concat u.text.toList).resolve_left (writeFixed_ne_nil 2 u.percent)
  rw [List.concat_eq_append] at htext
  have hc : c ≠ '\r' := by
    rintro rfl
    have hmem : '\r' ∈ u.text.toList := by simp [htext]
    exact absurd (mem_writeFixed hmem) (by decide)
  rw [toList_line, hcells, List.map_append, Text.joinWith_append (by simpa using hfront) (by simp),
    List.map_singleton, Text.joinWith, htext, ← List.append_assoc]
  exact Text.dropReturn_of_concat _ hc

/-- The rows as they were written, each in one text. -/
def written (r : Report) : List (List Char) := r.rows.map fun u => (line (r.cells u)).toList

theorem lines_text (r : Report) : Text.lines r.text.toList =
    r.header.map String.toList ++ (r.written.flatMap (Text.splitOn '\n')).map Text.dropReturn := by
  have htext : r.text.toList = (r.header.map String.toList ++ r.written).flatMap (· ++ ['\n']) := by
    simp [text, lines, written, String.toList_join, List.flatMap_map]
  have hheader : ((r.header.map String.toList).flatMap (Text.splitOn '\n')).map Text.dropReturn =
      r.header.map String.toList := by
    refine Text.flatMap_splitOn_of_lines (List.forall_mem_map.2 fun l hl => ?_)
    obtain ⟨hfeed, hreturn⟩ := oneLine_of_mem_header l hl
    exact ⟨hfeed, Text.dropReturn_of_not_mem hreturn⟩
  rw [htext, Text.lines_flatMap, List.flatMap_append, List.map_append, hheader]

theorem map_cut_written_eq_iff : (r.written.map cut = r.rows.map fun u => (r.cells u).map String.toList) ↔
    ∀ u ∈ r.rows, ∀ x ∈ r.cells u, ¬[';', ' '] <:+: x.toList := by
  rw [written, List.map_map, List.map_inj_left]
  refine forall₂_congr fun u _ => ?_
  have hne : (r.cells u).map String.toList ≠ [] := by
    rw [cells]
    cases r.ignoreIps <;> simp
  rw [Function.comp_apply, toList_line, cut_joinWith_eq_iff hne, List.forall_mem_map]

theorem legible_iff : r.Legible ↔ ∀ u ∈ r.rows,
    PlainCell u.identity.publicKey ∧ (r.ignoreIps = false → PlainCell u.identity.publicIp) := by
  -- where no line of a row ends early, the lines of the rows are the ones that were written
  have hbody (h : ∀ u ∈ r.rows, '\n' ∉ (line (r.cells u)).toList) :
      (r.written.flatMap (Text.splitOn '\n')).map Text.dropReturn = r.written :=
    Text.flatMap_splitOn_of_lines (List.forall_mem_map.2 fun u hu => ⟨h u hu, dropReturn_line r u⟩)
  simp only [← plainCell_cells_iff]
  constructor
  · rintro ⟨body, hlines, -, hcells⟩
    obtain rfl := List.append_cancel_left ((lines_text r).symm.trans hlines)
    have hlength : (r.written.flatMap (Text.splitOn '\n')).length = r.written.length := by
      simpa [written] using congrArg List.length hcells
    have hline : ∀ u ∈ r.rows, '\n' ∉ (line (r.cells u)).toList := fun u hu =>
      Text.length_splitOn_eq_one_iff.1
        ((length_flatMap_eq_iff (Text.splitOn_ne_nil '\n')).1 hlength _ (List.mem_map_of_mem hu))
    rw [hbody hline] at hcells
    have hcut := map_cut_written_eq_iff.1 hcells
    exact fun u hu x hx => ⟨newline_not_mem_line.1 (hline u hu) x hx, hcut u hu x hx⟩
  · intro h
    have hline : ∀ u ∈ r.rows, '\n' ∉ (line (r.cells u)).toList := fun u hu =>
      newline_not_mem_line.2 fun x hx => (h u hu x hx).1
    refine ⟨_, lines_text r, rfl, ?_⟩
    rw [hbody hline]
    exact map_cut_written_eq_iff.2 fun u hu x hx => (h u hu x hx).2

end Legible

end Report

namespace Analysis

open Report (PlainCell)

variable {a : Analysis} {l : List Submission} {n : Nat}

/-- There is a report exactly if no gap that the analysis looks at leaves the calendar. It tells what the analysis
found, line by line, exactly if no key and no address in it holds what ends a line or cuts one. So it does if none of
the submissions in the period brings such a text along. -/
theorem legible_rows_iff (he : expectedCount a.sync a.period = .ok n) (l : List Submission) :
    ((∃ rows, a.rows l = .ok rows) ↔ a.StaysInCalendar l) ∧ ∀ rows, a.rows l = .ok rows →
      (Report.Legible ⟨a.period, a.ignoreIps, rows⟩ ↔ ∀ u ∈ rows,
        PlainCell u.identity.publicKey ∧ (a.ignoreIps = false → PlainCell u.identity.publicIp)) ∧
      ((∀ s ∈ l, a.period.contains s.submittedAt →
          PlainCell s.submitter ∧ (a.ignoreIps = false → PlainCell s.remoteAddr)) →
        Report.Legible ⟨a.period, a.ignoreIps, rows⟩) := by
  refine ⟨exists_rows_iff he, fun rows hr => ⟨Report.legible_iff, fun h => Report.legible_iff.2 fun u hu => ?_⟩⟩
  obtain ⟨⟨s, hs, hperiod, hidentity⟩, -⟩ := exists_of_mem_rows he hr hu
  obtain ⟨hkey, haddress⟩ := h s hs hperiod
  rw [hidentity]
  refine ⟨hkey, fun hips => ?_⟩
  have hcounted : a.ignoreIps = false := hips
  have hip : (Identity.of a.ignoreIps s).publicIp = s.remoteAddr := by
    simp [Identity.of, Identity.new, Identity.address, hcounted]
  exact hip ▸ haddress hcounted

section ForgedLine

/-- Four hours in which every node is expected sixteen times. -/
def nightWatch : Analysis where
  period := ⟨⟨1704146400, 0, by decide, Instant.zero_nanosInRange⟩,
    ⟨1704160800, 0, by decide, Instant.zero_nanosInRange⟩, 4 * Period.nanosPerHour⟩
  sync := 15
  ignoreIps := false

def honestSubmission : Submission where
  submitter := "B62qalice"
  submittedAt := nightWatch.period.start
  remoteAddr := "10.0.0.1"

/-- The address ends the line of alice and begins one of bob. -/
def forgedSubmission : Submission :=
  { honestSubmission with remoteAddr := "10.0.0.1; 100.00\nB62qbob; 10.0.0.2" }

theorem expectedCount_nightWatch : expectedCount nightWatch.sync nightWatch.period = .ok 16 := by
  decide

/-- Of one submission at the start there is one row. -/
theorem rows_singleton {s : Submission} (hs : s.submittedAt = nightWatch.period.start) :
    nightWatch.rows [s] = .ok [⟨Identity.of false s, 1, 16⟩] := by
  have hips : nightWatch.ignoreIps = false := rfl
  have hperiod : nightWatch.period.contains s.submittedAt = true := by
    rw [hs]
    decide
  have htimes : nightWatch.ownTimes (Identity.of false s).id [s] = [nightWatch.period.start] := by
    have hown : nightWatch.own (Identity.of false s).id [s] = [s] := by
      simp [own, hperiod, hips]
    rw [ownTimes, hown, List.map_singleton, hs, List.mergeSort_singleton]
  have hsigns : (nightWatch.signs [s]).map (·.1) = [Identity.of false s] := by
    have hin : nightWatch.inPeriod [s] = [s] := by
      simp [inPeriod, hperiod]
    rw [signs, hin, hips]
    rfl
  have hhits : (Timeline.replay nightWatch.sync [nightWatch.period.start]).hits = 1 := by decide
  have hstays : nightWatch.StaysInCalendar [s] := by
    refine staysInCalendar_of_isInner expectedCount_nightWatch fun r hr => ?_
    rw [List.mem_singleton.1 hr, hs]
    exact ⟨by decide, by decide, by decide⟩
  rw [rows_eq expectedCount_nightWatch hstays, hsigns]
  simp only [Roll.firstOfEach, List.filter_nil, List.map_singleton, htimes, hhits]

theorem legible_rows_iff_nightWatch :
    expectedCount nightWatch.sync nightWatch.period = .ok 16 ∧
    PlainCell "B62qalice" ∧ PlainCell "10.0.0.1" ∧
    Report.Legible ⟨nightWatch.period, nightWatch.ignoreIps, [⟨Identity.of false honestSubmission, 1, 16⟩]⟩ := by
  have hkey : PlainCell "B62qalice" := by decide
  have haddress : PlainCell "10.0.0.1" := by decide
  obtain ⟨-, hlegible⟩ := legible_rows_iff expectedCount_nightWatch [honestSubmission]
  refine ⟨expectedCount_nightWatch, hkey, haddress, (hlegible _ (rows_singleton rfl)).2 fun s hs _ => ?_⟩
  rw [List.mem_singleton.1 hs]
  exact ⟨hkey, fun _ => haddress⟩

def forgedReport : Report :=
  ⟨nightWatch.period, nightWatch.ignoreIps, [⟨Identity.of false forgedSubmission, 1, 16⟩]⟩

/-- The report on one submission of alice has a line of bob, who never submitted. -/
theorem bob_forged : nightWatch.rows [forgedSubmission] = .ok forgedReport.rows ∧
    forgedReport.rows.map (·.identity.publicKey) = ["B62qalice"] ∧
    "B62qbob; 10.0.0.2; 6.25".toList ∈ Text.lines forgedReport.text.toList ∧ ¬forgedReport.Legible := by
  refine ⟨rows_singleton rfl, rfl, ?_, ?_⟩
  · have htext : Uptime.text ⟨Identity.of false forgedSubmission, 1, 16⟩ = "6.25" := by
      show percentText (percent 1 16) = "6.25"
      decide +kernel
    have hcells : forgedReport.cells ⟨Identity.of false forgedSubmission, 1, 16⟩ =
        ["B62qalice", "10.0.0.1; 100.00\nB62qbob; 10.0.0.2", "6.25"] := by
      rw [← htext]
      rfl
    have hline : "B62qbob; 10.0.0.2; 6.25".toList ∈ Text.splitOn '\n'
        (Report.line (forgedReport.cells ⟨Identity.of false forgedSubmission, 1, 16⟩)).toList := by
      rw [hcells]
      decide
    rw [Report.lines_text, List.mem_append]
    refine .inr (List.mem_map.2 ⟨_, List.mem_flatMap.2 ⟨_, List.mem_cons_self, hline⟩, ?_⟩)
    decide
  · rw [Report.legible_iff]
    intro h
    have haddress : PlainCell forgedSubmission.remoteAddr := (h _ List.mem_cons_self).2 rfl
    exact absurd haddress (by decide)

end ForgedLine

end Analysis

end Rollcall
