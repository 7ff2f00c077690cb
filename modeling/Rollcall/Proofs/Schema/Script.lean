import Rollcall.Proofs.Text.Blank
import Rollcall.Proofs.Text.Split
import Rollcall.Schema.Script

/-! Statements that are written to a script are read back from it. Three units meet in a script: comments are dropped
by lines, statements are cut at semicolons, and what was cut is trimmed. So a comment may hold semicolons and may
stand between any two lines of a statement, while a statement has no semicolon, neither begins nor ends with a blank,
and has no line that looks like a comment. It has no carriage return either, since one in front of a line feed would
go with it. -/

namespace Rollcall.Script

/-- A line of which the first characters that are not blank are two dashes. -/
inductive IsCommentLine : List Char → Prop
  | intro {indent : List Char} (text : List Char) (hindent : ∀ c ∈ indent, Text.isBlank c) :
    IsCommentLine (indent ++ '-' :: '-' :: text)

/-- What a script can hold as one statement. -/
structure IsStatement (s : List Char) : Prop where
  ne_nil : s ≠ []
  head : ∀ c ∈ s.head?, Text.isBlank c = false
  last : ∀ c ∈ s.getLast?, Text.isBlank c = false
  semicolon : ';' ∉ s
  lineReturn : '\r' ∉ s
  comment : ∀ l ∈ Text.splitOn '\n' s, ¬IsCommentLine l

/-- The statements, each ended by a semicolon and a line feed, with lines of blanks around them. -/
inductive LaidOut : List (List Char) → List Char → Prop
  | nil : LaidOut [] []
  | blank {l : List (List Char)} {b t : List Char} (hb : ∀ c ∈ b, Text.isBlank c) (hfeed : '\n' ∉ b)
    (h : LaidOut l t) : LaidOut l (b ++ '\n' :: t)
  | statement {l : List (List Char)} {t : List Char} (s : List Char) (h : LaidOut l t) :
    LaidOut (s :: l) (s ++ ';' :: '\n' :: t)

/-- The second text is the first one with comments before any of its lines and behind the last. A comment that ends
the whole may lack its line feed. -/
inductive Annotated : List Char → List Char → Prop
  | nil : Annotated [] []
  | line {t t' : List Char} (l : List Char) (h : Annotated t t') : Annotated (l ++ '\n' :: t) (l ++ '\n' :: t')
  | comment {c t t' : List Char} (hc : IsCommentLine c) (hfeed : '\n' ∉ c) (h : Annotated t t') :
    Annotated t (c ++ '\n' :: t')
  | last {c : List Char} (hc : IsCommentLine c) (hfeed : '\n' ∉ c) : Annotated [] c

variable {l : List (List Char)} {b c s t t' : List Char}

section Comment

theorem isComment_iff {l : List Char} : isComment l ↔ IsCommentLine l := by
  have hdash (r : List Char) : ∀ c ∈ ('-' :: '-' :: r).head?, Text.isBlank c = false := by
    rintro c ⟨⟩
    decide
  rw [isComment, Text.startsWith, List.isPrefixOf_iff_prefix]
  constructor
  · rintro ⟨r, hr⟩
    obtain ⟨indent, hindent, rfl⟩ := (dropWhile_eq_iff (hdash r)).1 hr.symm
    exact .intro r hindent
  · rintro ⟨r, hindent⟩
    exact ⟨r, ((dropWhile_eq_iff (hdash r)).2 ⟨_, hindent, rfl⟩).symm⟩

instance (l : List Char) : Decidable (IsCommentLine l) := decidable_of_iff _ isComment_iff

theorem isStatement_iff : IsStatement s ↔ s ≠ [] ∧ s.head?.all (!Text.isBlank ·) ∧ s.getLast?.all (!Text.isBlank ·) ∧
    ';' ∉ s ∧ '\r' ∉ s ∧ (Text.splitOn '\n' s).all (!isComment ·) := by
  have hcomment : (∀ l ∈ Text.splitOn '\n' s, ¬IsCommentLine l) ↔ (Text.splitOn '\n' s).all (!isComment ·) := by
    simp [← isComment_iff]
  have hend (o : Option Char) : (∀ c ∈ o, Text.isBlank c = false) ↔ o.all (!Text.isBlank ·) := by
    cases o <;> simp
  rw [← hcomment, ← hend, ← hend]
  constructor
  · rintro ⟨hne, hhead, hlast, hsemicolon, hreturn, hlines⟩
    exact ⟨hne, hhead, hlast, hsemicolon, hreturn, hlines⟩
  · rintro ⟨hne, hhead, hlast, hsemicolon, hreturn, hlines⟩
    exact ⟨hne, hhead, hlast, hsemicolon, hreturn, hlines⟩

instance (s : List Char) : Decidable (IsStatement s) := decidable_of_iff _ isStatement_iff.symm

/-- The last character of a comment is part of its text, unless it is a dash. -/
theorem IsCommentLine.of_concat {x : Char} (hx : x ≠ '-') (h : IsCommentLine (c ++ [x])) : IsCommentLine c := by
  generalize hline : c ++ [x] = line at h
  obtain @⟨indent, text, hindent⟩ := h
  have hcut : c ++ [x] = (indent ++ ['-']) ++ '-' :: text := by simp [hline]
  rcases append_eq_append_cons hcut with ⟨r, rfl⟩ | ⟨q, -, hq⟩
  · have hline : indent ++ ['-'] ++ '-' :: r = indent ++ '-' :: '-' :: r := by simp
    exact hline ▸ .intro r hindent
  · cases q with
    | nil => exact absurd (List.cons.inj hq).1 hx
    | cons y q => simp at hq

theorem IsCommentLine.dropReturn (h : IsCommentLine c) : IsCommentLine (Text.dropReturn c) := by
  rcases Text.dropReturn_cases c with hc | hc
  · rwa [hc]
  · rw [hc] at h
    exact h.of_concat (by decide)

theorem IsCommentLine.dash_mem (h : IsCommentLine c) : '-' ∈ c := by
  cases h
  simp

theorem not_isCommentLine_of_blank (h : ∀ x ∈ b, Text.isBlank x) : ¬IsCommentLine b :=
  fun hc => absurd (h _ hc.dash_mem) (by decide)

end Comment

section Lines

/-- The lines of a script that are no comments. -/
def codeLines (s : List Char) : List (List Char) := (Text.lines s).filter (!isComment ·)

theorem code_eq (s : List Char) : code s = Text.joinWith ['\n'] (codeLines s) := rfl

theorem codeLines_append_cons (a t : List Char) :
    codeLines (a ++ '\n' :: t) =
      ((Text.splitOn '\n' a).map Text.dropReturn).filter (!isComment ·) ++ codeLines t := by
  rw [codeLines, Text.lines_append_cons, List.filter_append, codeLines]

theorem codeLines_comment (hc : IsCommentLine c) (hfeed : '\n' ∉ c) (t : List Char) :
    codeLines (c ++ '\n' :: t) = codeLines t := by
  rw [codeLines, Text.lines_cons hfeed, List.filter_cons_of_neg (by simp [isComment_iff.2 hc.dropReturn]), codeLines]

/-- Comments leave the other lines as they are. -/
theorem Annotated.codeLines_eq (h : Annotated t t') : codeLines t' = codeLines t := by
  induction h with
  | nil => rfl
  | line l h ih => rw [codeLines_append_cons, codeLines_append_cons, ih]
  | comment hc hfeed h ih => rw [codeLines_comment hc hfeed, ih]
  | @last c hc hfeed =>
    have hne : c ≠ [] := List.ne_nil_of_mem hc.dash_mem
    simp [codeLines, Text.lines, Text.splitOn_of_not_mem hfeed, Text.splitOn, hne, isComment_iff.2 hc]

theorem codeLines_blank (hb : ∀ x ∈ b, Text.isBlank x) (hfeed : '\n' ∉ b) (t : List Char) :
    ∃ b', (∀ x ∈ b', Text.isBlank x) ∧ codeLines (b ++ '\n' :: t) = b' :: codeLines t := by
  have hb' : ∀ x ∈ Text.dropReturn b, Text.isBlank x := by
    rcases Text.dropReturn_cases b with h | h
    · rwa [h]
    · exact fun x hx => hb x (h ▸ List.mem_append_left _ hx)
  have hcode : isComment (Text.dropReturn b) = false := by
    rw [Bool.eq_false_iff, Ne, isComment_iff]
    exact not_isCommentLine_of_blank hb'
  exact ⟨_, hb', by rw [codeLines, Text.lines_cons hfeed, List.filter_cons_of_pos (by simp [hcode]), codeLines]⟩

/-- A semicolon behind a statement does not make its last line a comment. -/
theorem IsStatement.not_isCommentLine (hs : IsStatement s) :
    ∀ l ∈ Text.splitOn '\n' (s ++ [';']), ¬IsCommentLine l := by
  have hfeed : '\n' ∉ [';'] := by decide
  obtain ⟨k, q, hsplit, hclosed⟩ := Text.exists_splitOn_append s hfeed
  have hlines := hs.comment
  rw [hsplit] at hlines
  rw [hclosed]
  intro l hl hcomment
  rcases List.mem_append.1 hl with hk | hq
  · exact hlines l (List.mem_append_left _ hk) hcomment
  · obtain rfl := List.mem_singleton.1 hq
    exact hlines q (by simp) (hcomment.of_concat (by decide))

theorem IsStatement.codeLines_eq (hs : IsStatement s) (t : List Char) :
    codeLines (s ++ ';' :: '\n' :: t) = Text.splitOn '\n' (s ++ [';']) ++ codeLines t := by
  have hreturn : '\r' ∉ s ++ [';'] := by simp [hs.lineReturn]
  have hlines : (Text.splitOn '\n' (s ++ [';'])).map Text.dropReturn = Text.splitOn '\n' (s ++ [';']) :=
    Text.map_dropReturn fun l hl h => hreturn (Text.mem_of_mem_splitOn hl h)
  have hcode : (Text.splitOn '\n' (s ++ [';'])).filter (!isComment ·) = Text.splitOn '\n' (s ++ [';']) := by
    refine List.filter_eq_self.2 fun l hl => ?_
    have hl := mt isComment_iff.1 (hs.not_isCommentLine l hl)
    simpa using hl
  have hclosed : s ++ ';' :: '\n' :: t = (s ++ [';']) ++ '\n' :: t := by simp
  rw [hclosed, codeLines_append_cons, hlines, hcode]

end Lines

section Cutting

/-- What is cut from a text without comments. -/
def cut (s : List Char) : List (List Char) := ((Text.splitOn ';' s).map Text.trim).filter (!·.isEmpty)

theorem statements_eq (s : String) : statements s = (cut (code s.toList)).map String.ofList := rfl

/-- Blanks in front of a text are part of no statement. -/
theorem cut_append (hb : ∀ x ∈ b, Text.isBlank x) (t : List Char) : cut (b ++ t) = cut t := by
  induction b with
  | nil => rfl
  | cons x b ih =>
    obtain ⟨hx, hrest⟩ := List.forall_mem_cons.1 hb
    have hne : x ≠ ';' := fun h => absurd (h ▸ hx) (by decide)
    obtain ⟨p, ps, hp, hcons⟩ := Text.splitOn_cons_of_ne hne (b ++ t)
    have htrim : Text.trim (x :: p) = Text.trim p := Text.trim_append [x] (by simpa using hx) p
    rw [← ih hrest, List.cons_append, cut, hcons, List.map_cons, htrim, cut, hp, List.map_cons]

theorem IsStatement.cut_eq (hs : IsStatement s) (t : List Char) : cut (s ++ ';' :: t) = s :: cut t := by
  rw [cut, Text.splitOn_append_cons, Text.splitOn_of_not_mem hs.semicolon, List.singleton_append, List.map_cons,
    Text.trim_eq_self hs.head hs.last, List.filter_cons_of_pos (by simp [hs.ne_nil]), cut]

/-- Between the first lines of a text and the rest there is nothing but a line feed. -/
theorem exists_code_eq {ps : List (List Char)} (hp : ps ≠ []) (h : codeLines s = ps ++ codeLines t) :
    ∃ b, (∀ x ∈ b, Text.isBlank x) ∧ code s = Text.joinWith ['\n'] ps ++ (b ++ code t) := by
  obtain ⟨b, hb, hjoin⟩ := Text.exists_joinWith_append ['\n'] hp (codeLines t)
  refine ⟨b, fun x hx => ?_, by rw [code_eq, h, hjoin, List.append_assoc, code_eq]⟩
  rw [List.mem_singleton.1 (hb hx)]
  decide

theorem LaidOut.cut_code (h : LaidOut l t) (hl : ∀ s ∈ l, IsStatement s) : cut (code t) = l := by
  induction h with
  | nil => rfl
  | blank hb hfeed h ih =>
    obtain ⟨b', hb', hlines⟩ := codeLines_blank hb hfeed _
    obtain ⟨feed, hblank, hcode⟩ := exists_code_eq (List.cons_ne_nil b' []) hlines
    rw [hcode, Text.joinWith, cut_append hb', cut_append hblank, ih hl]
  | statement s h ih =>
    obtain ⟨hs, hrest⟩ := List.forall_mem_cons.1 hl
    obtain ⟨feed, hblank, hcode⟩ := exists_code_eq (Text.splitOn_ne_nil '\n' _) (hs.codeLines_eq _)
    rw [hcode, Text.joinWith_splitOn, List.append_assoc, List.singleton_append, hs.cut_eq, cut_append hblank,
      ih hrest]

/-- Statements come back from a script in their order and as they were, whatever blank lines stand between them and
whatever comments stand before their lines. -/
theorem statements_of_annotated {l : List String} {bare script : String} (hl : ∀ s ∈ l, IsStatement s.toList)
    (hbare : LaidOut (l.map String.toList) bare.toList) (hscript : Annotated bare.toList script.toList) :
    statements script = l := by
  have hcode : code script.toList = code bare.toList := by rw [code_eq, hscript.codeLines_eq, code_eq]
  rw [statements_eq, hcode, hbare.cut_code (List.forall_mem_map.2 hl), List.map_map]
  simp

/-- Comments with semicolons in front, between the lines of a statement and at the end, and dashes that begin no
line. -/
theorem statements_of_annotated_betweenLines :
    let l := ["CREATE TABLE a (\n  x int\n)", "INSERT INTO a -- one row\nVALUES (1)"]
    let bare := "CREATE TABLE a (\n  x int\n);\n\n \t\nINSERT INTO a -- one row\nVALUES (1);\n"
    let script := "-- a; table\nCREATE TABLE a (\n\t-- its; column\r\n  x int\n);\n\n--\n \t\n" ++
      "INSERT INTO a -- one row\n  --;\nVALUES (1);\n-- end;"
    ((∀ s ∈ l, IsStatement s.toList) ∧ LaidOut (l.map String.toList) bare.toList ∧
      Annotated bare.toList script.toList) ∧ statements script = l := by
  intro l bare script
  have hl : ∀ s ∈ l, IsStatement s.toList := by decide +kernel
  have hbare : LaidOut (l.map String.toList) bare.toList := by
    have htext : bare.toList = "CREATE TABLE a (\n  x int\n)".toList ++ ';' :: '\n' :: ([] ++ '\n' ::
        (" \t".toList ++ '\n' :: ("INSERT INTO a -- one row\nVALUES (1)".toList ++ ';' :: '\n' :: []))) := by
      decide +kernel
    rw [htext]
    exact .statement _ (.blank (List.forall_mem_nil _) List.not_mem_nil
      (.blank (List.all_eq_true.1 (by decide +kernel)) (by decide +kernel) (.statement _ .nil)))
  have hscript : Annotated bare.toList script.toList := by
    have htext : bare.toList = "CREATE TABLE a (".toList ++ '\n' :: ("  x int\n);\n".toList ++ '\n' ::
        (" \t\nINSERT INTO a -- one row".toList ++ '\n' :: ("VALUES (1);".toList ++ '\n' :: []))) := by
      decide +kernel
    have hremarks : script.toList = "-- a; table".toList ++ '\n' :: ("CREATE TABLE a (".toList ++ '\n' ::
        ("\t-- its; column\r".toList ++ '\n' :: ("  x int\n);\n".toList ++ '\n' :: ("--".toList ++ '\n' ::
        (" \t\nINSERT INTO a -- one row".toList ++ '\n' :: ("  --;".toList ++ '\n' ::
        ("VALUES (1);".toList ++ '\n' :: "-- end;".toList))))))) := by
      decide +kernel
    rw [htext, hremarks]
    refine .comment ?_ ?_ (.line _ (.comment ?_ ?_ (.line _ (.comment ?_ ?_ (.line _ (.comment ?_ ?_
      (.line _ (.last ?_ ?_)))))))) <;> decide +kernel
  exact ⟨⟨hl, hbare, hscript⟩, statements_of_annotated hl hbare hscript⟩

end Cutting

end Rollcall.Script
