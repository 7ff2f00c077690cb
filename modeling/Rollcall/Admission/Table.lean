import Rollcall.Text.Blank
import Rollcall.Text.Split

/-! Tables of cells parted by one delimiter, one record a line. A cell that begins with a quote may hold
anything, its quotes doubled; an empty line is no record. -/

namespace Rollcall.Table

/-- Where in a record a reader stands. -/
inductive Spot where
  | recordStart | cellStart | plain | quoted
  /-- Behind a quote inside a quoted cell, which closes it or is the first of two. -/
  | quote

/-- What has been read: the cell and the row under way and the finished rows, the last part first. -/
structure Progress where
  spot : Spot := .recordStart
  cell : List Char := []
  row : List (List Char) := []
  rows : List (List (List Char)) := []

namespace Progress

def endCell (p : Progress) : Progress :=
  { p with spot := .cellStart, cell := [], row := p.cell.reverse :: p.row }

def endRow (p : Progress) : Progress :=
  let q := p.endCell
  { q with spot := .recordStart, row := [], rows := q.row.reverse :: q.rows }

def keep (p : Progress) (s : Spot) (c : Char) : Progress :=
  { p with spot := s, cell := c :: p.cell }

def isEnd (c : Char) : Bool := c = '\n' || c = '\r'

/-- A character outside quotes. -/
def bare (delimiter : Char) (p : Progress) (c : Char) : Progress :=
  if c = delimiter then p.endCell else if isEnd c then p.endRow else p.keep .plain c

def step (delimiter : Char) (p : Progress) (c : Char) : Progress :=
  match p.spot with
  | .recordStart =>
    if isEnd c then p
    else if c = '"' then { p with spot := .quoted } else p.bare delimiter c
  | .cellStart => if c = '"' then { p with spot := .quoted } else p.bare delimiter c
  | .plain => p.bare delimiter c
  | .quoted => if c = '"' then { p with spot := .quote } else p.keep .quoted c
  | .quote => if c = '"' then p.keep .quoted c else p.bare delimiter c

def finish (p : Progress) : List (List (List Char)) :=
  match p.spot with
  | .recordStart => p.rows.reverse
  | _ => p.endRow.rows.reverse

end Progress

/-- The records of a table. A byte order mark in front is no part of it. -/
def rows (delimiter : Char) (s : List Char) : List (List (List Char)) :=
  let s := if s.head? = some '\ufeff' then s.tail else s
  (s.foldl (Progress.step delimiter) {}).finish

/-- A cell in quotes. -/
def quoteCell (c : List Char) : List Char :=
  '"' :: c.flatMap (fun x => if x = '"' then ['"', '"'] else [x]) ++ ['"']

/-- A record with every cell in quotes, on a line of its own. -/
def writeRow (delimiter : Char) (r : List (List Char)) : List Char :=
  Text.joinWith [delimiter] (r.map quoteCell) ++ ['\n']

end Rollcall.Table
