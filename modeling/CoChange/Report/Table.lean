import CoChange.Text.Lines
import CoChange.Text.Width

/-!
# Tables

A table without rules: every cell stands between two blanks, and all but the last column are filled
up to the width of their widest cell. A cell with line breaks takes several lines. Each line of the
table is set in by two blanks.
-/

namespace CoChange.Report

abbrev Row := List String

/-- The cell at a position; missing ones are empty. -/
def cell (row : Row) (i : Nat) : String := row.getD i ""

/-- The width of the widest line of a cell. -/
def cellWidth (s : String) : Nat := (Text.lines s).foldl (fun w l => max w (Text.visibleWidth l)) 0

def columnCount (rows : List Row) : Nat := rows.foldl (fun n r => max n r.length) 0

def columnWidths (rows : List Row) : List Nat :=
  (List.range (columnCount rows)).map fun i =>
    rows.foldl (fun w r => max w (cellWidth (cell r i))) 0

def rowHeight (row : Row) : Nat := row.foldl (fun n s => max n (Text.lines s).length) 1

def blanks (n : Nat) : String := String.ofList (List.replicate n ' ')

/-- A piece of text between two blanks, filled up to a width. -/
def padded (width : Nat) (text : String) : String :=
  " " ++ text ++ blanks (width - Text.visibleWidth text) ++ " "

/-- The line with number `k` of a row. The last column is not filled up. -/
def rowLine (row : Row) (k : Nat) : Nat → List Nat → String
  | _, [] => ""
  | i, [_] => padded 0 ((Text.lines (cell row i)).getD k "")
  | i, width :: rest => padded width ((Text.lines (cell row i)).getD k "") ++
      rowLine row k (i + 1) rest

def rowLines (widths : List Nat) (row : Row) : List String :=
  (List.range (rowHeight row)).map fun k => rowLine row k 0 widths

/-- Writes a table. There is no row for headers if there are none, and nothing without rows. -/
def table (headers : Row) (rows : List Row) : String :=
  if rows.isEmpty then ""
  else
    let all := if headers.isEmpty then rows else headers :: rows
    let widths := columnWidths all
    String.join ((all.flatMap (rowLines widths)).map fun line => "  " ++ line ++ "\n")

end CoChange.Report
