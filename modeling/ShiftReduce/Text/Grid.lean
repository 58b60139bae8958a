import ShiftReduce.Text.Blank
import ShiftReduce.Text.Width

/-! Tables of text: rows of cells, written with borders or as comma-separated fields. A cell may have
several lines. -/

namespace ShiftReduce.Text

structure Grid where
  titles : List String
  rows : List (List String)
deriving DecidableEq, Repr

namespace Grid

def allRows (g : Grid) : List (List String) := g.titles :: g.rows

/-! ### With borders -/

def cellLines (cell : String) : List String := (lines cell.toList).map String.ofList

/-- The width of a cell: that of its widest line. -/
def cellWidth (cell : String) : Nat := ((cellLines cell).map width).foldl max 0

def columnWidths (rows : List (List String)) : List Nat :=
  rows.foldl (fun widths row => merge widths (row.map cellWidth)) []
where
  /-- The larger of the widths in each place. -/
  merge : List Nat → List Nat → List Nat
    | [], ns => ns
    | ms, [] => ms
    | m :: ms, n :: ns => max m n :: merge ms ns

/-- A line of text in a column, with blanks up to its width. -/
def padded (columnWidth : Nat) (line : String) : String :=
  line ++ "".pushn ' ' (columnWidth - width line)

def rule (widths : List Nat) : String :=
  "+" ++ "+".intercalate (widths.map fun n => "".pushn '-' (n + 2)) ++ "+"

/-- The lines of a row: as many as its highest cell has, with blank lines below the others. -/
def rowLines (widths : List Nat) (row : List String) : List String :=
  let cells := row.map cellLines
  let height := (cells.map List.length).foldl max 1
  (List.range height).map fun n =>
    let parts := (widths.zip cells).map fun (columnWidth, cell) =>
      " " ++ padded columnWidth (cell[n]?.getD "") ++ " "
    "|" ++ "|".intercalate parts ++ "|"

/-- The table with lines around its cells. -/
def bordered (g : Grid) : String :=
  let widths := columnWidths g.allRows
  let all := rule widths :: g.allRows.flatMap fun row => rowLines widths row ++ [rule widths]
  String.join (all.map (· ++ "\n"))

/-! ### As comma-separated fields -/

/-- A field in quotation marks, if it holds a character that would end it. Quotation marks inside are
doubled. -/
def field (cell : String) : String :=
  if cell.toList.any fun c => c = ',' || c = '"' || c = '\n' || c = '\r' then
    let inner := String.ofList (cell.toList.flatMap fun c => if c = '"' then ['"', '"'] else [c])
    "\"" ++ inner ++ "\""
  else cell

/-- The rows as lines of fields with commas between them. -/
def separated (g : Grid) : String :=
  String.join (g.allRows.map fun row => ",".intercalate (row.map field) ++ "\n")

end Grid

end ShiftReduce.Text
