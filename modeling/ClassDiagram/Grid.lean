import ClassDiagram.Text.Split
import ClassDiagram.Text.Width

/-! A grid of texts drawn with lines around its cells, with a line under the first row. A cell of
several lines makes its row as high. -/

namespace ClassDiagram.Grid

def cellLines (cell : String) : List String := Text.split '\n' cell

def cellColumns (cell : String) : Nat :=
  ((cellLines cell).map Text.columns).foldl max 0

def fillTo (columns : Nat) (line : String) : String :=
  line.pushn ' ' (columns - Text.columns line)

def widths (rows : List (List String)) (count : Nat) : List Nat :=
  (List.range count).map fun i => (rows.map fun row => cellColumns (row.getD i "")).foldl max 0

def rule (left middle right : String) (widths : List Nat) : String :=
  left ++ middle.intercalate (widths.map fun width => "".pushn '─' (width + 2)) ++ right

def rowLine (widths : List Nat) (row : List String) (i : Nat) : String :=
  let cells := (row.zip widths).map fun (cell, width) =>
    " " ++ fillTo width ((cellLines cell).getD i "") ++ " "
  "│" ++ "│".intercalate cells ++ "│"

def rowLines (widths : List Nat) (row : List String) : List String :=
  let height := (row.map fun cell => (cellLines cell).length).foldl max 0
  (List.range height).map (rowLine widths row)

def draw (header : List String) (rows : List (List String)) : String :=
  let widths := widths (header :: rows) header.length
  "\n".intercalate <|
    rule "╭" "┬" "╮" widths :: rowLines widths header ++ rule "├" "┼" "┤" widths ::
      rows.flatMap (rowLines widths) ++ [rule "╰" "┴" "╯" widths]

end ClassDiagram.Grid
