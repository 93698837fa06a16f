import WireQuery.Report.Json
import WireQuery.Text.Split
import WireQuery.Text.Width

/-!
A report as comma-separated lines or as a table drawn with lines around its cells, besides JSON. In the lines the
names of the columns stand as they are; a cell is quoted if it would otherwise be read as several, and a quote in it is
written twice. In the table cells may have several lines, and a row has as many as its tallest.
-/

namespace WireQuery.Csv

def isSpecial (c : Char) : Bool := c = ',' || c = '"' || c = '\n'

def doubleQuotes (s : List Char) : List Char := s.flatMap (fun c => if c = '"' then ['"', '"'] else [c])

def field (s : List Char) : List Char := if s.any isSpecial then '"' :: doubleQuotes s ++ ['"'] else s

def row (cells : List (List Char)) : List Char := List.intercalate [','] (cells.map field) ++ ['\n']

def header (columns : List (List Char)) : List Char := List.intercalate [','] columns ++ ['\n']

end WireQuery.Csv

namespace WireQuery.Table

/-- The lines of a cell. -/
abbrev Cell := List (List Char)

def cellOf (s : String) : Cell := split '\n' s.toList

def cellWidth (c : Cell) : Nat := (c.map Width.ofChars).foldl max 0

/-- The widths of the columns; none is empty. -/
def widths (rows : List (List Cell)) : List Nat :=
  let count := (rows.map List.length).foldl max 0
  (List.range count).map (fun i => (rows.map (fun row => cellWidth (row[i]?.getD []))).foldl max 1)

def pad (width : Nat) (line : List Char) : List Char := line ++ List.replicate (width - Width.ofChars line) ' '

/-- A line of a row; cells that are not there are blank. -/
def rowLine (ws : List Nat) (row : List Cell) (k : Nat) : List Char :=
  '|' :: ws.zipIdx.flatMap (fun (w, i) => ' ' :: pad w ((row[i]?.bind (·[k]?)).getD []) ++ [' ', '|'])

def rowLines (ws : List Nat) (row : List Cell) : List (List Char) :=
  let height := if ws.isEmpty then 0 else (row.map List.length).foldl max 1
  (List.range height).map (rowLine ws row)

/-- How a line between rows is drawn: its ends, what it is made of, and where it crosses a column's end. -/
structure Rule where
  left : Char
  fill : Char
  cross : Char
  right : Char

def outer : Rule := ⟨'+', '-', '+', '+'⟩

def underHeader : Rule := ⟨'+', '=', '=', '+'⟩

def inner : Rule := ⟨'|', '-', '+', '|'⟩

def Rule.line (r : Rule) (ws : List Nat) : List Char :=
  r.left :: List.intercalate [r.cross] (ws.map (fun w => List.replicate (w + 2) r.fill)) ++ [r.right]

def lines (header : List Cell) (rows : List (List Cell)) : List (List Char) :=
  let ws := widths (header :: rows)
  outer.line ws :: rowLines ws header ++ underHeader.line ws ::
    List.intercalate [inner.line ws] (rows.map (rowLines ws)) ++ [outer.line ws]

end WireQuery.Table

namespace WireQuery

def Report.csv (r : Report) : String :=
  String.ofList (Csv.header (r.columns.map String.toList) ++
    r.rows.flatMap (fun cells => Csv.row (cells.map (fun d => d.cell.toList))))

def Report.table (r : Report) : String :=
  String.ofList ((Table.lines (r.columns.map Table.cellOf)
    (r.rows.map (·.map (fun d => Table.cellOf d.cell)))).flatMap (· ++ ['\n']))

inductive ReportFormat where
  | table
  | csv
  | json
  deriving DecidableEq, Repr

def Report.text (r : Report) : ReportFormat → String
  | .table => r.table
  | .csv => r.csv
  | .json => r.json

end WireQuery
