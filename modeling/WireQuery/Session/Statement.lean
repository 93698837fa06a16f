import WireQuery.Sql.Connection

namespace WireQuery

/-- The arguments of an extraction. -/
structure ExtractCall where
  data : SqlValue
  type : SqlValue
  path : SqlValue
  deriving DecidableEq, Repr

/-- What a column of a single row is computed from. -/
inductive Term where
  | value (v : SqlValue)
  | extract (call : ExtractCall)
  deriving DecidableEq, Repr

/-- A column of the table of an enum. -/
inductive EnumColumn where
  | rowid
  | number
  | name
  | enum
  deriving DecidableEq, Repr

def EnumColumn.text : EnumColumn → String
  | rowid => "rowid"
  | number => "number"
  | name => "name"
  | enum => "enum"

def EnumRow.column (row : EnumRow) : EnumColumn → SqlValue
  | .rowid => .integer (Int64.ofNat row.rowid)
  | .number => .integer row.number.toInt64
  | .name => .ofText row.name
  | .enum => .ofText row.enum

inductive Statement where
  /-- One row with named columns. -/
  | select (columns : List (String × Term))
  /-- A row for each extraction. -/
  | selectEach (column : String) (calls : List ExtractCall)
  | listEnum (columns : List EnumColumn) (q : EnumQuery)
  | load (column : String) (path : SqlValue)
  | createTable (name : String)
  | insert (table : String) (call : ExtractCall)
  | selectTable (name : String)
  | malformed

end WireQuery
