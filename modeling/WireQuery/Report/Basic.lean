import WireQuery.Extract.Walk
import WireQuery.Number.Style
import WireQuery.Text.Hex

namespace WireQuery

structure Report where
  columns : List String := []
  rows : List (List Datum) := []
  deriving DecidableEq, Repr

/-- Cells spell numbers without powers of ten. -/
def Report.number : NumberStyle where
  digits := .shortest .up
  plain := fun _ => true
  wholeZero := false
  powerZero := false
  powerWidth := 1
  zeroSign := true
  nan := "NaN"
  infinity := "inf"

def Datum.cell : Datum → String
  | .null => ""
  | .integer i => Decimal.intText i.toInt
  | .real bits => Report.number.spell bits
  | .text s => s
  | .blob b => Hex.text b

end WireQuery
