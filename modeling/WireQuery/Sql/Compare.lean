import WireQuery.Sql.Value
import WireQuery.Number.Numeral

/-!
Comparison of a column with any value. A column of numbers reads text as a number where it can, and a column of
text reads a number as its text; null compares with nothing.
-/

namespace WireQuery.SqlValue

/-- Real numbers as text have at most fifteen digits. -/
def realText : NumberStyle where
  digits := .significant 15
  plain := fun e => -4 ≤ e && e < 15
  wholeZero := true
  powerZero := true
  powerWidth := 2
  zeroSign := false
  nan := "NaN"
  infinity := "Inf"

def isSpace (c : Char) : Bool := c = ' ' || (9 ≤ c.toNat && c.toNat ≤ 13)

/-- A numeral with nothing but spaces around it. -/
def readNumber? (b : Bytes) : Option Binary.Reading :=
  let s := (b.map (fun x => Char.ofNat x.toNat)).dropWhile isSpace
  let (negative, s) := match s with
    | '-' :: r => (true, r)
    | '+' :: r => (false, r)
    | s => (false, s)
  match Numeral.read? s with
  | some (n, rest) =>
    if rest.all isSpace then
      some (Binary.read Binary.double (Binary.signed Binary.double negative (n.round Binary.double)))
    else none
  | none => none

/-- The order of a value and a number in a column. Other text and blobs come after all numbers. -/
def compareNumber? : SqlValue → Int → Option Ordering
  | null, _ => none
  | integer i, n => some (compare i.toInt n)
  | real bits, n => (Binary.read Binary.double bits.toNat).compareInt? n
  | text b, n =>
    match readNumber? b with
    | some r => r.compareInt? n
    | none => some .gt
  | blob _, _ => some .gt

def equalsNumber (v : SqlValue) (n : Int) : Bool := v.compareNumber? n = some .eq

/-- Whether a number in a column is at least a value. -/
def atMostNumber (v : SqlValue) (n : Int) : Bool :=
  match v.compareNumber? n with
  | some o => o.isLE
  | none => false

def equalsText (v : SqlValue) (s : String) : Bool :=
  match v with
  | null => false
  | integer i => Decimal.intText i.toInt = s
  | real bits => realText.spell bits = s
  | text b => b = Utf8.encode s
  | blob _ => false

theorem equalsNumber_integer {i : Int64} {n : Int} : (integer i).equalsNumber n = true ↔ i.toInt = n := by
  simp [equalsNumber, compareNumber?, Std.LawfulEqCmp.compare_eq_iff_eq]

theorem equalsText_ofText {s t : String} : (ofText s).equalsText t = true ↔ s = t := by
  simp only [ofText, equalsText, decide_eq_true_eq]
  constructor
  · intro h
    have := congrArg Utf8.decode? h
    simpa [Utf8.decode?_encode] using this
  · exact congrArg _

end WireQuery.SqlValue
