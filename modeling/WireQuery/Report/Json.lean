import WireQuery.Report.Basic

/-!
One JSON object for each row, its members sorted by name. Of columns of one name the last is kept.
-/

namespace WireQuery.Json

/-- Numbers with few zeros are spelled without a power of ten. -/
def number : NumberStyle where
  digits := .shortest .even
  plain := fun e => -5 ≤ e && e < 16
  wholeZero := true
  powerZero := false
  powerWidth := 1
  zeroSign := true
  nan := "null"
  infinity := "null"

def escapeChar (c : Char) : List Char :=
  if c = '"' then ['\\', '"']
  else if c = '\\' then ['\\', '\\']
  else if c = '\n' then ['\\', 'n']
  else if c = '\r' then ['\\', 'r']
  else if c = '\t' then ['\\', 't']
  else if c = '\x08' then ['\\', 'b']
  else if c = '\x0C' then ['\\', 'f']
  else if c.toNat < 0x20 then '\\' :: 'u' :: '0' :: '0' :: Hex.encode [UInt8.ofNat c.toNat]
  else [c]

def string (s : String) : List Char := '"' :: s.toList.flatMap escapeChar ++ ['"']

/-- Numbers that are not finite have no spelling. -/
def value : Datum → List Char
  | .null => "null".toList
  | .integer i => Decimal.intChars i.toInt
  | .real bits =>
    match Binary.read Binary.double bits.toNat with
    | .finite .. => (number.spell bits).toList
    | _ => "null".toList
  | .text s => string s
  | .blob b => string (Hex.text b)

/-- A member takes the place of one of its name. -/
def putMember (name : String) (d : Datum) : List (String × Datum) → List (String × Datum)
  | [] => [(name, d)]
  | (n, e) :: members =>
    if name = n then (name, d) :: members
    else if name < n then (name, d) :: (n, e) :: members
    else (n, e) :: putMember name d members

def members (columns : List String) (cells : List Datum) : List (String × Datum) :=
  (columns.zip cells).foldl (fun ms (name, d) => putMember name d ms) []

def member (m : String × Datum) : List Char := string m.1 ++ ':' :: value m.2

def object (ms : List (String × Datum)) : List Char := '{' :: List.intercalate [','] (ms.map member) ++ ['}']

end WireQuery.Json

namespace WireQuery

def Report.json (r : Report) : String :=
  String.ofList (r.rows.flatMap (fun cells => Json.object (Json.members r.columns cells) ++ ['\n']))

end WireQuery
