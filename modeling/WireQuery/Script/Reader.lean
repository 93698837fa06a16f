import WireQuery.Script.Token
import WireQuery.Session.Statement

/-!
The statements of a script, separated by semicolons: selections of literals and calls, the listing of an enum, and
tables of one column. Anything else is malformed.
-/

namespace WireQuery.Script

def number? (negative : Bool) : Lexeme → Option SqlValue
  | .whole n =>
    let i : Int := if negative then -n else n
    if -9223372036854775808 ≤ i ∧ i ≤ 9223372036854775807 then some (.integer (Int64.ofInt i))
    else real ⟨n, 0⟩
  | .decimal n => real n
  | _ => none
where
  real (n : Numeral) : Option SqlValue :=
    some (.ofReal (UInt64.ofNat (Binary.signed Binary.double negative (n.round Binary.double))))

def literal? : List Token → Option SqlValue
  | [t] =>
    match t.lexeme with
    | .string s => some (.ofText s)
    | .blob b => some (.blob b)
    | lexeme => if t.isWord "null" then some .null else number? false lexeme
  | [s, t] => if s.isSign '-' then number? true t.lexeme else if s.isSign '+' then number? false t.lexeme else none
  | [c, l, b, a, t, r] =>
    if c.isWord "cast" && l.isSign '(' && a.isWord "as" && t.isWord "text" && r.isSign ')' then
      match b.lexeme with
      | .blob b => some (.text b)
      | _ => none
    else none
  | _ => none

/-- The arguments of a call, if the tokens are one call of a function. -/
def call? (function : String) : List Token → Option (List SqlValue)
  | f :: l :: ts =>
    if f.isWord function && l.isSign '(' && ts.getLast?.any (·.isSign ')') then
      (parts (·.isSign ',') ts.dropLast).mapM literal?
    else none
  | _ => none

def extract? (ts : List Token) : Option ExtractCall :=
  match call? SqlValue.extractName ts with
  | some [data, type, path] => some ⟨data, type, path⟩
  | _ => none

def term? (ts : List Token) : Option Term :=
  match literal? ts with
  | some v => some (.value v)
  | none => (extract? ts).map .extract

/-- A column is named after its term unless it has another name. -/
def named (ts : List Token) : List Token × String :=
  match ts.reverse with
  | n :: a :: r =>
    match n.name? with
    | some s => if a.isWord "as" then (r.reverse, s) else (ts, Token.written ts)
    | none => (ts, Token.written ts)
  | _ => (ts, Token.written ts)

def column? (ts : List Token) : Option (String × Term) :=
  let (body, name) := named ts
  (term? body).map (name, ·)

def load? (ts : List Token) : Option Statement :=
  let (body, name) := named ts
  match call? "protobuf_load" body with
  | some [path] => some (.load name path)
  | _ => none

def selectTerms? (ts : List Token) : Option Statement :=
  match load? ts with
  | some st => some st
  | none => ((parts (·.isSign ',') ts).mapM column?).map .select

def enumColumn? : List Token → Option EnumColumn
  | [t] => [EnumColumn.rowid, .number, .name, .enum].find? (fun c => t.name?.any (fun s => s.map Char.toLower = c.text))
  | _ => none

def condition? (q : EnumQuery) (ts : List Token) : Option EnumQuery :=
  match ts with
  | c :: e :: v =>
    if e.isSign '=' then
      match enumColumn? [c], literal? v with
      | some .number, some v => some { q with number := some v }
      | some .name, some v => some { q with name := some v }
      | some .rowid, some v => some { q with rowid := some v }
      | _, _ => none
    else none
  | _ => none

/-- The table of an enum, perhaps with conditions. -/
def enumQuery? (ts : List Token) : Option EnumQuery :=
  match parts (·.isWord "where") ts with
  | table :: conditions =>
    match call? "protobuf_enum" table, conditions with
    | some [enum], [] => some { enum := some enum }
    | some [enum], [ts] => (parts (·.isWord "and") ts).foldlM condition? { enum := some enum }
    | _, _ => none
  | [] => none

def selectFrom? (columns source : List Token) : Option Statement :=
  match enumQuery? source with
  | some q => ((parts (·.isSign ',') columns).mapM enumColumn?).map (.listEnum · q)
  | none =>
    match columns, source with
    | [a], [t] => if a.isWord "a" then t.name?.map .selectTable else none
    | _, _ => none

def select? (ts : List Token) : Option Statement :=
  match parts (·.isWord "from") ts with
  | [terms] => selectTerms? terms
  | [columns, source] => selectFrom? columns source
  | _ => none

def create? : List Token → Option Statement
  | [t, n, l, a, r] =>
    if t.isWord "table" && l.isSign '(' && a.isWord "a" && r.isSign ')' then n.name?.map .createTable else none
  | _ => none

def insert? : List Token → Option Statement
  | i :: n :: v :: l :: ts =>
    if i.isWord "into" && v.isWord "values" && l.isSign '(' && ts.getLast?.any (·.isSign ')') then
      n.name?.bind (fun name => (extract? ts.dropLast).map (.insert name))
    else none
  | _ => none

def statement? : List Token → Option Statement
  | t :: ts =>
    if t.isWord "select" then select? ts
    else if t.isWord "create" then create? ts
    else if t.isWord "insert" then insert? ts
    else none
  | [] => none

/-- Nothing follows what cannot be read. -/
def read (text : String) : List Statement :=
  match tokens text.toList with
  | none => [.malformed]
  | some ts =>
    ((parts (·.isSign ';') ts).filter (!·.isEmpty)).map (fun ts => (statement? ts).getD .malformed)

end WireQuery.Script
