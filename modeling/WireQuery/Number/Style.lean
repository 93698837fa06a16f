import WireQuery.Number.Shortest

namespace WireQuery

/-- The digits a spelling gives. -/
inductive Digits where
  /-- The fewest that read back. -/
  | shortest (tie : Tie)
  | significant (count : Nat)
  deriving DecidableEq, Repr

structure NumberStyle where
  digits : Digits
  /-- Whether a number whose leading digit has this exponent is spelled without a power of ten. -/
  plain : Int → Bool
  /-- A whole number ends in `.0`. -/
  wholeZero : Bool
  /-- A single digit before a power of ten is followed by `.0`. -/
  powerZero : Bool
  powerWidth : Nat
  zeroSign : Bool
  nan : String
  infinity : String

namespace NumberStyle

def zeros (n : Nat) : List Char := List.replicate n '0'

/-- Digits with the point after the first `point` of them. -/
def layPlain (st : NumberStyle) (digits : List Char) (point : Int) : List Char :=
  if point ≤ 0 then '0' :: '.' :: (zeros (-point).toNat ++ digits)
  else if digits.length ≤ point.toNat then
    digits ++ zeros (point.toNat - digits.length) ++ (if st.wholeZero then ['.', '0'] else [])
  else digits.take point.toNat ++ '.' :: digits.drop point.toNat

def layPower (st : NumberStyle) (digits : List Char) (lead : Int) : List Char :=
  let power := Decimal.natChars lead.natAbs
  let head := match digits with
    | [d] => if st.powerZero then [d, '.', '0'] else [d]
    | d :: r => d :: '.' :: r
    | [] => []
  head ++ ['e', if lead < 0 then '-' else '+'] ++ zeros (st.powerWidth - power.length) ++ power

def layNumeral (st : NumberStyle) (n : Numeral) : List Char :=
  let digits := Decimal.natChars n.digits
  let point : Int := digits.length + n.exponent
  if st.plain (point - 1) then st.layPlain digits point else st.layPower digits (point - 1)

def spell (st : NumberStyle) (bits : UInt64) : String :=
  match Binary.read Binary.double bits.toNat with
  | .nan => st.nan
  | .infinite negative => if negative then "-" ++ st.infinity else st.infinity
  | .finite negative m e =>
    if m = 0 then
      let sign := if negative && st.zeroSign then ['-'] else []
      String.ofList (sign ++ st.layPlain ['0'] 1)
    else
      let n := match st.digits with
        | .shortest tie => Shortest.ofFinite Binary.double tie m e
        | .significant count => Shortest.toDigits count m e
      String.ofList ((if negative then ['-'] else []) ++ st.layNumeral n)

end NumberStyle

end WireQuery
