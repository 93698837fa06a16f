import WireQuery.Number.Binary
import WireQuery.Text.Decimal

namespace WireQuery

/-- The number `digits` times ten to the power of `exponent`. -/
structure Numeral where
  digits : Nat
  exponent : Int
  deriving DecidableEq, Repr

namespace Numeral

/-- A sign and digits after the mark of an exponent; without a digit there is no exponent. -/
def readExponent? (s : List Char) : Option (Int × List Char) :=
  let (negative, r) := Decimal.readSign s
  let digits := r.takeWhile Char.isDigit
  if digits.isEmpty then none
  else
    let n : Int := Decimal.value digits
    some (if negative then -n else n, r.dropWhile Char.isDigit)

/-- Digits, perhaps a point among them, then perhaps an exponent, and what follows. -/
def read? (s : List Char) : Option (Numeral × List Char) :=
  let whole := s.takeWhile Char.isDigit
  let r := s.dropWhile Char.isDigit
  let (fraction, r) := match r with
    | '.' :: r => (r.takeWhile Char.isDigit, r.dropWhile Char.isDigit)
    | r => ([], r)
  if whole.isEmpty && fraction.isEmpty then none
  else
    let digits := Decimal.value (whole ++ fraction)
    let point : Int := -(fraction.length : Int)
    match r with
    | c :: t =>
      if c = 'e' ∨ c = 'E' then
        match readExponent? t with
        | some (e, rest) => some (⟨digits, point + e⟩, rest)
        | none => some (⟨digits, point⟩, r)
      else some (⟨digits, point⟩, r)
    | [] => some (⟨digits, point⟩, [])

/-- The nearest magnitude of a format. A leading digit far outside its range decides at once. -/
def round (f : Binary.Format) (n : Numeral) : Nat :=
  let lead : Int := (Decimal.natChars n.digits).length + n.exponent
  if n.digits = 0 ∨ lead < -400 then 0
  else if 400 < lead then f.infinity
  else if 0 ≤ n.exponent then Binary.roundQuotient f (n.digits * Nat.pow 10 n.exponent.toNat) 1
  else Binary.roundQuotient f n.digits (Nat.pow 10 (-n.exponent).toNat)

end Numeral

end WireQuery
