import WireQuery.Number.Numeral

namespace WireQuery

/-- Which of two decimals at the same distance is taken. -/
inductive Tie where
  | even
  | up
  deriving DecidableEq, Repr

namespace Shortest

def twoPower (e : Int) : Nat × Nat := if 0 ≤ e then (1 <<< e.toNat, 1) else (1, 1 <<< (-e).toNat)

def tenPower (e : Int) : Nat × Nat := if 0 ≤ e then (Nat.pow 10 e.toNat, 1) else (1, Nat.pow 10 (-e).toNat)

/-- The exponent of the leading decimal digit of a positive fraction. -/
def leading (num den : Nat) : Int :=
  let guess := Binary.log2Quotient num den * 1233 / 4096
  let (an, ad) := tenPower (guess + 1)
  let (bn, bd) := tenPower guess
  if an * den ≤ num * ad then guess + 1
  else if num * bd < bn * den then guess - 1
  else guess

/-- The reals that round to one number, ends included or not: from `low` to `high`, over `den`, with `mid` the number. -/
structure Interval where
  low : Nat
  mid : Nat
  high : Nat
  den : Nat
  closed : Bool

/-- Below a power of two the next number is half as far away. -/
def interval (f : Binary.Format) (m : Nat) (e : Int) : Interval :=
  let (num, den) := twoPower (e - 2)
  let narrow := m = f.implicitBit ∧ -(f.scale : Int) < e
  ⟨(4 * m - if narrow then 1 else 2) * num, 4 * m * num, (4 * m + 2) * num, den, m % 2 = 0⟩

/-- Whether `c` steps of `num / den` lie in the interval. -/
def Interval.holds (i : Interval) (c num den : Nat) : Bool :=
  let point := c * num * i.den
  if i.closed then i.low * den ≤ point && point ≤ i.high * den
  else i.low * den < point && point < i.high * den

/-- Of the multiples of `10 ^ g` around the number, those in the interval, and the nearer one of two. -/
def Interval.onGrid? (i : Interval) (tie : Tie) (g : Int) : Option Nat :=
  let (num, den) := tenPower g
  let top := i.mid * den
  let bottom := i.den * num
  let below := top / bottom
  let r := top % bottom
  if r = 0 then some below
  else
    match i.holds below num den, i.holds (below + 1) num den with
    | false, false => none
    | true, false => some below
    | false, true => some (below + 1)
    | true, true =>
      if 2 * r < bottom then some below
      else if bottom < 2 * r then some (below + 1)
      else if tie = .even ∧ below % 2 = 0 then some below
      else some (below + 1)

def stripZerosIn : Nat → Nat → Int → Numeral
  | 0, digits, e => ⟨digits, e⟩
  | k + 1, digits, e => if digits % 10 = 0 then stripZerosIn k (digits / 10) (e + 1) else ⟨digits, e⟩

/-- The same number without zeros at its end. -/
def stripZeros (n : Numeral) : Numeral :=
  if n.digits = 0 then ⟨0, 0⟩ else stripZerosIn (Decimal.natChars n.digits).length n.digits n.exponent

/-- The positive number `m * 2 ^ e` on the coarsest decimal grid that has a point for it. -/
def ofFinite (f : Binary.Format) (tie : Tie) (m : Nat) (e : Int) : Numeral :=
  let i := interval f m e
  let k := leading i.mid i.den
  let found := (List.range 17).findSome? (fun (n : Nat) =>
    (i.onGrid? tie (k - n)).map (fun c => (⟨c, k - n⟩ : Numeral)))
  stripZeros (found.getD ⟨m, e⟩)

/-- The positive number `m * 2 ^ e` to a count of digits, a half away from zero. -/
def toDigits (count : Nat) (m : Nat) (e : Int) : Numeral :=
  let (n, den) := twoPower e
  let g := leading (m * n) den - (count - 1 : Nat)
  let (num, d) := tenPower g
  let bottom := den * num
  stripZeros ⟨(2 * (m * n * d) + bottom) / (2 * bottom), g⟩

end Shortest

end WireQuery
