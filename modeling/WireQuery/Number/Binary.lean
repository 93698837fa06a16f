namespace WireQuery.Binary

structure Format where
  /-- Bits of the significand, the leading one included. -/
  precision : Nat
  exponentBits : Nat
  /-- The least positive value is two to the power of minus this. -/
  scale : Nat
  deriving DecidableEq, Repr

def single : Format := ⟨24, 8, 149⟩

def double : Format := ⟨53, 11, 1074⟩

namespace Format

def implicitBit (f : Format) : Nat := 1 <<< (f.precision - 1)

def infinity (f : Format) : Nat := (1 <<< f.exponentBits - 1) * f.implicitBit

def signBit (f : Format) : Nat := f.implicitBit <<< f.exponentBits

end Format

inductive Reading where
  | nan
  | infinite (negative : Bool)
  /-- `m` times two to the power of `e`. -/
  | finite (negative : Bool) (m : Nat) (e : Int)
  deriving DecidableEq, Repr

def read (f : Format) (bits : Nat) : Reading :=
  let negative := bits / f.signBit % 2 = 1
  let body := bits % f.signBit
  let exponent := body / f.implicitBit
  let fraction := body % f.implicitBit
  if exponent + 1 = 1 <<< f.exponentBits then
    if fraction = 0 then .infinite negative else .nan
  else if exponent = 0 then .finite negative fraction (-f.scale)
  else .finite negative (fraction + f.implicitBit) (exponent - 1 - f.scale)

def isNan (f : Format) (bits : Nat) : Bool := f.infinity < bits % f.signBit

def isZero (f : Format) (bits : Nat) : Bool := bits % f.signBit = 0

/-- Equality of numbers: the two zeros are equal, and no nan equals anything. -/
def same (f : Format) (a b : Nat) : Bool :=
  !isNan f a && !isNan f b && (a == b || (isZero f a && isZero f b))

/-- A quotient to the nearest whole number, a half to the even neighbour. -/
def divEven (num den : Nat) : Nat :=
  let q := num / den
  let r := num % den
  if 2 * r > den ∨ (2 * r = den ∧ q % 2 = 1) then q + 1 else q

/-- The power of two below a positive fraction. -/
def log2Quotient (num den : Nat) : Int :=
  let a : Int := (num.log2 : Int) - den.log2
  let small := if 0 ≤ a then num < den <<< a.toNat else num <<< (-a).toNat < den
  if small then a - 1 else a

/-- The magnitude nearest to a fraction; too large a one becomes infinite. -/
def roundQuotient (f : Format) (num den : Nat) : Nat :=
  if num = 0 then 0
  else
    let q := max (log2Quotient num den - (f.precision - 1 : Nat)) (-f.scale)
    let m := if 0 ≤ q then divEven num (den <<< q.toNat) else divEven (num <<< (-q).toNat) den
    min ((q + f.scale).toNat * f.implicitBit + m) f.infinity

def signed (f : Format) (negative : Bool) (magnitude : Nat) : Nat :=
  if negative then f.signBit + magnitude else magnitude

/-- The pattern of the same number in another format. -/
def convert (source target : Format) (bits : Nat) : Nat :=
  match read source bits with
  | .nan => target.infinity + target.implicitBit / 2
  | .infinite negative => signed target negative target.infinity
  | .finite negative m e =>
    signed target negative
      (if 0 ≤ e then roundQuotient target (m <<< e.toNat) 1 else roundQuotient target m (1 <<< (-e).toNat))

/-- The order of a number and an integer; nan has none. -/
def Reading.compareInt? : Reading → Int → Option Ordering
  | .nan, _ => none
  | .infinite negative, _ => some (if negative then .lt else .gt)
  | .finite negative m e, i =>
    let left := if negative then -(m : Int) else m
    some (if 0 ≤ e then compare (left <<< e.toNat) i else compare left (i <<< (-e).toNat))

end WireQuery.Binary
