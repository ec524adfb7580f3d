import GuardedLisp.Decimal.Numeral

/-!
# The shortest decimal of a double

A finite double is written with the fewest significant digits that read back as
the same double. Among numerals of that length the nearest one is taken, and of
two equally near ones the greater. On the grid of all numerals with a given
number of digits only the two neighbours of the exact value are candidates, so
the search tries grids of 1, 2, … 17 digits and keeps the first with a hit.
"Reads back" is meant of the digits written out in full.
-/

namespace GuardedLisp.Decimal

/-- A magnitude as an exact quotient. -/
structure Ratio where
  num : Nat
  den : Nat
  deriving Repr

/-- How many bits of a double hold the fraction of its mantissa. -/
def fractionBits : Nat := 52

/-- The exact magnitude of a finite double. -/
def magnitudeOf (x : Float) : Ratio :=
  let bits := x.toBits.toNat
  let fraction := bits % (1 <<< fractionBits)
  let field := (bits >>> fractionBits) % (1 <<< 11)
  let mantissa := (1 <<< fractionBits) + fraction
  if field = 0 then ⟨fraction, 1 <<< 1074⟩
  else if field < 1075 then ⟨mantissa, 1 <<< (1075 - field)⟩
  else ⟨mantissa <<< (field - 1075), 1⟩

namespace Ratio

def digitCount (n : Nat) : Nat := (Nat.toDigits 10 n).length

/-- The number of digits before the point: `10 ^ (p - 1) ≤ r < 10 ^ p`. -/
def pointPlace (r : Ratio) : Int :=
  if r.den ≤ r.num then digitCount (r.num / r.den) else 1 - (digitCount (r.den / r.num) : Int)

/-- `r / 10 ^ exponent`. -/
def scaled (r : Ratio) (exponent : Int) : Ratio :=
  if exponent < 0 then ⟨r.num * powerOfTen exponent.natAbs, r.den⟩
  else ⟨r.num, r.den * powerOfTen exponent.natAbs⟩

/-- The multiples of `10 ^ exponent` around `r`, the nearer one first, and the greater one if
both are equally near. -/
def neighbours (r : Ratio) (exponent : Int) : List Numeral :=
  let s := r.scaled exponent
  let below := s.num / s.den
  let low : Numeral := ⟨false, below, exponent⟩
  let high : Numeral := ⟨false, below + 1, exponent⟩
  if 2 * (s.num % s.den) < s.den then [low, high] else [high, low]

/-- All digits of `r`: a denominator that is a power of two divides that power of ten. -/
def exact (r : Ratio) : Numeral :=
  let places := r.den.log2
  ⟨false, r.num * powerOfTen places / r.den, -(places : Int)⟩

end Ratio

/-- Whether the digits of a numeral, written out in full, have the value `x`. -/
def Numeral.readsBack (x : Float) (n : Numeral) : Bool := n.writtenOut.magnitude == x

/-- The shortest numeral that reads back as the positive finite `x`, without zeros at its end. -/
def shortest (x : Float) : Numeral :=
  let r := magnitudeOf x
  let place := r.pointPlace
  let found := (List.range 17).findSome? fun n =>
    ((r.neighbours (place - (n + 1 : Nat))).map Numeral.trimmed).find? (Numeral.readsBack x)
  found.getD r.exact.trimmed

end GuardedLisp.Decimal
