import GuardedLisp.Decimal.Shortest

/-!
# Numbers as text

A number is written from its shortest digits, and two layouts differ in what
they do with them. `plain` writes every digit in place, never an exponent, and
a whole number without a point. `marked` gives a whole number the ending `.0`
and turns to an exponent from `10 ^ 16` on and below `10 ^ -4`. Both write the
sign of a negative zero, and neither one a sign before `NaN`.
-/

namespace GuardedLisp.Decimal

structure Layout where
  /-- Whether a number with so many digits before the point is written in place. -/
  inPlace : Int → Bool
  /-- Whether a whole number gets a fraction. -/
  marksWhole : Bool

namespace Layout

def plain : Layout := ⟨fun _ => true, false⟩

def marked : Layout := ⟨fun place => -4 < place && place ≤ 16, true⟩

def zeros (n : Int) : List Char := List.replicate n.toNat '0'

/-- The digits with the point after the first `place` of them. -/
def positional (l : Layout) (digits : List Char) (place : Int) : List Char :=
  if place ≤ 0 then '0' :: '.' :: zeros (-place) ++ digits
  else if place < digits.length then
    digits.take place.toNat ++ '.' :: digits.drop place.toNat
  else digits ++ zeros (place - digits.length) ++ if l.marksWhole then ['.', '0'] else []

/-- The digits with the point after the first one, and the power of ten. -/
def exponential (digits : List Char) (place : Int) : List Char :=
  let tail := digits.drop 1
  digits.take 1 ++ (if tail.isEmpty then [] else '.' :: tail) ++ 'e' :: (toString (place - 1)).toList

def magnitudeText (l : Layout) (x : Float) : List Char :=
  if x == 0.0 then '0' :: if l.marksWhole then ['.', '0'] else []
  else
    let n := shortest x
    let digits := Nat.toDigits 10 n.coefficient
    let place := n.exponent + digits.length
    if l.inPlace place then l.positional digits place else exponential digits place

def isNegative (x : Float) : Bool := 1 <<< 63 ≤ x.toBits.toNat

def text (l : Layout) (x : Float) : String :=
  if x.isNaN then "NaN"
  else
    let size := if isNegative x then -x else x
    let body := if size.isInf then ['i', 'n', 'f'] else l.magnitudeText size
    String.ofList (if isNegative x then '-' :: body else body)

end Layout

end GuardedLisp.Decimal
