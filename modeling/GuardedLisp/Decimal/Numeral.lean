/-!
# Decimal numerals

A numeral stands for `± coefficient · 10 ^ exponent`. Its value is the double
nearest to that number, of two equally near ones the one with an even mantissa;
a numeral too large for any double has an infinite value. The sign is applied
last, so `-0` is the negative zero.

`read` takes every text of a double: numerals with or without a point and an
exponent, and the names of the values that are not finite.
-/

namespace GuardedLisp.Decimal

def isDigit (c : Char) : Bool := '0' ≤ c && c ≤ '9'

def digitValue (c : Char) : Nat := c.toNat - '0'.toNat

/-- The number that a run of digits stands for. -/
def digitsValue (digits : List Char) : Nat :=
  digits.foldl (fun n c => 10 * n + digitValue c) 0

def powerOfTen (k : Nat) : Nat := Nat.pow 10 k

structure Numeral where
  negative : Bool
  coefficient : Nat
  exponent : Int
  deriving DecidableEq, Repr

namespace Numeral

def magnitude (n : Numeral) : Float :=
  if n.exponent < 0 then Float.ofScientific n.coefficient true n.exponent.natAbs
  else Float.ofScientific n.coefficient false n.exponent.natAbs

def value (n : Numeral) : Float := if n.negative then -n.magnitude else n.magnitude

/-- The numeral with these digits before and after the point. -/
def ofDigits (negative : Bool) (whole fraction : List Char) : Numeral :=
  ⟨negative, digitsValue (whole ++ fraction), -(fraction.length : Int)⟩

/-- The same number without a power of ten to multiply by. -/
def writtenOut (n : Numeral) : Numeral :=
  if 0 < n.exponent then ⟨n.negative, n.coefficient * powerOfTen n.exponent.natAbs, 0⟩ else n

/-- The same number without zeros at the end of the coefficient. -/
def trimmed (n : Numeral) : Numeral :=
  if _h : n.coefficient ≠ 0 ∧ n.coefficient % 10 = 0 then
    trimmed ⟨n.negative, n.coefficient / 10, n.exponent + 1⟩
  else n
termination_by n.coefficient
decreasing_by exact Nat.div_lt_self (Nat.pos_of_ne_zero _h.1) (by decide)

end Numeral

/-! ## Texts of doubles -/

/-- A sign in front of a text, and what follows it. -/
def splitSign : List Char → Bool × List Char
  | '-' :: cs => (true, cs)
  | '+' :: cs => (false, cs)
  | cs => (false, cs)

/-- The power of ten that the end of a text names: 0 if there is nothing, else `e` or `E` and a
whole number. -/
def readExponent : List Char → Option Int
  | [] => some 0
  | c :: cs =>
    let (negative, digits) := splitSign cs
    if (c = 'e' ∨ c = 'E') ∧ digits ≠ [] ∧ digits.all isDigit then
      some (if negative then -digitsValue digits else digitsValue digits)
    else none

/-- The double that a whole text spells: after a sign either `inf`, `infinity` or `nan` in letters
of any case, or digits with a point among them or at one of their ends, and an exponent. -/
def read (text : List Char) : Option Float :=
  let (negative, cs) := splitSign text
  let word := String.ofList (cs.map Char.toLower)
  if word = "inf" ∨ word = "infinity" then some (if negative then -(1 / 0) else 1 / 0)
  else if word = "nan" then some (0 / 0)
  else
    let tail := cs.dropWhile isDigit
    let point := tail.head? == some '.'
    let whole := cs.takeWhile isDigit
    let fraction := if point then (tail.drop 1).takeWhile isDigit else []
    let rest := if point then (tail.drop 1).dropWhile isDigit else tail
    if whole = [] ∧ fraction = [] then none
    else (readExponent rest).map fun exponent =>
      (Numeral.mk negative (digitsValue (whole ++ fraction)) (exponent - fraction.length)).value

end GuardedLisp.Decimal
