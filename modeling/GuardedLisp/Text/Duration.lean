/-!
# Durations as text

A duration, a whole number of nanoseconds, is written in the largest of the
units s, ms, µs and ns of which it holds at least one, with as many decimals as
it needs.
-/

namespace GuardedLisp.Text

structure TimeUnit where
  name : String
  /-- How many decimals a nanosecond takes in this unit. -/
  places : Nat

namespace TimeUnit

def seconds : TimeUnit := ⟨"s", 9⟩
def milliseconds : TimeUnit := ⟨"ms", 6⟩
def microseconds : TimeUnit := ⟨"µs", 3⟩
def nanoseconds : TimeUnit := ⟨"ns", 0⟩

def size (u : TimeUnit) : Nat := Nat.pow 10 u.places

def largestIn (ns : Nat) : TimeUnit :=
  if seconds.size ≤ ns then seconds
  else if milliseconds.size ≤ ns then milliseconds
  else if microseconds.size ≤ ns then microseconds
  else nanoseconds

end TimeUnit

/-- The decimals of `fraction / 10 ^ places`, without the zeros at their end. -/
def decimals (fraction places : Nat) : List Char :=
  let digits := Nat.toDigits 10 fraction
  let padded := List.replicate (places - digits.length) '0' ++ digits
  (padded.reverse.dropWhile (· == '0')).reverse

def durationText (ns : Nat) : String :=
  let u := TimeUnit.largestIn ns
  let fraction := decimals (ns % u.size) u.places
  String.ofList (Nat.toDigits 10 (ns / u.size) ++
    (if fraction.isEmpty then [] else '.' :: fraction)) ++ u.name

end GuardedLisp.Text
