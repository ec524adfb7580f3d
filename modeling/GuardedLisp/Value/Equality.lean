import GuardedLisp.Value.Basic
import Std.Data.HashSet

/-!
# Equality of values

Values of different kinds are unequal. Numbers are compared as numbers, so NaN
is unequal to itself; procedures by identity. Two lists are equal when they are
the same allocation, or when they have equal length and equal items.

A comparison remembers the pairs of allocations it found equal, and does not
look into such a pair again: values that share their sublists are compared in
time that grows with the number of allocations, not with the size of the trees.
Depth and length settle most unequal pairs without a look at the items.
-/

namespace GuardedLisp

/-- What a comparison in progress has learned. -/
structure Comparison where
  /-- The pairs found equal. -/
  matched : Std.HashSet (Nat × Nat)
  /-- The pairs whose items were compared, newest first. -/
  expanded : List (Nat × Nat)

namespace Comparison

def start : Comparison := ⟨∅, []⟩

def expand (c : Comparison) (pair : Nat × Nat) : Comparison :=
  { c with expanded := pair :: c.expanded }

def found (c : Comparison) (pair : Nat × Nat) : Comparison :=
  { c with matched := c.matched.insert pair }

end Comparison

namespace Value

mutual

def compare : Value → Value → Comparison → Bool × Comparison
  | list a depth xs, list b depth' ys, c =>
    if a = b then (true, c)
    else if depth ≠ depth' ∨ xs.length ≠ ys.length then (false, c)
    else if c.matched.contains (a, b) then (true, c)
    else
      let (same, c) := compareItems xs ys (c.expand (a, b))
      (same, if same then c.found (a, b) else c)
  | nil, nil, c => (true, c)
  | bool b, bool b', c => (b == b', c)
  | number x, number y, c => (x == y, c)
  | string s, string t, c => (s == t, c)
  | symbol s, symbol t, c => (s == t, c)
  | builtin a _, builtin b _, c => (a == b, c)
  | closure a .., closure b .., c => (a == b, c)
  | bridge a _, bridge b _, c => (a == b, c)
  | _, _, c => (false, c)

/-- Compares items pairwise, from the left, up to the first difference. -/
def compareItems : List Value → List Value → Comparison → Bool × Comparison
  | x :: xs, y :: ys, c =>
    let (same, c) := compare x y c
    if same then compareItems xs ys c else (false, c)
  | _, _, c => (true, c)

end

def equal (v w : Value) : Bool := (compare v w .start).1

end Value

end GuardedLisp
