import GuardedLisp.EvalError

/-!
# The guard

The guard admits every visit of an expression. It counts the visits, and it
tracks how deeply they nest. A visit is counted first and then refused if it is
one too many, if time has run out, or if it would nest too deeply, in this
order. A refused visit is counted, but it does not nest.
-/

namespace GuardedLisp

/-- The resources of one evaluation. -/
structure Limits where
  maxOperations : Nat
  /-- In nanoseconds. -/
  timeout : Nat
  maxDepth : Nat
  deriving DecidableEq, Repr

namespace Limits

/-- 100 000 visits, five seconds, 512 levels. -/
def standard : Limits := ⟨100000, 5000000000, 512⟩

end Limits

/-- The time in nanoseconds that has passed at the given visit since the count began. What takes
how long is for the host's machine to say, anew for each evaluation. -/
abbrev Clock := Nat → Nat

/-- A clock for a machine that needs 100 nanoseconds for every visit. -/
def Clock.nominal : Clock := fun visit => 100 * visit

structure Guard where
  limits : Limits
  clock : Clock
  operations : Nat
  depth : Nat

namespace Guard

def start (limits : Limits) (clock : Clock) : Guard := ⟨limits, clock, 0, 0⟩

/-- Starts the count and the clock afresh. -/
def reset (g : Guard) : Guard := { g with operations := 0, depth := 0 }

/-- Why the visit after the last one counted has to be refused, if it has to be. -/
def refusal? (g : Guard) : Option Refusal :=
  if g.limits.maxOperations < g.operations + 1 then some .operations
  else if g.limits.timeout < g.clock (g.operations + 1) then some (.time g.limits.timeout)
  else if g.limits.maxDepth ≤ g.depth then some .depth
  else none

/-- Asks for a visit. Each one that is admitted ends with `leave`. -/
def enter (g : Guard) : Except Refusal Unit × Guard :=
  match g.refusal? with
  | some r => (.error r, { g with operations := g.operations + 1 })
  | none => (.ok (), { g with operations := g.operations + 1, depth := g.depth + 1 })

def leave (g : Guard) : Guard := { g with depth := g.depth - 1 }

/-- How many more levels visits may nest. -/
def room (g : Guard) : Nat := g.limits.maxDepth - g.depth

end Guard

end GuardedLisp
