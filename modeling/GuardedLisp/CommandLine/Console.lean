import GuardedLisp.Bridge

/-!
# What a console session offers to programs

`print` writes its arguments on a line of their own, `clock` tells the time in
milliseconds, and the module `math` has `sqrt`, `pow` and `floor`.
-/

namespace GuardedLisp.CommandLine

/-- The host of a console session. -/
structure Console where
  /-- All that was written so far. -/
  output : String
  /-- Milliseconds since the start of 1970, when the session began. -/
  now : Nat

namespace Console

def writeLine (c : Console) (line : String) : Console :=
  { c with output := c.output ++ line ++ "\n" }

def print : HostFunction Console := fun args => do
  modify fun c => c.writeLine (" ".intercalate (args.map Value.text))
  return .value .nil

def clock : HostFunction Console := fun _ => do
  return .value (.number (Float.ofNat (← get).now))

/-- The argument at an index, as a number. -/
def number (args : List Value) (index : Nat) : Except String Float :=
  match args[index]? with
  | some (.number x) => .ok x
  | some other => .error s!"expected a number, got {other.text}"
  | none => .error s!"missing argument {index + 1}"

/-- A host function that computes a number. -/
def numeric (f : List Value → Except String Float) : HostFunction Console := fun args =>
  match f args with
  | .ok x => return .value (.number x)
  | .error message => return .failure message

def math : HostModule Console := .ofFunctions [
  ("sqrt", numeric fun args => do return (← number args 0).sqrt),
  ("pow", numeric fun args => do
    let base ← number args 0
    let exponent ← number args 1
    return base.pow exponent),
  ("floor", numeric fun args => do return (← number args 0).floor)]

end Console

/-- The bridge of a console session. -/
def consoleBridge : Bridge Console :=
  ((Bridge.empty.registerFunction "print" Console.print).registerFunction
    "clock" Console.clock).registerModule "math" Console.math

end GuardedLisp.CommandLine
