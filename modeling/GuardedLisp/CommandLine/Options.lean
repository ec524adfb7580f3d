import GuardedLisp.Decimal.Numeral
import GuardedLisp.Guard
import GuardedLisp.Text.Quoted

/-!
# Options of the command line

An option takes the argument after its first occurrence as its value, whatever
that argument looks like. The options are taken out in a fixed order, the
limits first, and nothing may be left over. A request for help wins over all
else, wherever it stands.
-/

namespace GuardedLisp.CommandLine

structure Options where
  limits : Limits
  /-- Evaluate this and stop. -/
  expression : Option String

inductive NumberFault where
  | empty
  | invalidDigit
  | tooLarge
  deriving DecidableEq, Repr

def NumberFault.message : NumberFault → String
  | empty => "cannot parse integer from empty string"
  | invalidDigit => "invalid digit found in string"
  | tooLarge => "number too large to fit in target type"

inductive UsageError where
  | missingValue (option : String)
  | badNumber (text : String) (fault : NumberFault)
  | unexpected (args : List String)
  deriving DecidableEq, Repr

def UsageError.message : UsageError → String
  | missingValue option => s!"the '{option}' option doesn't have an associated value"
  | badNumber text fault => s!"failed to parse '{text}': {fault.message}"
  | unexpected args =>
    "Unexpected arguments: " ++ Text.bracketed (args.map Text.quoted)

/-- Numbers have to stay below this bound. -/
def numberBound : Nat := 1 <<< 64

/-- Reads digits from the left, with `n` read already. -/
def readDigits (n : Nat) : List Char → Except NumberFault Nat
  | [] => .ok n
  | c :: cs =>
    if Decimal.isDigit c then
      let n := 10 * n + Decimal.digitValue c
      if n < numberBound then readDigits n cs else .error .tooLarge
    else .error .invalidDigit

/-- Reads a natural number; a plus sign may stand in front. -/
def readNumber (text : String) : Except NumberFault Nat :=
  match text.toList with
  | [] => .error .empty
  | ['+'] => .error .invalidDigit
  | '+' :: digits => readDigits 0 digits
  | digits => readDigits 0 digits

/-- Takes an option and its value out of the arguments. -/
def takeOption (option : String) : List String → Except UsageError (Option String × List String)
  | [] => .ok (none, [])
  | arg :: rest =>
    if arg = option then
      match rest with
      | [] => .error (.missingValue option)
      | value :: rest => .ok (some value, rest)
    else do
      let (value, rest) ← takeOption option rest
      return (value, arg :: rest)

/-- Takes an option with a number out of the arguments. -/
def takeNumber (option : String) (default : Nat) (args : List String) :
    Except UsageError (Nat × List String) := do
  match ← takeOption option args with
  | (none, rest) => return (default, rest)
  | (some text, rest) =>
    match readNumber text with
    | .ok n => return (n, rest)
    | .error fault => throw (.badNumber text fault)

def asksForHelp (args : List String) : Bool := args.any fun a => a == "-h" || a == "--help"

def nanosecondsPerMillisecond : Nat := 1000000

def Options.ofArgs (args : List String) : Except UsageError Options := do
  let (maxOperations, args) ← takeNumber "--max-ops" Limits.standard.maxOperations args
  let (milliseconds, args) ←
    takeNumber "--timeout-ms" (Limits.standard.timeout / nanosecondsPerMillisecond) args
  let (maxDepth, args) ← takeNumber "--max-depth" Limits.standard.maxDepth args
  let (expression, args) ← takeOption "-e" args
  if args.isEmpty then
    return ⟨⟨maxOperations, milliseconds * nanosecondsPerMillisecond, maxDepth⟩, expression⟩
  else throw (.unexpected args)

end GuardedLisp.CommandLine
