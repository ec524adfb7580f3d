import GuardedLisp.CommandLine.Console
import GuardedLisp.CommandLine.Options
import GuardedLisp.Interpreter

/-!
# Runs of the command

A run gets its arguments, its whole input and the time, and gives its whole
output and its exit code. With `-e` it evaluates one text; a failure goes to
the error output. Otherwise it evaluates every line of the input that is not
blank, and writes values and failures alike to the standard output. The lines
`:env` and `:reset` list the global names and forget what was defined.
-/

namespace GuardedLisp.Text

/-- The Unicode property `White_Space`. -/
def isWhiteSpace (c : Char) : Bool :=
  let n := c.toNat
  (0x9 ≤ n && n ≤ 0xd) || n == 0x20 || n == 0x85 || n == 0xa0 || n == 0x1680 ||
    (0x2000 ≤ n && n ≤ 0x200a) || n == 0x2028 || n == 0x2029 || n == 0x202f || n == 0x205f ||
    n == 0x3000

/-- A text without the white space at its ends. -/
def trim (s : String) : String :=
  String.ofList
    ((s.toList.dropWhile isWhiteSpace).reverse.dropWhile isWhiteSpace).reverse

end GuardedLisp.Text

namespace GuardedLisp.CommandLine

structure Outcome where
  code : Nat
  stdout : String
  stderr : String
  deriving DecidableEq, Repr

structure Session where
  interpreter : Interpreter Console

namespace Session

def start (limits : Limits) (now : Nat) : Session :=
  ⟨{ Interpreter.new limits .nominal ⟨"", now⟩ with bridge := consoleBridge }⟩

def writeLine (s : Session) (line : String) : Session :=
  ⟨(s.interpreter.onWorld fun w => ((), { w with host := w.host.writeLine line })).2⟩

/-- All that was written so far. -/
def output (s : Session) : String := s.interpreter.machine.world.host.output

def eval (s : Session) (text : String) : Except EvalError Value × Session :=
  let (result, interpreter) := s.interpreter.eval text
  (result, ⟨interpreter⟩)

/-- Handles a line of input. -/
def runLine (s : Session) (line : String) : Session :=
  let command := Text.trim line
  if command.isEmpty then s
  else if command = ":reset" then ⟨s.interpreter.reset⟩
  else if command = ":env" then s.writeLine (" ".intercalate s.interpreter.names)
  else
    match s.eval line with
    | (.ok v, s) => s.writeLine v.text
    | (.error e, s) => s.writeLine e.message

end Session

/-- A line without the carriage return at its end. -/
def withoutReturn (line : List Char) : List Char :=
  if line.getLast? = some '\r' then line.dropLast else line

/-- The lines of an input; `done` is what was read of the current line, newest first. -/
def splitLines (done : List Char) : List Char → List String
  | [] => if done.isEmpty then [] else [String.ofList done.reverse]
  | c :: cs =>
    if c = '\n' then String.ofList (withoutReturn done.reverse) :: splitLines [] cs
    else splitLines (c :: done) cs

def helpText : String :=
  "\n".intercalate [
    "Usage: sandlisp [options]",
    "Options:",
    "  -h, --help: Print this help message",
    "  -e <expr>: Evaluate <expr> and exit",
    "  --max-ops <n>: Evaluation steps allowed per input (default: 100000)",
    "  --timeout-ms <ms>: Wall-clock budget per input (default: 5000)",
    "  --max-depth <n>: Maximum evaluation nesting (default: 512)",
    "At the prompt, :env lists global names and :reset forgets user definitions",
    ""]

/-- The outcome of a run that fails after some output. -/
def failed (stdout message : String) : Outcome :=
  ⟨1, stdout, "Error: " ++ Text.quoted message ++ "\n"⟩

namespace Session

/-- Evaluates one text and ends. -/
def runText (s : Session) (text : String) : Outcome :=
  match s.eval text with
  | (.ok v, s) => ⟨0, (s.writeLine v.text).output, ""⟩
  | (.error e, s) => failed s.output e.message

/-- Handles an input line by line. -/
def runInput (s : Session) (input : String) : Outcome :=
  ⟨0, ((splitLines [] input.toList).foldl runLine s).output, ""⟩

end Session

def run (args : List String) (input : String) (now : Nat) : Outcome :=
  if asksForHelp args then ⟨0, helpText, ""⟩
  else
    match Options.ofArgs args with
    | .error e => failed "" e.message
    | .ok options =>
      let session := Session.start options.limits now
      match options.expression with
      | some text => session.runText text
      | none => session.runInput input

/-- Whether a run with these arguments looks at its input. -/
def readsInput (args : List String) : Bool :=
  !asksForHelp args &&
    match Options.ofArgs args with
    | .ok options => options.expression.isNone
    | .error _ => false

end GuardedLisp.CommandLine
