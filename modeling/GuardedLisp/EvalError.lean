import GuardedLisp.Source.Program
import GuardedLisp.Text.Duration
import GuardedLisp.Value.Text

/-!
# Failures of an evaluation

Each failure is a cause that holds what its message quotes. `message` is the
only place where the wording is decided. The message of a syntax, arity, type
or limit failure starts with the name of its kind. The host sees a kind and a
message (`Report`), and a custom procedure fails with any of these.
-/

namespace GuardedLisp

/-- How the items after a reserved word can be wrong. -/
inductive SyntaxFault where
  | shape (form : Keyword)
  /-- What `def` or `set!` should bind is no symbol. -/
  | name (form : Keyword) (got : Value)
  | parameters (got : Value)
  | parameter (got : Value)
  | bindings (got : Value)
  | binding (got : Value)

/-- The shape that a form asks for. -/
def Keyword.expectation : Keyword → String
  | quote => "exactly one expression"
  | branch => "a condition, a consequent and an optional alternative"
  | define => "a name and a value"
  | assign => "a name and a value"
  | lambda => "a parameter list and a body"
  | bind => "a binding list and a body"
  | sequence => "at least one expression"

def SyntaxFault.message : SyntaxFault → String
  | shape form => s!"{form.name} expects {form.expectation}"
  | name form got => s!"{form.name} name must be a symbol, got {got.text}"
  | parameters got => s!"lambda parameters must be a list, got {got.text}"
  | parameter got => s!"lambda parameter must be a symbol, got {got.text}"
  | bindings got => s!"let bindings must be a list, got {got.text}"
  | binding got => s!"let binding must be (name value), got {got.text}"

/-- What the leading arguments of a bridge call name. -/
inductive HostName where
  | ofFunction
  | ofModule
  deriving DecidableEq, Repr

def HostName.text : HostName → String
  | ofFunction => "function name"
  | ofModule => "module name"

inductive ArityFault where
  | builtin (callee : Primitive) (expected got : Nat)
  | noArguments (callee : Primitive)
  | closure (params : List String) (got : Nat)
  | hostName (call : BridgeCall) (missing : HostName)

def ArityFault.message : ArityFault → String
  | builtin callee expected got => s!"{callee.name} expects {expected} argument(s), got {got}"
  | noArguments callee => s!"{callee.name} expects at least 1 argument"
  | closure params got =>
    s!"{closureText params} expects {params.length} argument(s), got {got}"
  | hostName call missing => s!"{call.name} expects a {missing.text} string"

inductive TypeFault where
  | number (callee : Primitive) (got : Value)
  | list (callee : Primitive) (got : Value)
  | callable (got : Value)
  | hostName (call : BridgeCall) (expected : HostName) (got : Value)

/-- A value with its type in front. -/
def Value.typedText (v : Value) : String := s!"{v.typeName} {v.text}"

def TypeFault.message : TypeFault → String
  | number callee got => s!"{callee.name} expects numbers, got {got.typedText}"
  | list callee got => s!"{callee.name} expects a list, got {got.typedText}"
  | callable got => s!"{got.typedText} is not callable"
  | hostName call expected got =>
    s!"{call.name} expects a {expected.text} string, got {got.typedText}"

/-- Why the guard stops an evaluation. -/
inductive Refusal where
  | operations
  | depth
  /-- The time limit, in nanoseconds, was passed. -/
  | time (limit : Nat)
  deriving DecidableEq, Repr

def limitMessage (what : String) : String := s!"Execution limit exceeded: {what}"

def Refusal.message : Refusal → String
  | operations => limitMessage "too many operations"
  | depth => limitMessage "maximum evaluation depth exceeded"
  | time limit => s!"Execution timeout: evaluation ran longer than {Text.durationText limit}"

/-- The kinds of failure that a host tells apart. -/
inductive ErrorKind where
  | parse | undefinedVariable | malformed | arity | type | limit | timeout
  | notAllowed | notRegistered | unknownModule | unknownMember | hostFailure
  deriving DecidableEq, Repr

/-- A failure as the host sees it. -/
structure Report where
  kind : ErrorKind
  message : String
  deriving DecidableEq, Repr

/-- Why a call into the host gives no value. -/
inductive BridgeError where
  | notAllowed (name : String)
  | notRegistered (name : String)
  | unknownModule (name : String)
  | unknownMember (owner name : String)
  | hostFailure (callee message : String)
  /-- A custom procedure failed; its report is passed on as it is. -/
  | raised (report : Report)
  deriving DecidableEq, Repr

def BridgeError.kind : BridgeError → ErrorKind
  | notAllowed _ => .notAllowed
  | notRegistered _ => .notRegistered
  | unknownModule _ => .unknownModule
  | unknownMember .. => .unknownMember
  | hostFailure .. => .hostFailure
  | raised report => report.kind

def BridgeError.message : BridgeError → String
  | notAllowed name => s!"Bridge error: '{name}' is not in the allow-list"
  | notRegistered name => s!"Bridge error: no host function registered as '{name}'"
  | unknownModule name => s!"Bridge error: no host module registered as '{name}'"
  | unknownMember owner name => s!"Bridge error: host module '{owner}' has no function '{name}'"
  | hostFailure callee message => s!"Bridge error: '{callee}' failed: {message}"
  | raised report => report.message

inductive EvalError where
  | parse (error : Source.ParseError)
  | undefinedVariable (name : String)
  | malformed (fault : SyntaxFault)
  | arity (fault : ArityFault)
  | type (fault : TypeFault)
  | listTooDeep
  | refused (refusal : Refusal)
  | bridge (error : BridgeError)

def EvalError.message : EvalError → String
  | parse error => error.message
  | undefinedVariable name => s!"Undefined variable: {name}"
  | malformed fault => s!"Syntax error: {fault.message}"
  | arity fault => s!"Arity error: {fault.message}"
  | type fault => s!"Type error: {fault.message}"
  | listTooDeep => limitMessage s!"list nested deeper than {Source.maxNesting} levels"
  | refused refusal => refusal.message
  | bridge error => error.message

def EvalError.kind : EvalError → ErrorKind
  | parse _ => .parse
  | undefinedVariable _ => .undefinedVariable
  | malformed _ => .malformed
  | arity _ => .arity
  | type _ => .type
  | listTooDeep | refused .operations | refused .depth => .limit
  | refused (.time _) => .timeout
  | bridge error => error.kind

def EvalError.report (e : EvalError) : Report := ⟨e.kind, e.message⟩

end GuardedLisp
