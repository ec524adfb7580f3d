import GuardedLisp.EvalError
import Std.Data.TreeMap
import Std.Data.TreeSet

/-!
# The bridge to the host

The host offers functions by name, and modules of functions. A function can be
called while its name is on the allow-list: registering a function puts it
there, and the host may take it off or put any name on. Modules need no
permission. Only the host changes these tables; a program can call through
them and nothing else.

A host function runs on the host's own state `σ`, may allocate values, and
answers with a value, with a failure, or by crashing. A crash is reported like
a failure.

The host can also write custom procedures and hand them to a program as values.
Such a procedure holds the number of its code, and can be called by whoever holds
it. It answers with a value, or it fails as the interpreter itself might.
-/

namespace GuardedLisp

inductive HostReply where
  | value (v : Value)
  | failure (message : String)
  /-- A crash, with a text if the host gave one. -/
  | crash (message : Option String)
  /-- The failure of a custom procedure. -/
  | raise (report : Report)

abbrev HostM (σ : Type) := StateT σ AllocM

abbrev HostFunction (σ : Type) := List Value → HostM σ HostReply

abbrev HostModule (σ : Type) := Std.TreeMap String (HostFunction σ)

namespace HostModule

variable {σ : Type}

/-- A later function of the same name replaces an earlier one. -/
def ofFunctions (functions : List (String × HostFunction σ)) : HostModule σ :=
  Std.TreeMap.ofList functions

def names (m : HostModule σ) : List String := m.keys

end HostModule

/-- The code of a custom procedure. -/
abbrev CustomFunction (σ : Type) := List Value → HostM σ (Except Report Value)

def HostReply.ofResult : Except Report Value → HostReply
  | .ok v => .value v
  | .error report => .raise report

def CustomFunction.callable {σ : Type} (f : CustomFunction σ) : HostFunction σ :=
  fun args => HostReply.ofResult <$> f args

structure Bridge (σ : Type) where
  functions : Std.TreeMap String (HostFunction σ)
  modules : Std.TreeMap String (HostModule σ)
  allowed : Std.TreeSet String
  /-- By the number of the code. -/
  custom : Std.TreeMap Nat (CustomFunction σ)

/-- Which host callable a program asks for. -/
inductive HostTarget where
  | function (name : String)
  | member (owner name : String)
  | custom (code : Nat) (name : String)
  deriving DecidableEq, Repr

/-- How failures name the callable. -/
def HostTarget.text : HostTarget → String
  | function name => name
  | member owner name => s!"{owner}.{name}"
  | custom _ name => name

namespace Bridge

variable {σ : Type}

def empty : Bridge σ := ⟨∅, ∅, ∅, ∅⟩

/-- Registers a function and allows it. -/
def registerFunction (b : Bridge σ) (name : String) (f : HostFunction σ) : Bridge σ :=
  { b with functions := b.functions.insert name f, allowed := b.allowed.insert name }

def registerModule (b : Bridge σ) (name : String) (m : HostModule σ) : Bridge σ :=
  { b with modules := b.modules.insert name m }

def allow (b : Bridge σ) (name : String) : Bridge σ :=
  { b with allowed := b.allowed.insert name }

def isAllowed (b : Bridge σ) (name : String) : Bool := b.allowed.contains name

/-- Takes the name off the allow-list; its registration stays. -/
def revoke (b : Bridge σ) (name : String) : Bridge σ :=
  { b with allowed := b.allowed.erase name }

/-- Puts code under a number. -/
def write (b : Bridge σ) (code : Nat) (f : CustomFunction σ) : Bridge σ :=
  { b with custom := b.custom.insert code f }

/-- The callable that a target names, if a program may call it. No custom procedure is without code;
such a one would count as not registered. -/
def resolve (b : Bridge σ) : HostTarget → Except BridgeError (HostFunction σ)
  | .function name =>
    if b.isAllowed name then
      match b.functions[name]? with
      | some f => .ok f
      | none => .error (.notRegistered name)
    else .error (.notAllowed name)
  | .member owner name =>
    match b.modules[owner]? with
    | none => .error (.unknownModule owner)
    | some m =>
      match m[name]? with
      | some f => .ok f
      | none => .error (.unknownMember owner name)
  | .custom code name =>
    match b.custom[code]? with
    | some f => .ok f.callable
    | none => .error (.notRegistered name)

/-- Only a custom procedure fails with a report; from a callable it would count as a failure with
that message. -/
def raised : HostTarget → Report → BridgeError
  | .custom .., report => .raised report
  | target, report => .hostFailure target.text report.message

/-- What a program gets for a host's reply. -/
def outcome (target : HostTarget) : HostReply → Except BridgeError Value
  | .value v => .ok v
  | .failure message => .error (.hostFailure target.text message)
  | .crash message => .error (.hostFailure target.text (message.getD "host function panicked"))
  | .raise report => .error (raised target report)

end Bridge

end GuardedLisp
