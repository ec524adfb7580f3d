import GuardedLisp.Bridge
import GuardedLisp.Guard
import GuardedLisp.Store

/-!
# The state of an evaluation

The world is what a program can act on: the scopes, the supply of identities
and the host's state. It keeps a journal of the visits and of every effect.
The machine adds the guard, which no program can act on.
-/

namespace GuardedLisp

/-- What happens in the course of an evaluation. -/
inductive Event where
  /-- A visit of an expression was asked for. -/
  | visit (code : Value) (frame : Nat)
  /-- The visit just asked for was admitted. -/
  | enter
  /-- The innermost visit under way ended. -/
  | leave
  /-- A value was called. -/
  | apply (callee : Value) (args : List Value)
  /-- A frame was created inside `parent`. -/
  | extend (parent : Nat) (bindings : List (String × Value))
  | define (frame : Nat) (name : String) (value : Value)
  /-- The nearest binding of the name, seen from `frame`, was overwritten. -/
  | assign (frame : Nat) (name : String) (value : Value)
  | callHost (target : HostTarget) (args : List Value)

structure World (σ : Type) where
  store : Store
  /-- The next free identity. -/
  next : Nat
  host : σ
  /-- Newest first. -/
  journal : List Event

structure Machine (σ : Type) where
  guard : Guard
  world : World σ

abbrev EvalM (σ : Type) := ExceptT EvalError (StateM (Machine σ))

namespace World

variable {σ : Type}

def record (w : World σ) (e : Event) : World σ := { w with journal := e :: w.journal }

/-- Runs a computation that may allocate. -/
def alloc {α : Type} (w : World σ) (x : AllocM α) : α × World σ :=
  let (a, next) := x.run w.next
  (a, { w with next })

/-- Creates a frame inside `parent`. -/
def extend (w : World σ) (parent : Nat) (bindings : List (String × Value)) :
    Nat × World σ :=
  (w.store.nextFrame, { w with
    store := w.store.extend parent bindings
    journal := .extend parent bindings :: w.journal })

def define (w : World σ) (frame : Nat) (name : String) (v : Value) : World σ :=
  { w with
    store := w.store.define frame name v
    journal := .define frame name v :: w.journal }

/-- Overwrites the nearest binding of a name; there has to be one. -/
def assign (w : World σ) (frame : Nat) (name : String) (v : Value) :
    Except EvalError Unit × World σ :=
  if w.store.contains frame name then
    (.ok (), { w with
      store := w.store.set frame name v
      journal := .assign frame name v :: w.journal })
  else (.error (.undefinedVariable name), w)

def lookup (w : World σ) (frame : Nat) (name : String) : Except EvalError Value :=
  match w.store.get? frame name with
  | some v => .ok v
  | none => .error (.undefinedVariable name)

/-- Calls the host function that the target names. -/
def callHost (w : World σ) (bridge : Bridge σ) (target : HostTarget) (args : List Value) :
    Except BridgeError Value × World σ :=
  match bridge.resolve target with
  | .error e => (.error e, w)
  | .ok f =>
    let ((reply, host), next) := (f args).run w.host |>.run w.next
    (Bridge.outcome target reply,
      { w with next, host, journal := .callHost target args :: w.journal })

end World

end GuardedLisp
