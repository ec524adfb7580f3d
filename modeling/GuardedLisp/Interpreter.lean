import GuardedLisp.Eval.Run
import GuardedLisp.Globals

/-!
# Interpreters

An interpreter owns its global frame, its guard and its bridge, and shares them
with no other. Each evaluation has the whole of the limits to itself. A reset
gives it a fresh global frame; what the host registered and allowed is kept.
-/

namespace GuardedLisp

namespace World

variable {σ : Type}

def start (host : σ) : World σ := ⟨.empty, 0, host, []⟩

/-- Adds a root frame with fresh global bindings. -/
def addGlobals (w : World σ) : Nat × World σ :=
  let (table, w) := w.alloc Globals.table
  (w.store.nextFrame, { w with store := w.store.addRoot table })

end World

structure Interpreter (σ : Type) where
  bridge : Bridge σ
  machine : Machine σ
  global : Nat

namespace Interpreter

variable {σ : Type}

/-- An interpreter whose host offers nothing yet. -/
def new (limits : Limits) (clock : Clock) (host : σ) : Interpreter σ :=
  let (global, world) := (World.start host).addGlobals
  ⟨.empty, ⟨.start limits clock, world⟩, global⟩

def limits (i : Interpreter σ) : Limits := i.machine.guard.limits

/-- Evaluates a program text in the global frame. -/
def eval (i : Interpreter σ) (text : String) : Except EvalError Value × Interpreter σ :=
  let (result, machine) := (evalText i.bridge text i.global).run i.machine
  (result, { i with machine })

def onWorld {α : Type} (i : Interpreter σ) (f : World σ → α × World σ) : α × Interpreter σ :=
  let (a, world) := f i.machine.world
  (a, { i with machine := { i.machine with world } })

def onStore (i : Interpreter σ) (f : Store → Store) : Interpreter σ :=
  (i.onWorld fun w => ((), { w with store := f w.store })).2

/-- Binds a value in the global frame. -/
def define (i : Interpreter σ) (name : String) (v : Value) : Interpreter σ :=
  i.onStore (·.define i.global name v)

def get (i : Interpreter σ) (name : String) : Except EvalError Value :=
  i.machine.world.lookup i.global name

/-- Overwrites a binding of the global frame; there has to be one. -/
def assign (i : Interpreter σ) (name : String) (v : Value) :
    Except EvalError Unit × Interpreter σ := i.onWorld (·.assign i.global name v)

def contains (i : Interpreter σ) (name : String) : Bool :=
  i.machine.world.store.contains i.global name

/-- Forgets every global binding, those built in, too. -/
def clear (i : Interpreter σ) : Interpreter σ := i.onStore (·.clear i.global)

/-- Forgets every global binding that is not built in. -/
def reset (i : Interpreter σ) : Interpreter σ :=
  let (global, i) := i.clear.onWorld (·.addGlobals)
  { i with global }

/-- The names that the global frame binds. -/
def names (i : Interpreter σ) : List String := i.machine.world.store.names i.global

/-- From here on, evaluations take the time that this clock tells. -/
def setClock (i : Interpreter σ) (clock : Clock) : Interpreter σ :=
  { i with machine := { i.machine with guard := { i.machine.guard with clock } } }

def registerFunction (i : Interpreter σ) (name : String) (f : HostFunction σ) : Interpreter σ :=
  { i with bridge := i.bridge.registerFunction name f }

def registerModule (i : Interpreter σ) (name : String) (m : HostModule σ) : Interpreter σ :=
  { i with bridge := i.bridge.registerModule name m }

end Interpreter

end GuardedLisp
