import GuardedLisp.Eval.Form
import GuardedLisp.Eval.Machine
import GuardedLisp.Primitive.Apply

/-!
# One step of evaluation

What a visited expression does, given `visit` to evaluate its parts. An
application evaluates its head, then its operands from the left, each once, and
then calls. A closure runs its body in a new frame inside the frame it was made
in. `let` evaluates its values in the outer scope; of equal names the last one
counts, there as in a parameter list.
-/

namespace GuardedLisp

variable {σ : Type}

namespace EvalM

/-- A change of the world that gives a result. -/
def onWorld {α : Type} (f : World σ → α × World σ) : EvalM σ α := fun m =>
  let (a, world) := f m.world
  (.ok a, { m with world })

/-- A change of the world that may fail. -/
def tryOnWorld {α : Type} (f : World σ → Except EvalError α × World σ) : EvalM σ α := fun m =>
  let (r, world) := f m.world
  (r, { m with world })

/-- Enters an event into the journal. -/
def note (e : Event) : EvalM σ Unit := onWorld fun w => ((), w.record e)

def ofExcept {ε α : Type} (wrap : ε → EvalError) (r : Except ε α) : EvalM σ α :=
  match r with
  | .ok a => pure a
  | .error e => throw (wrap e)

end EvalM

open EvalM

/-- Evaluates a subexpression in a frame. -/
abbrev Visit (σ : Type) := Value → Nat → EvalM σ Value

namespace Visit

variable (visit : Visit σ)

/-- Evaluates expressions from the left. -/
def each (frame : Nat) : List Value → EvalM σ (List Value)
  | [] => return []
  | e :: es => do
    let v ← visit e frame
    return v :: (← each frame es)

/-- Evaluates expressions from the left and keeps the last value. -/
def last (frame : Nat) (first : Value) : List Value → EvalM σ Value
  | [] => visit first frame
  | e :: es => do
    let _ ← visit first frame
    last frame e es

/-- Runs `body` in a new frame inside `parent`. -/
def inFrame (parent : Nat) (bindings : List (String × Value)) (body : Value) :
    EvalM σ Value := do
  let frame ← onWorld (·.extend parent bindings)
  visit body frame

end Visit

/-- The string that has to stand at this place among the arguments of a bridge call. -/
def hostName (call : BridgeCall) (what : HostName) : Option Value → Except EvalError String
  | some (.string s) => .ok s
  | some got => .error (.type (.hostName call what got))
  | none => .error (.arity (.hostName call what))

/-- What a bridge call asks for: its leading arguments name the callable, unless it is the
procedure itself. -/
def BridgeCall.target (call : BridgeCall) (args : List Value) :
    Except EvalError (HostTarget × List Value) :=
  match call with
  | .function => do
    let name ← hostName call .ofFunction args[0]?
    return (.function name, args.drop 1)
  | .member => do
    let owner ← hostName call .ofModule args[0]?
    let name ← hostName call .ofFunction args[1]?
    return (.member owner name, args.drop 2)
  | .custom code name => return (.custom code name, args)

/-- Calls into the host. -/
def callBridge (bridge : Bridge σ) (call : BridgeCall) (args : List Value) : EvalM σ Value := do
  let (target, rest) ← ofExcept id (call.target args)
  let reply ← onWorld (·.callHost bridge target rest)
  ofExcept .bridge reply

/-- Calls a value with arguments. -/
def applyWith (bridge : Bridge σ) (visit : Visit σ) (callee : Value) (args : List Value) :
    EvalM σ Value := do
  note (.apply callee args)
  match callee with
  | .builtin _ p => tryOnWorld (·.alloc (p.apply args))
  | .closure _ params body frame =>
    if params.length = args.length then visit.inFrame frame (params.zip args) body
    else throw (.arity (.closure params args.length))
  | .bridge _ call => callBridge bridge call args
  | _ => throw (.type (.callable callee))

namespace SpecialForm

/-- Runs a well-formed special form. -/
def run (visit : Visit σ) (frame : Nat) : SpecialForm → EvalM σ Value
  | quote datum => return datum
  | branch condition consequent alternative => do
    let v ← visit condition frame
    if v.truthy then visit consequent frame
    else
      match alternative with
      | some e => visit e frame
      | none => return .nil
  | define name e => do
    let v ← visit e frame
    onWorld fun w => (v, w.define frame name v)
  | assign name e => do
    let v ← visit e frame
    tryOnWorld (·.assign frame name v)
    return v
  | lambda params body => do
    let addr ← onWorld (·.alloc fresh)
    return .closure addr params body frame
  | bind bindings body => do
    let values ← visit.each frame (bindings.map Prod.snd)
    visit.inFrame frame ((bindings.map Prod.fst).zip values) body
  | sequence first rest => visit.last frame first rest

end SpecialForm

/-- What a visited expression does. -/
def evalStep (bridge : Bridge σ) (visit : Visit σ) (code : Value) (frame : Nat) :
    EvalM σ Value :=
  match code.code with
  | .constant v => return v
  | .variable name => tryOnWorld fun w => (w.lookup frame name, w)
  | .special form operands => do
    let checked ← ofExcept .malformed (SpecialForm.check form operands)
    checked.run visit frame
  | .application head operands => do
    let callee ← visit head frame
    let args ← visit.each frame operands
    applyWith bridge visit callee args

end GuardedLisp
