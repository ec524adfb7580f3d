import GuardedLisp.Eval.Step

/-!
# Guarded evaluation

Every visit of an expression asks the guard and ends with `leave`, whatever
comes of it. Visits nest at most as deep as the guard has room for, and this
room is what the recursion descends on: no expression, and no loop through
closures and assignments, can make an evaluation endless.
-/

namespace GuardedLisp

variable {σ : Type}

/-- Runs `step` as one visit of `code`. -/
def guarded (code : Value) (frame : Nat) (step : EvalM σ Value) : EvalM σ Value := fun m =>
  let world := m.world.record (.visit code frame)
  let (admission, guard) := m.guard.enter
  match admission with
  | .error r => (.error (.refused r), ⟨guard, world⟩)
  | .ok () =>
    let (result, m) := step ⟨guard, world.record .enter⟩
    (result, ⟨m.guard.leave, m.world.record .leave⟩)

/-- Evaluates in a machine whose guard has this much room. Without room the guard refuses, and
the step inside is never run. -/
def evalWithin (bridge : Bridge σ) : Nat → Visit σ
  | 0 => fun code frame => guarded code frame (throw (.refused .depth))
  | room + 1 => fun code frame =>
    guarded code frame (evalStep bridge (evalWithin bridge room) code frame)

/-- Evaluates an expression in a frame. -/
def eval (bridge : Bridge σ) (code : Value) (frame : Nat) : EvalM σ Value := fun m =>
  evalWithin bridge m.guard.room code frame m

/-- Calls a value with arguments. -/
def apply (bridge : Bridge σ) (callee : Value) (args : List Value) : EvalM σ Value := fun m =>
  applyWith bridge (evalWithin bridge m.guard.room) callee args m

/-- Evaluates the expressions of a program in order; the last value counts, `nil` of an empty
program. -/
def evalProgram (bridge : Bridge σ) (frame : Nat) : List Value → EvalM σ Value
  | [] => return .nil
  | e :: es => Visit.last (eval bridge) frame e es

/-- Starts the guard and the journal afresh. -/
def Machine.restart (m : Machine σ) : Machine σ :=
  { m with guard := m.guard.reset, world := { m.world with journal := [] } }

/-- Evaluates a program text in a frame. Nothing runs unless the whole text can be read. -/
def evalText (bridge : Bridge σ) (text : String) (frame : Nat) : EvalM σ Value := do
  modify Machine.restart
  match Source.Program.ofText text with
  | .error e => throw (.parse e)
  | .ok data => do
    let program ← EvalM.onWorld (·.alloc (Value.ofData data))
    evalProgram bridge frame program

end GuardedLisp
