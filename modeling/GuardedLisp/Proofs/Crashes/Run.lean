import GuardedLisp.Proofs.Crashes.Cursor
import GuardedLisp.Proofs.Crashes.Primitive
import GuardedLisp.Proofs.Visit
import GuardedLisp.Proofs.Scenes

/-!
# Evaluations do not crash

A visit counts in machine words, and it has to have room. A special form is known by its
name, and takes its operands by number once they were counted. A bridge procedure hands on
what stands behind the names that it found. A callable of the host may crash; what it was
called from makes a failure of that. A custom procedure may crash, too, and nothing
catches it.
-/

namespace GuardedLisp

open CrashM
open EvalM (onWorld tryOnWorld tryOnWorld_apply note)

variable {σ α : Type}

/-- The largest number that a counter can hold. -/
def maxWord : Nat := UInt64.size - 1

namespace Crashing

/-! ## The guard -/

def increment (n : Nat) : Except Crash Nat := if n < maxWord then .ok (n + 1) else .error .overflow

/-- Asks for a visit. -/
def enter (g : Guard) : Except Crash (Except Refusal Unit × Guard) := do
  let operations ← increment g.operations
  let g := { g with operations }
  if g.limits.maxOperations < g.operations then return (.error .operations, g)
  else if g.limits.timeout < g.clock g.operations then return (.error (.time g.limits.timeout), g)
  else if g.limits.maxDepth ≤ g.depth then return (.error .depth, g)
  else return (.ok (), { g with depth := ← increment g.depth })

/-- Runs `step` as one visit of `code`. -/
def guarded (code : Value) (frame : Nat) (step : CrashM (Machine σ) Value) :
    CrashM (Machine σ) Value := fun m =>
  let world := m.world.record (.visit code frame)
  match enter m.guard with
  | .error c => (.error c, ⟨m.guard, world⟩)
  | .ok (.error why, guard) => (.ok (.error (.refused why)), ⟨guard, world⟩)
  | .ok (.ok (), guard) =>
    match step ⟨guard, world.record .enter⟩ with
    | (.error c, m) => (.error c, m)
    | (.ok result, m) => (.ok result, ⟨m.guard.leave, m.world.record .leave⟩)

/-! ## The bridge -/

/-- How a callable of the host ends. -/
def ending : HostReply → Except Crash (Except String Value)
  | .value v => .ok (.ok v)
  | .failure message => .ok (.error message)
  | .crash message => .error (.host message)
  | .raise report => .ok (.error report.message)

/-- Runs a callable of the host. -/
def callable (target : HostTarget) (f : HostFunction σ) (args : List Value) :
    CrashM (Machine σ) (Except String Value) := fun m =>
  let ((reply, host), next) := (f args).run m.world.host |>.run m.world.next
  ((ending reply).map .ok, { m with world := { m.world with
    next, host, journal := .callHost target args :: m.world.journal } })

/-- The text of a crash. -/
def complaint : Crash → String
  | .host (some message) => message
  | _ => "host function panicked"

/-- Calls into the host; a crash there is a failure here. -/
def invoke (target : HostTarget) (f : HostFunction σ) (args : List Value) :
    CrashM (Machine σ) Value := do
  match ← catching (callable target f args) with
  | .ok (.ok v) => return v
  | .ok (.error message) => throw (.bridge (.hostFailure target.text message))
  | .error c => throw (.bridge (.hostFailure target.text (complaint c)))

/-- The code of a custom procedure, which may crash. -/
abbrev CustomCode (σ : Type) := List Value → HostM σ (Except (Option String) (Except Report Value))

/-- Runs a custom procedure. -/
def runCustom (target : HostTarget) (f : CustomCode σ) (args : List Value) :
    CrashM (Machine σ) Value := fun m =>
  let ((result, host), next) := (f args).run m.world.host |>.run m.world.next
  ((result.mapError .custom).map (·.mapError fun report => .bridge (.raised report)),
    { m with world := { m.world with
      next, host, journal := .callHost target args :: m.world.journal } })

/-- What a bridge call asks for: its leading arguments name the callable. -/
def target (call : BridgeCall) (args : List Value) :
    CrashM (Machine σ) (HostTarget × List Value) :=
  match call with
  | .function => do
    let name ← ofExcept id (hostName call .ofFunction args[0]?)
    return (.function name, ← itemsFrom args 1)
  | .member => do
    let owner ← ofExcept id (hostName call .ofModule args[0]?)
    let name ← ofExcept id (hostName call .ofFunction args[1]?)
    return (.member owner name, ← itemsFrom args 2)
  | .custom code name => return (.custom code name, args)

section bridge

variable (bridge : Bridge σ) (custom : Nat → CustomCode σ)

def callBridge (call : BridgeCall) (args : List Value) : CrashM (Machine σ) Value := do
  let (target, rest) ← target call args
  let f ← ofExcept .bridge (bridge.resolve target)
  match target with
  | .custom code _ => runCustom target (custom code) rest
  | _ => invoke target f rest

/-! ## Steps -/

abbrev Visit (σ : Type) := Value → Nat → CrashM (Machine σ) Value

section steps

variable (visit : Visit σ)

/-- Evaluates expressions from the left. -/
def each (frame : Nat) : List Value → CrashM (Machine σ) (List Value)
  | [] => return []
  | e :: es => do
    let v ← visit e frame
    return v :: (← each frame es)

/-- Evaluates expressions from the left and keeps the last value. -/
def last (frame : Nat) (v : Value) : List Value → CrashM (Machine σ) Value
  | [] => return v
  | e :: es => do last frame (← visit e frame) es

/-- Runs `body` in a new frame inside `parent`. -/
def inFrame (parent : Nat) (bindings : List (String × Value)) (body : Value) :
    CrashM (Machine σ) Value := do
  let frame ← lift (onWorld (·.extend parent bindings))
  visit body frame

/-- Runs a computation that may allocate. -/
def alloc (x : CrashM Nat α) : CrashM (Machine σ) α := fun m =>
  let (r, next) := x m.world.next
  (r, { m with world := { m.world with next } })

/-- Calls a value with arguments. -/
def applyWith (callee : Value) (args : List Value) : CrashM (Machine σ) Value := do
  lift (note (.apply callee args))
  match callee with
  | .builtin _ p => alloc (applyPrimitive p args)
  | .closure _ params body frame =>
    if params.length = args.length then inFrame visit frame (params.zip args) body
    else throw (.arity (.closure params args.length))
  | .bridge _ call => callBridge bridge custom call args
  | _ => throw (.type (.callable callee))

/-- Runs the special form of this name. -/
def specialForm (form : String) (operands : List Value) (frame : Nat) :
    CrashM (Machine σ) Value :=
  match form with
  | "quote" => do
    check (operands.length == 1) (.malformed (.shape .quote))
    item operands 0
  | "if" => do
    check (operands.length == 2 || operands.length == 3) (.malformed (.shape .branch))
    let v ← visit (← item operands 0) frame
    if v.truthy then visit (← item operands 1) frame
    else
      match operands[2]? with
      | some e => visit e frame
      | none => return .nil
  | "def" => do
    check (operands.length == 2) (.malformed (.shape .define))
    let name ← ofExcept .malformed (SpecialForm.name .define (← item operands 0))
    let v ← visit (← item operands 1) frame
    lift (onWorld fun w => (v, w.define frame name v))
  | "set!" => do
    check (operands.length == 2) (.malformed (.shape .assign))
    let name ← ofExcept .malformed (SpecialForm.name .assign (← item operands 0))
    let v ← visit (← item operands 1) frame
    lift (tryOnWorld (·.assign frame name v))
    return v
  | "lambda" => do
    check (operands.length == 2) (.malformed (.shape .lambda))
    let params ← ofExcept .malformed (SpecialForm.paramList (← item operands 0))
    let body ← item operands 1
    let addr ← lift (onWorld (·.alloc fresh))
    return .closure addr params body frame
  | "let" => do
    check (operands.length == 2) (.malformed (.shape .bind))
    let bindings ← ofExcept .malformed (SpecialForm.bindingList (← item operands 0))
    let values ← each visit frame (bindings.map Prod.snd)
    inFrame visit frame ((bindings.map Prod.fst).zip values) (← item operands 1)
  | "begin" => do
    check (!operands.isEmpty) (.malformed (.shape .sequence))
    last visit frame .nil operands
  | other => crash (.unreachable s!"not a special form: {other}")

def application (head : Value) (operands : List Value) (frame : Nat) :
    CrashM (Machine σ) Value := do
  let callee ← visit head frame
  let args ← each visit frame operands
  applyWith bridge custom visit callee args

/-- What a visited expression does. -/
def evalStep (code : Value) (frame : Nat) : CrashM (Machine σ) Value :=
  match code with
  | .symbol name => lift (tryOnWorld fun w => (w.lookup frame name, w))
  | .list _ _ (.symbol name :: operands) =>
    if name ∈ Keyword.all.map Keyword.name then specialForm visit name operands frame
    else application bridge custom visit (.symbol name) operands frame
  | .list _ _ (head :: operands) => application bridge custom visit head operands frame
  | _ => return code

end steps

/-- Evaluates in a machine whose guard has this much room. Without room there is no step to run. -/
def evalWithin : Nat → Visit σ
  | 0 => fun code frame => guarded code frame (crash (.unreachable "admitted without room"))
  | room + 1 => fun code frame =>
    guarded code frame (evalStep bridge custom (evalWithin room) code frame)

/-- Evaluates an expression in a frame. -/
def eval (code : Value) (frame : Nat) : CrashM (Machine σ) Value := fun m =>
  evalWithin bridge custom m.guard.room code frame m

/-- Calls a value with arguments. -/
def apply (callee : Value) (args : List Value) : CrashM (Machine σ) Value := fun m =>
  applyWith bridge custom (evalWithin bridge custom m.guard.room) callee args m

end bridge

/-- What the bridge has under a number answers as this code does, where that does not crash. -/
def Completed (bridge : Bridge σ) (custom : Nat → CustomCode σ) : Prop :=
  ∀ code f, bridge.custom[code]? = some f → ∀ args host next result host' next',
    ((custom code args).run host).run next = ((.ok result, host'), next') →
      ((f args).run host).run next = ((result, host'), next')

/-- A crash of one of the custom procedures. -/
def CustomCrash (custom : Nat → CustomCode σ) (c : Crash) : Prop :=
  ∃ code args host next message,
    (((custom code args).run host).run next).1.1 = .error message ∧ c = .custom message

end Crashing

/-! ## The guard counts in words -/

/-- The limits are words, the one for the count is not the largest word, and the count has not
passed it. -/
structure Guard.Fits (g : Guard) : Prop where
  operations : g.operations ≤ g.limits.maxOperations
  maxOperations : g.limits.maxOperations < maxWord
  maxDepth : g.limits.maxDepth ≤ maxWord

/-- Visits may nest this many levels more at most. -/
structure Guard.FitsWithin (room : Nat) (g : Guard) : Prop extends g.Fits where
  room_le : g.room ≤ room

abbrev Machine.FitsWithin (room : Nat) (m : Machine σ) : Prop := m.guard.FitsWithin room

theorem Guard.Fits.enter_eq {g : Guard} (h : g.Fits) : Crashing.enter g = .ok g.enter := by
  have hoperations : g.operations < maxWord := Nat.lt_of_le_of_lt h.operations h.maxOperations
  have hcounted : Crashing.increment g.operations = .ok (g.operations + 1) := if_pos hoperations
  have hbind {α : Type} (n : Nat) (f : Nat → Except Crash α) : (Except.ok n >>= f) = f n := rfl
  unfold Crashing.enter Guard.enter Guard.refusal?
  simp only [hcounted, hbind]
  split
  · rfl
  split
  · rfl
  split
  · rfl
  · next hdepth =>
    have hnested : Crashing.increment g.depth = .ok (g.depth + 1) :=
      if_pos (Nat.lt_of_lt_of_le (Nat.lt_of_not_le hdepth) h.maxDepth)
    simp only [hnested, hbind]
    rfl

/-! ## Calls -/

section calls

variable {allowed : Crash → Prop} {room : Nat}

/-- An action on the world leaves the guard alone. -/
theorem Safe.act (f : World σ → Except EvalError α × World σ) :
    Safe allowed (Machine.FitsWithin room) (CrashM.lift (tryOnWorld f)) (tryOnWorld f) :=
  .lift fun _ hm _ _ => hm

theorem Safe.onWorld (f : World σ → α × World σ) :
    Safe allowed (Machine.FitsWithin room) (CrashM.lift (EvalM.onWorld f)) (EvalM.onWorld f) :=
  .lift fun _ hm _ _ => hm

/-- There is something behind a name that was found. -/
theorem crashing_target_eq (call : BridgeCall) (args : List Value) :
    (Crashing.target call args : CrashM (Machine σ) _) = CrashM.ofExcept id (call.target args) := by
  cases call with
  | function =>
    cases hname : hostName .function .ofFunction args[0]? with
    | error e => simp only [Crashing.target, BridgeCall.target, hname]; rfl
    | ok name =>
      have hargs := (List.getElem?_eq_some_iff.1 (eq_string_of_hostName hname)).1
      simp only [Crashing.target, BridgeCall.target, hname, itemsFrom_eq (Nat.succ_le_of_lt hargs)]
      rfl
  | member =>
    cases howner : hostName .member .ofModule args[0]? with
    | error e => simp only [Crashing.target, BridgeCall.target, howner]; rfl
    | ok owner =>
      cases hname : hostName .member .ofFunction args[1]? with
      | error e => simp only [Crashing.target, BridgeCall.target, howner, hname]; rfl
      | ok name =>
        have hargs := (List.getElem?_eq_some_iff.1 (eq_string_of_hostName hname)).1
        simp only [Crashing.target, BridgeCall.target, howner, hname,
          itemsFrom_eq (Nat.succ_le_of_lt hargs)]
        rfl
  | custom => rfl

section invoke

variable (bridge : Bridge σ) (target : HostTarget) (args : List Value)

theorem callHost_bind_eq : (do
      let reply ← onWorld (·.callHost bridge target args)
      EvalM.ofExcept .bridge reply : EvalM σ Value) =
    tryOnWorld fun w => ((w.callHost bridge target args).1.mapError .bridge,
      (w.callHost bridge target args).2) := by
  funext m
  refine (EvalM.bind_ok rfl).trans ?_
  rw [EvalM.ofExcept_eq]
  rfl

variable {bridge target}

/-- A crash of the callable is caught, and what it did to the host's state remains. -/
theorem catching_callable {f : HostFunction σ} {m : Machine σ} {reply : HostReply} {host : σ}
    {next : Nat} (h : ((f args).run m.world.host).run m.world.next = ((reply, host), next)) :
    catching (Crashing.callable target f args) m =
      (.ok (.ok (Crashing.ending reply)), ⟨m.guard, { m.world with
        next, host, journal := .callHost target args :: m.world.journal }⟩) := by
  unfold catching Crashing.callable
  rw [h]
  cases reply <;> rfl

theorem safe_invoke {f : HostFunction σ} (hf : bridge.resolve target = .ok f)
    (hregistered : ∀ code name, target ≠ .custom code name) :
    Safe allowed (Machine.FitsWithin room) (Crashing.invoke target f args)
      (tryOnWorld fun w => ((w.callHost bridge target args).1.mapError .bridge,
        (w.callHost bridge target args).2)) := by
  refine fun m hm => .inr ⟨?_, fun _ _ => hm⟩
  rcases hrun : ((f args).run m.world.host).run m.world.next with ⟨⟨reply, host⟩, next⟩
  rw [Crashing.invoke, bind_ok (catching_callable args hrun), tryOnWorld_apply]
  unfold World.callHost
  rw [hf]
  dsimp only
  rw [hrun]
  cases reply with
  | value v => rfl
  | failure message => rfl
  | crash message => cases message <;> rfl
  | raise report =>
    cases target with
    | function | member => rfl
    | custom code name => exact absurd rfl (hregistered code name)

/-- A custom procedure that comes to an end answers as its code in the bridge does. -/
theorem safe_runCustom {custom : Nat → Crashing.CustomCode σ}
    (hcustom : Crashing.Completed bridge custom)
    (hallowed : ∀ c, Crashing.CustomCrash custom c → allowed c) {code : Nat}
    {f : CustomFunction σ} (hf : bridge.custom[code]? = some f) (name : String) :
    Safe allowed (Machine.FitsWithin room)
      (Crashing.runCustom (.custom code name) (custom code) args)
      (tryOnWorld fun w => ((w.callHost bridge (.custom code name) args).1.mapError .bridge,
        (w.callHost bridge (.custom code name) args).2)) := by
  intro m hm
  rcases hrun : ((custom code args).run m.world.host).run m.world.next with ⟨⟨result, host⟩, next⟩
  unfold Crashing.runCustom
  rw [hrun]
  cases result with
  | error message =>
    exact .inl ⟨.custom message, hallowed _ ⟨code, args, _, _, message, by rw [hrun], rfl⟩, rfl⟩
  | ok result =>
    have hsame := hcustom code f hf args _ _ _ _ _ hrun
    have hanswers : ((f.callable args).run m.world.host).run m.world.next =
        ((HostReply.ofResult result, host), next) := by
      change ((HostReply.ofResult (((f args).run m.world.host).run m.world.next).1.1,
        (((f args).run m.world.host).run m.world.next).1.2),
        (((f args).run m.world.host).run m.world.next).2) = _
      rw [hsame]
    refine .inr ⟨?_, fun _ _ => hm⟩
    rw [tryOnWorld_apply]
    unfold World.callHost
    simp only [Bridge.resolve, hf, hanswers]
    cases result <;> rfl

end invoke

/-- What a callable answers is an answer of the call, a crash a failure. Only a custom procedure
crashes. -/
theorem safe_callBridge {bridge : Bridge σ} {custom : Nat → Crashing.CustomCode σ}
    (hcustom : Crashing.Completed bridge custom) {call : BridgeCall}
    (hallowed : ∀ code name, call = .custom code name →
      ∀ c, Crashing.CustomCrash custom c → allowed c) (args : List Value) :
    Safe allowed (Machine.FitsWithin room) (Crashing.callBridge bridge custom call args)
      (callBridge bridge call args) := by
  unfold Crashing.callBridge callBridge
  rw [crashing_target_eq]
  cases htarget : call.target args with
  | error e => exact .throw e
  | ok asked =>
    obtain ⟨target, rest⟩ := asked
    change Safe allowed _ (do
        let f ← CrashM.ofExcept .bridge (bridge.resolve target)
        match target with
        | .custom code _ => Crashing.runCustom target (custom code) rest
        | _ => Crashing.invoke target f rest) (do
        let reply ← onWorld (·.callHost bridge target rest)
        EvalM.ofExcept .bridge reply)
    rw [callHost_bind_eq]
    cases hf : bridge.resolve target with
    | error e =>
      have hcall (w : World σ) : w.callHost bridge target rest = (.error e, w) := by
        unfold World.callHost; rw [hf]
      simp only [hcall]
      exact .throw (.bridge e)
    | ok f =>
      cases target with
      | function | member => exact safe_invoke rest hf nofun
      | custom code name =>
        cases hcode : bridge.custom[code]? with
        | none => rw [Bridge.resolve, hcode] at hf; cases hf
        | some f' =>
          have hcall := (BridgeCall.target_eq_ok htarget).1
          exact safe_runCustom rest hcustom (hallowed code name hcall) hcode name

end calls

/-! ## Steps -/

section steps

variable {allowed : Crash → Prop} {room : Nat} {visit' : Crashing.Visit σ} {visit : Visit σ}
  (hvisit : ∀ code frame,
    Safe allowed (Machine.FitsWithin room) (visit' code frame) (visit code frame))
  (frame : Nat)

/-- What a check makes of an operand, it makes in front of the rest of the form. -/
theorem Safe.checked {r : Except SyntaxFault α} (g : α → SpecialForm)
    {x : α → CrashM (Machine σ) Value}
    (h : ∀ a, Safe allowed (Machine.FitsWithin room) (x a) ((g a).run visit frame)) :
    Safe allowed (Machine.FitsWithin room) (CrashM.ofExcept .malformed r >>= x)
      (EvalM.ofExcept .malformed (do return g (← r)) >>= fun f => f.run visit frame) := by
  cases r with
  | error fault => exact .throw (.malformed fault)
  | ok a => exact h a

theorem specialForm_of_count {form : Keyword} {operands : List Value}
    (h : ¬ form.Takes operands.length) (visit : Crashing.Visit σ) :
    Crashing.specialForm visit form.name operands frame = throw (.malformed (.shape form)) := by
  cases form with
  | quote | define | assign | lambda | bind =>
    exact check_bind_of_false (by simpa [Keyword.Takes] using h) _ _
  | branch =>
    rw [Keyword.Takes, not_or] at h
    exact check_bind_of_false (by simp [h]) _ _
  | sequence =>
    have hnone : operands = [] :=
      List.eq_nil_of_length_eq_zero (Nat.lt_one_iff.1 (Nat.lt_of_not_le h))
    exact check_bind_of_false (by rw [hnone]; rfl) _ _

include hvisit

theorem Safe.each (es : List Value) :
    Safe allowed (Machine.FitsWithin room) (Crashing.each visit' frame es)
      (visit.each frame es) := by
  induction es with
  | nil => exact .pure []
  | cons e es ih => exact .bind (hvisit e frame) fun v => .bind ih fun vs => .pure (v :: vs)

/-- What there was before the first expression is not kept. -/
theorem Safe.last (v e : Value) (es : List Value) :
    Safe allowed (Machine.FitsWithin room) (Crashing.last visit' frame v (e :: es))
      (visit.last frame e es) := by
  induction es generalizing v e with
  | nil =>
    have hlast : Safe allowed (Machine.FitsWithin room) (visit' e frame >>= Pure.pure)
        (visit e frame >>= Pure.pure) := .bind (hvisit e frame) fun w => .pure w
    rwa [bind_pure (visit e frame)] at hlast
  | cons e' es ih => exact .bind (hvisit e frame) fun w => ih w e'

theorem Safe.inFrame (bindings : List (String × Value)) (body : Value) :
    Safe allowed (Machine.FitsWithin room) (Crashing.inFrame visit' frame bindings body)
      (visit.inFrame frame bindings body) :=
  .bind (.onWorld (·.extend frame bindings)) fun new => hvisit body new

/-- A reserved word is the name of a form, and there are as many operands as it takes. -/
theorem Safe.form (form : Keyword) (operands : List Value) :
    Safe allowed (Machine.FitsWithin room)
      (Crashing.specialForm visit' form.name operands frame) (do
      let f ← EvalM.ofExcept .malformed (SpecialForm.check form operands)
      f.run visit frame) := by
  by_cases hcount : form.Takes operands.length
  · match form, operands with
    | .quote, [datum] => exact .pure datum
    | .branch, [condition, consequent] =>
      refine .bind (hvisit condition frame) fun v => ?_
      split
      · exact hvisit consequent frame
      · exact .pure Value.nil
    | .branch, [condition, consequent, alternative] =>
      refine .bind (hvisit condition frame) fun v => ?_
      split
      · exact hvisit consequent frame
      · exact hvisit alternative frame
    -- Taking an operand that is there by its number is no step of its own.
    | .define, [target, e] =>
      refine .checked frame (.define · e) fun name => ?_
      change Safe allowed (Machine.FitsWithin room) (visit' e frame >>= fun v =>
        CrashM.lift (EvalM.onWorld fun w => (v, w.define frame name v))) _
      exact .bind (hvisit e frame) fun v => .onWorld fun w => (v, w.define frame name v)
    | .assign, [target, e] =>
      refine .checked frame (.assign · e) fun name => ?_
      change Safe allowed (Machine.FitsWithin room) (visit' e frame >>= fun v => do
        CrashM.lift (EvalM.tryOnWorld (·.assign frame name v))
        return v) _
      exact .bind (hvisit e frame) fun v => .bind (.act (·.assign frame name v)) fun _ => .pure v
    | .lambda, [parameters, body] =>
      refine .checked frame (.lambda · body) fun params => ?_
      change Safe allowed (Machine.FitsWithin room) (do
        let addr ← CrashM.lift (EvalM.onWorld (·.alloc fresh))
        return Value.closure addr params body frame) _
      exact .bind (.onWorld (·.alloc fresh)) fun addr => .pure _
    | .bind, [pairs, body] =>
      refine .checked frame (.bind · body) fun bindings => ?_
      exact .bind (.each hvisit frame _) fun values => .inFrame hvisit frame _ body
    | .sequence, first :: rest => exact .last hvisit frame .nil first rest
  · rw [specialForm_of_count frame hcount, (SpecialForm.Faulty.shape hcount).check_eq]
    exact .throw _

section bridge

variable {bridge : Bridge σ} {custom : Nat → Crashing.CustomCode σ}
  (hcustom : Crashing.Completed bridge custom)
  (hallowed : ∀ c, Crashing.CustomCrash custom c → allowed c)

include hcustom hallowed

theorem Safe.application (callee : Value) (args : List Value) :
    Safe allowed (Machine.FitsWithin room) (Crashing.applyWith bridge custom visit' callee args)
      (applyWith bridge visit callee args) := by
  refine .bind (.onWorld _) fun _ => ?_
  cases callee with
  | builtin addr p =>
    dsimp only
    rw [Primitive.crashing_apply_eq]
    exact .act (·.alloc (p.apply args))
  | closure addr params body captured =>
    dsimp only
    split
    · exact .inFrame hvisit captured _ body
    · exact .throw _
  | bridge addr call => exact safe_callBridge hcustom (fun _ _ _ => hallowed) args
  | _ => exact .throw _

/-- What is no special form is not taken for one. -/
theorem Safe.step (code : Value) :
    Safe allowed (Machine.FitsWithin room) (Crashing.evalStep bridge custom visit' code frame)
      (evalStep bridge visit code frame) := by
  have happlication (head : Value) (operands : List Value) :
      Safe allowed (Machine.FitsWithin room)
        (Crashing.application bridge custom visit' head operands frame) (do
        let callee ← visit head frame
        let args ← visit.each frame operands
        applyWith bridge visit callee args) :=
    .bind (hvisit head frame) fun callee => .bind (.each hvisit frame operands) fun args =>
      .application hvisit hcustom hallowed callee args
  rcases code.code_cases with hconst | ⟨name, rfl⟩ | ⟨addr, depth, form, operands, rfl⟩ |
    ⟨addr, depth, head, operands, hhead, rfl⟩
  · rw [evalStep_of_isConstant hconst]
    match code, hconst with
    | .nil, _ | .bool _, _ | .number _, _ | .string _, _ | .builtin .., _ | .closure .., _
    | .bridge .., _ => exact .pure _
    | .list _ _ [], _ => exact .pure _
  · exact .act fun w => (w.lookup frame name, w)
  · have hname : form.name ∈ Keyword.all.map Keyword.name :=
      List.mem_map_of_mem (Keyword.mem_all form)
    have hcode : Crashing.evalStep bridge custom visit'
        (.list addr depth (.symbol form.name :: operands)) frame =
          Crashing.specialForm visit' form.name operands frame := if_pos hname
    rw [hcode]
    unfold evalStep
    rw [Value.code_of_isReserved]
    exact .form hvisit frame form operands
  · rw [evalStep_of_not_isReserved hhead]
    cases head with
    | symbol name =>
      have hname : name ∉ Keyword.all.map Keyword.name := by
        intro h
        obtain ⟨form, -, rfl⟩ := List.mem_map.1 h
        exact hhead ⟨form, rfl⟩
      have hcode : Crashing.evalStep bridge custom visit'
          (.list addr depth (.symbol name :: operands)) frame =
            Crashing.application bridge custom visit' (.symbol name) operands frame := if_neg hname
      rw [hcode]
      exact happlication _ operands
    | _ => exact happlication _ operands

end bridge

end steps

/-! ## Visits -/

/-- An admitted visit was within the limit, so the count still fits where the visit begins, and
there was room for it. -/
theorem Guard.FitsWithin.enter {room : Nat} {m : Machine σ} (h : m.FitsWithin room) (code : Value)
    (frame : Nat) (hadmitted : m.guard.refusal? = none) :
    ∃ inner, room = inner + 1 ∧ (m.enter code frame).FitsWithin inner := by
  have hroom := room_enter code frame hadmitted
  have hle := h.room_le
  exact ⟨room - 1, by omega, ⟨(Guard.refusal?_eq_none_iff.1 hadmitted).1, h.maxOperations,
    h.maxDepth⟩, by omega⟩

theorem Guard.FitsWithin.leave {room : Nat} {g : Guard} (h : g.FitsWithin room) :
    g.leave.FitsWithin (room + 1) := by
  have hle := h.room_le
  unfold Guard.room at hle
  refine ⟨⟨h.operations, h.maxOperations, h.maxDepth⟩, ?_⟩
  change g.limits.maxDepth - (g.depth - 1) ≤ room + 1
  omega

/-- Only where there is room, the step has to be safe. -/
theorem Safe.guarded {allowed : Crash → Prop} {room : Nat} {step' : CrashM (Machine σ) Value}
    {step : EvalM σ Value}
    (hstep : ∀ inner, room = inner + 1 → Safe allowed (Machine.FitsWithin inner) step' step)
    (code : Value) (frame : Nat) :
    Safe allowed (Machine.FitsWithin room) (Crashing.guarded code frame step')
      (guarded code frame step) := by
  intro m hm
  unfold Crashing.guarded
  rw [hm.enter_eq]
  cases hadmission : m.guard.refusal? with
  | some why =>
    rw [guarded_of_refusal hadmission, Guard.enter, hadmission]
    exact .inr ⟨rfl, fun _ h => by cases h⟩
  | none =>
    obtain ⟨inner, rfl, hinner⟩ := hm.enter code frame hadmission
    have hstep := hstep inner rfl _ hinner
    unfold Machine.enter at hstep
    rw [guarded_of_admission hadmission, Guard.enter, hadmission]
    dsimp only
    rcases hstep with ⟨c, hc, hcrash⟩ | ⟨hrun, hfits⟩
    · refine .inl ⟨c, hc, ?_⟩
      generalize step' _ = ended at hcrash ⊢
      obtain ⟨r, k⟩ := ended
      cases hcrash
      rfl
    · refine .inr ⟨?_, fun v hv => (hfits v hv).leave⟩
      rw [hrun]
      rfl

section bridge

variable {bridge : Bridge σ} {custom : Nat → Crashing.CustomCode σ}
  (hcustom : Crashing.Completed bridge custom)

include hcustom

theorem Safe.evalWithin {allowed : Crash → Prop}
    (hallowed : ∀ c, Crashing.CustomCrash custom c → allowed c) (room : Nat) (code : Value)
    (frame : Nat) : Safe allowed (Machine.FitsWithin room)
      (Crashing.evalWithin bridge custom room code frame) (evalWithin bridge room code frame) := by
  induction room generalizing code frame with
  | zero =>
    unfold Crashing.evalWithin GuardedLisp.evalWithin
    refine .guarded (fun inner h => ?_) code frame
    cases h
  | succ room ih =>
    refine .guarded (fun inner h => ?_) code frame
    cases h
    exact .step ih frame hcustom hallowed code

variable {m : Machine σ} (hm : m.guard.Fits)

include hm

theorem crashing_apply_eq (callee : Value) (args : List Value) :
    (∃ c, Crashing.CustomCrash custom c ∧
      (Crashing.apply bridge custom callee args m).1 = .error c) ∨
      Crashing.apply bridge custom callee args m = lift (apply bridge callee args) m :=
  (Safe.application (Safe.evalWithin hcustom (fun _ => id) m.guard.room) hcustom (fun _ => id)
    callee args m ⟨hm, Nat.le_refl _⟩).imp id And.left

end bridge

/-! ## Crashes of the host -/

end GuardedLisp
