import GuardedLisp.Eval.Run
import GuardedLisp.Proofs.Unrefused

/-!
# What a step is made of

A step of evaluation is put together from three things: quiet actions on the
world, which leave the host alone and are never refused, applications of bridge
procedures, and visits of subexpressions. `Stepwise` relates two computations
put together in the same way, one with `visit` and one with `visit'`; a step
with `visit` is so related to the step with `visit'` (`evalStep_stepwise`). What
sequencing keeps, and these three things have, every step has.
-/

namespace GuardedLisp

open EvalM

variable {σ α β : Type}

/-! ## Runs of computations -/

namespace EvalM

theorem bind_ok {x : EvalM σ α} {f : α → EvalM σ β} {m m' : Machine σ} {a : α}
    (h : x m = (.ok a, m')) : (x >>= f) m = f a m' := by
  change (ExceptT.bindCont f (x m).1 : EvalM σ β) (x m).2 = _
  rw [h]; rfl

theorem bind_error {x : EvalM σ α} {f : α → EvalM σ β} {m m' : Machine σ} {e : EvalError}
    (h : x m = (.error e, m')) : (x >>= f) m = (.error e, m') := by
  change (ExceptT.bindCont f (x m).1 : EvalM σ β) (x m).2 = _
  rw [h]; rfl

/-- A sequence fails with its first part, or ends as its second part does. -/
theorem bind_cases {P : Except EvalError β × Machine σ → Prop} {x : EvalM σ α}
    {f : α → EvalM σ β} {m : Machine σ}
    (herror : ∀ e m', x m = (.error e, m') → P (.error e, m'))
    (hok : ∀ a m', x m = (.ok a, m') → P (f a m')) : P ((x >>= f) m) := by
  rcases hx : x m with ⟨r, m'⟩
  cases r with
  | error e => rw [bind_error hx]; exact herror e m' hx
  | ok a => rw [bind_ok hx]; exact hok a m' hx

theorem tryOnWorld_apply (f : World σ → Except EvalError α × World σ) (m : Machine σ) :
    tryOnWorld f m = ((f m.world).1, ⟨m.guard, (f m.world).2⟩) := rfl

theorem ofExcept_eq {ε : Type} (wrap : ε → EvalError) (r : Except ε α) :
    (ofExcept wrap r : EvalM σ α) = tryOnWorld fun w => (r.mapError wrap, w) := by
  cases r <;> rfl

end EvalM

/-! ## Actions on the world -/

/-- Neither a visit nor a matter of the host. -/
def Event.IsQuiet : Event → Prop
  | .apply (.bridge ..) _ => False
  | .apply .. | .extend .. | .define .. | .assign .. => True
  | _ => False

/-- Not a visit, nor the begin or the end of one. -/
def Event.IsAction : Event → Prop
  | .visit .. | .enter | .leave => False
  | _ => True

theorem Event.IsQuiet.isAction {e : Event} (h : e.IsQuiet) : e.IsAction := by
  cases e <;> trivial

/-- What an event did to the scopes. -/
def Event.commit : Event → Store → Store
  | .extend parent bindings, s => s.extend parent bindings
  | .define frame name v, s => s.define frame name v
  | .assign frame name v, s => s.set frame name v
  | _, s => s

/-- The journal grew by these events, and they account for the change of the scopes. -/
structure Grows (w : World σ) (es : List Event) (w' : World σ) : Prop where
  journal : w'.journal = es ++ w.journal
  store : w'.store = es.foldr Event.commit w.store

theorem Grows.refl (w : World σ) : Grows w [] w := ⟨rfl, rfl⟩

theorem Grows.trans {w w' w'' : World σ} {es es' : List Event} (h : Grows w es w')
    (h' : Grows w' es' w'') : Grows w (es' ++ es) w'' := by
  refine ⟨?_, ?_⟩
  · rw [h'.journal, h.journal, List.append_assoc]
  · rw [h'.store, h.store, List.foldr_append]

/-- An action of a program that does not concern the host or the guard. -/
structure Quiet (f : World σ → Except EvalError α × World σ) : Prop where
  host : ∀ w, (f w).2.host = w.host
  journal : ∀ w, ∃ es, Grows w es (f w).2 ∧ ∀ e ∈ es, e.IsQuiet
  internal : ∀ w, FailsInternally (f w).1

theorem Quiet.unrefused {f : World σ → Except EvalError α × World σ} (hf : Quiet f) (w : World σ) :
    ¬ Refused (f w).1 := (hf.internal w).not_refused

theorem failsOwn_hostName {args : List Value} {i : Nat} {call : BridgeCall}
    (hcall : call ∈ BridgeCall.all) (what : HostName) :
    FailsOwn args (hostName call what args[i]?) := by
  unfold hostName
  split
  · exact .ok _
  · next got _ hgot => exact .error ⟨hcall, List.mem_of_getElem? hgot⟩
  · exact .error hcall

theorem failsOwn_target (call : BridgeCall) (args : List Value) :
    FailsOwn args (call.target args) := by
  cases call with
  | function => exact (failsOwn_hostName (by decide) _).bind fun _ => .ok _
  | member =>
    have hmember : BridgeCall.member ∈ BridgeCall.all := by decide
    exact (failsOwn_hostName hmember _).bind fun _ =>
      (failsOwn_hostName hmember _).bind fun _ => .ok _
  | custom => exact .ok _

theorem eq_string_of_hostName {call : BridgeCall} {what : HostName} {v? : Option Value} {s : String}
    (h : hostName call what v? = .ok s) : v? = some (.string s) := by
  unfold hostName at h
  split at h <;> cases h
  rfl

namespace HostTarget

/-- The bridge procedure that reaches the target. -/
def call : HostTarget → BridgeCall
  | function _ => .function
  | member .. => .member
  | custom code name => .custom code name

/-- The leading arguments that name the target. -/
def leading : HostTarget → List Value
  | function name => [.string name]
  | member owner name => [.string owner, .string name]
  | custom .. => []

theorem target_call (target : HostTarget) (args : List Value) :
    target.call.target (target.leading ++ args) = .ok (target, args) := by
  cases target <;> rfl

end HostTarget

namespace BridgeCall

variable {call : BridgeCall} {args rest : List Value} {target : HostTarget}

/-- What is asked for decides the procedure and the leading arguments. -/
theorem target_eq_ok (h : call.target args = .ok (target, rest)) :
    call = target.call ∧ args = target.leading ++ rest := by
  cases call with
  | function =>
    cases hname : hostName .function .ofFunction args[0]? with
    | error e => simp only [BridgeCall.target, hname] at h; cases h
    | ok name =>
      simp only [BridgeCall.target, hname] at h
      cases h
      have hhead := eq_string_of_hostName hname
      cases args with
      | nil => cases hhead
      | cons v args => cases hhead; exact ⟨rfl, rfl⟩
  | member =>
    cases howner : hostName .member .ofModule args[0]? with
    | error e => simp only [BridgeCall.target, howner] at h; cases h
    | ok owner =>
      cases hname : hostName .member .ofFunction args[1]? with
      | error e => simp only [BridgeCall.target, howner, hname] at h; cases h
      | ok name =>
        simp only [BridgeCall.target, howner, hname] at h
        cases h
        have hfirst := eq_string_of_hostName howner
        have hsecond := eq_string_of_hostName hname
        match args with
        | [] => cases hfirst
        | [v] => cases hsecond
        | v :: w :: args => cases hfirst; cases hsecond; exact ⟨rfl, rfl⟩
  | custom => cases h; exact ⟨rfl, rfl⟩

theorem mem_args_of_target (h : call.target args = .ok (target, rest)) : ∀ v ∈ rest, v ∈ args := by
  obtain ⟨-, rfl⟩ := target_eq_ok h
  exact fun v hv => List.mem_append_right _ hv

end BridgeCall

theorem not_refused_target (call : BridgeCall) (args : List Value) :
    ¬ Refused (call.target args) := (failsOwn_target call args).internally.not_refused

namespace World

/-- The application of a bridge procedure. -/
def applyBridge (bridge : Bridge σ) (addr : Nat) (call : BridgeCall) (args : List Value)
    (w : World σ) : Except EvalError Value × World σ :=
  let w := w.record (.apply (.bridge addr call) args)
  match call.target args with
  | .error e => (.error e, w)
  | .ok (target, rest) =>
    ((w.callHost bridge target rest).1.mapError .bridge, (w.callHost bridge target rest).2)

section applyBridge

variable {bridge : Bridge σ} {addr : Nat} {call : BridgeCall} {args rest : List Value}
  {target : HostTarget} {w : World σ}

theorem applyBridge_of_target_error {e : EvalError} (h : call.target args = .error e) :
    w.applyBridge bridge addr call args =
      (.error e, w.record (.apply (.bridge addr call) args)) := by
  unfold applyBridge; rw [h]

theorem applyBridge_of_resolve_error {e : BridgeError} (h : call.target args = .ok (target, rest))
    (hr : bridge.resolve target = .error e) :
    w.applyBridge bridge addr call args =
      (.error (.bridge e), w.record (.apply (.bridge addr call) args)) := by
  unfold applyBridge callHost; simp only [h, hr]; rfl

theorem applyBridge_of_resolve_ok {f : HostFunction σ} (h : call.target args = .ok (target, rest))
    (hr : bridge.resolve target = .ok f) :
    w.applyBridge bridge addr call args =
      ((Bridge.outcome target ((f rest).run w.host |>.run w.next).1.1).mapError .bridge, { w with
        next := ((f rest).run w.host |>.run w.next).2
        host := ((f rest).run w.host |>.run w.next).1.2
        journal := .callHost target rest :: .apply (.bridge addr call) args :: w.journal }) := by
  unfold applyBridge callHost; simp only [h, hr]; rfl

theorem applyBridge_journal (bridge : Bridge σ) (addr : Nat) (call : BridgeCall)
    (args : List Value) (w : World σ) :
    ∃ es, Grows w es (w.applyBridge bridge addr call args).2 ∧ ∀ e ∈ es, e.IsAction := by
  cases h : call.target args with
  | error e =>
    rw [applyBridge_of_target_error h]
    exact ⟨[_], ⟨rfl, rfl⟩, by simp [Event.IsAction]⟩
  | ok asked =>
    cases hr : bridge.resolve asked.1 with
    | error e =>
      rw [applyBridge_of_resolve_error h hr]
      exact ⟨[_], ⟨rfl, rfl⟩, by simp [Event.IsAction]⟩
    | ok f =>
      rw [applyBridge_of_resolve_ok h hr]
      exact ⟨[_, _], ⟨rfl, rfl⟩, by simp [Event.IsAction]⟩

/-- A bridge procedure fails because of its arguments or because of the host. -/
theorem not_refused_applyBridge (bridge : Bridge σ) (addr : Nat) (call : BridgeCall)
    (args : List Value) (w : World σ) : ¬ Refused (w.applyBridge bridge addr call args).1 := by
  unfold applyBridge
  cases h : call.target args with
  | error e =>
    rintro ⟨why, he⟩
    cases he
    exact not_refused_target call args ⟨why, h⟩
  | ok asked =>
    rintro ⟨why, he⟩
    dsimp only at he
    cases hr : (callHost (w.record (.apply (.bridge addr call) args)) bridge asked.1 asked.2).1 <;>
      rw [hr] at he <;> cases he

end applyBridge

end World

namespace Quiet

theorem ofResult {r : Except EvalError α} (h : FailsInternally r) :
    Quiet fun w : World σ => (r, w) :=
  ⟨fun _ => rfl, fun _ => ⟨[], ⟨rfl, rfl⟩, by simp⟩, fun _ => h⟩

theorem ofLookup (frame : Nat) (name : String) :
    Quiet fun w : World σ => (w.lookup frame name, w) := by
  refine ⟨fun _ => rfl, fun _ => ⟨[], ⟨rfl, rfl⟩, by simp⟩, fun w => ?_⟩
  unfold World.lookup
  split
  · exact .ok _
  · exact .error trivial

/-- Only the supply of identities changes when a computation allocates. -/
theorem ofAlloc {x : AllocM (Except EvalError α)}
    (h : ∀ next, FailsInternally (x.run next).1) :
    Quiet fun w : World σ => w.alloc x :=
  ⟨fun _ => rfl, fun _ => ⟨[], ⟨rfl, rfl⟩, by simp⟩, fun w => h w.next⟩

theorem ofApply {callee : Value} {args : List Value} (h : (Event.apply callee args).IsQuiet) :
    Quiet fun w : World σ => (.ok (), w.record (.apply callee args)) :=
  ⟨fun _ => rfl, fun _ => ⟨[_], ⟨rfl, rfl⟩, by simpa using h⟩, fun _ => .ok _⟩

theorem ofExtend (parent : Nat) (bindings : List (String × Value)) :
    Quiet fun w : World σ => (.ok (w.extend parent bindings).1, (w.extend parent bindings).2) :=
  ⟨fun _ => rfl, fun _ => ⟨[.extend parent bindings], ⟨rfl, rfl⟩, by simp [Event.IsQuiet]⟩,
    fun _ => .ok _⟩

theorem ofDefine (frame : Nat) (name : String) (v : Value) :
    Quiet fun w : World σ => (.ok v, w.define frame name v) :=
  ⟨fun _ => rfl, fun _ => ⟨[.define frame name v], ⟨rfl, rfl⟩, by simp [Event.IsQuiet]⟩,
    fun _ => .ok _⟩

theorem ofAssign (frame : Nat) (name : String) (v : Value) :
    Quiet fun w : World σ => w.assign frame name v := by
  refine ⟨fun w => ?_, fun w => ?_, fun w => ?_⟩ <;> unfold World.assign <;> split
  · rfl
  · rfl
  · exact ⟨[.assign frame name v], ⟨rfl, rfl⟩, by simp [Event.IsQuiet]⟩
  · exact ⟨[], ⟨rfl, rfl⟩, by simp⟩
  · exact .ok _
  · exact .error trivial

end Quiet

/-! ## Computations put together in the same way -/

/-- `x` and `y` do the same, but where `x` runs `visit`, `y` runs `visit'`. -/
inductive Stepwise (bridge : Bridge σ) (visit visit' : Visit σ) :
    {α : Type} → EvalM σ α → EvalM σ α → Prop where
  | quiet {α : Type} {f : World σ → Except EvalError α × World σ} (h : Quiet f) :
    Stepwise bridge visit visit' (tryOnWorld f) (tryOnWorld f)
  | call (addr : Nat) (call : BridgeCall) (args : List Value) :
    Stepwise bridge visit visit' (tryOnWorld (World.applyBridge bridge addr call args))
      (tryOnWorld (World.applyBridge bridge addr call args))
  | visit (code : Value) (frame : Nat) :
    Stepwise bridge visit visit' (visit code frame) (visit' code frame)
  | bind {α β : Type} {x y : EvalM σ α} {f g : α → EvalM σ β}
    (hx : Stepwise bridge visit visit' x y) (hf : ∀ a, Stepwise bridge visit visit' (f a) (g a)) :
    Stepwise bridge visit visit' (x >>= f) (y >>= g)

theorem applyWith_bridge (bridge : Bridge σ) (visit : Visit σ) (addr : Nat) (call : BridgeCall)
    (args : List Value) :
    applyWith bridge visit (.bridge addr call) args =
      tryOnWorld (World.applyBridge bridge addr call args) := by
  funext m
  let w := m.world.record (.apply (.bridge addr call) args)
  have hcall : applyWith bridge visit (.bridge addr call) args m =
      callBridge bridge call args ⟨m.guard, w⟩ := bind_ok rfl
  rw [hcall, tryOnWorld_apply]
  unfold callBridge World.applyBridge
  cases h : call.target args with
  | error e => exact bind_error rfl
  | ok asked =>
    obtain ⟨target, rest⟩ := asked
    have hhost : onWorld (·.callHost bridge target rest) ⟨m.guard, w⟩ =
        (.ok (w.callHost bridge target rest).1, ⟨m.guard, (w.callHost bridge target rest).2⟩) := rfl
    refine (bind_ok rfl).trans ((bind_ok hhost).trans ?_)
    rw [ofExcept_eq]
    rfl

namespace Stepwise

variable {bridge : Bridge σ} {visit visit' : Visit σ}

theorem symm {x y : EvalM σ α} (h : Stepwise bridge visit visit' x y) :
    Stepwise bridge visit' visit y x := by
  induction h with
  | quiet hf => exact .quiet hf
  | call addr call args => exact .call addr call args
  | visit code frame => exact .visit code frame
  | bind _ _ ihx ihf => exact .bind ihx ihf

theorem ofResult {r : Except EvalError α} (h : FailsInternally r) :
    Stepwise bridge visit visit' (tryOnWorld fun w => (r, w)) (tryOnWorld fun w => (r, w)) :=
  .quiet (.ofResult h)

theorem pure (a : α) : Stepwise bridge visit visit' (pure a) (pure a) :=
  ofResult (.ok a)

theorem each (frame : Nat) (es : List Value) :
    Stepwise bridge visit visit' (visit.each frame es) (visit'.each frame es) := by
  induction es with
  | nil => exact pure []
  | cons e es ih => exact .bind (.visit e frame) fun v => .bind ih fun vs => pure (v :: vs)

theorem last (frame : Nat) (first : Value) (es : List Value) :
    Stepwise bridge visit visit' (visit.last frame first es) (visit'.last frame first es) := by
  induction es generalizing first with
  | nil => exact .visit first frame
  | cons e es ih => exact .bind (.visit first frame) fun _ => ih e

theorem inFrame (parent : Nat) (bindings : List (String × Value)) (body : Value) :
    Stepwise bridge visit visit' (visit.inFrame parent bindings body)
      (visit'.inFrame parent bindings body) :=
  .bind (.quiet (.ofExtend parent bindings)) fun frame => .visit body frame

theorem apply (callee : Value) (args : List Value) :
    Stepwise bridge visit visit' (applyWith bridge visit callee args)
      (applyWith bridge visit' callee args) := by
  have note (h : (Event.apply callee args).IsQuiet) : Stepwise bridge visit visit'
      (EvalM.note (.apply callee args)) (EvalM.note (.apply callee args)) :=
    .quiet (.ofApply h)
  cases callee with
  | bridge addr call =>
    rw [applyWith_bridge, applyWith_bridge]
    exact .call addr call args
  | builtin addr p =>
    exact .bind (note trivial) fun _ => .quiet (.ofAlloc (p.failsInternally_apply args))
  | closure addr params body frame =>
    refine .bind (note trivial) fun _ => ?_
    dsimp only
    split
    · exact inFrame frame _ body
    · exact ofResult (.error trivial)
  | _ => exact .bind (note trivial) fun _ => ofResult (.error trivial)

theorem form (frame : Nat) (f : SpecialForm) :
    Stepwise bridge visit visit' (f.run visit frame) (f.run visit' frame) := by
  cases f with
  | quote datum => exact pure datum
  | branch condition consequent alternative =>
    refine .bind (.visit condition frame) fun v => ?_
    split
    · exact .visit consequent frame
    · cases alternative with
      | none => exact pure Value.nil
      | some e => exact .visit e frame
  | define name e =>
    exact .bind (.visit e frame) fun v => .quiet (.ofDefine frame name v)
  | assign name e =>
    exact .bind (.visit e frame) fun v => .bind (.quiet (.ofAssign frame name v)) fun _ => pure v
  | lambda params body =>
    exact .bind (.quiet (.ofAlloc (x := do return .ok (← fresh)) fun _ => .ok _))
      fun addr => pure _
  | bind bindings body =>
    exact .bind (each frame _) fun values => inFrame frame _ body
  | sequence first rest => exact last frame first rest

end Stepwise

/-- Every step is put together in the same way, whatever evaluates its parts. -/
theorem evalStep_stepwise (bridge : Bridge σ) (visit visit' : Visit σ) (code : Value)
    (frame : Nat) : Stepwise bridge visit visit' (evalStep bridge visit code frame)
      (evalStep bridge visit' code frame) := by
  unfold evalStep
  split
  · exact .pure _
  · exact .quiet (.ofLookup frame _)
  · next form operands _ =>
    refine .bind ?_ fun checked => .form frame checked
    rw [ofExcept_eq]
    refine .ofResult ?_
    cases SpecialForm.check form operands with
    | error fault => exact .error trivial
    | ok f => exact .ok f
  · next head operands _ =>
    exact .bind (.visit head frame) fun callee => .bind (.each frame operands) fun args =>
      .apply callee args

end GuardedLisp
