import GuardedLisp.Proofs.History
import GuardedLisp.Proofs.Visit

/-!
# What programs can make the host do

A history of the host decides, for each bridge procedure and its arguments, which
callable runs on which arguments, or with what error the call fails (`grant`).
Whatever program an interpreter with that history evaluates, the host's state
changes by the grants of the bridge procedures that the program applies, each
run once, and by nothing else; a call without a grant, and a grant that the host
answers with a failure, end the evaluation (`Confined`).
-/

namespace GuardedLisp

open EvalM

variable {σ α β : Type}

/-! ## Grants -/

/-- A callable, and what it is called with. -/
structure Grant (σ : Type) where
  target : HostTarget
  callable : HostFunction σ
  args : List Value

/-- `call-js` needs a name that was registered and whose permission was not taken since; `call-wasm`
needs a member of a registered module. What was registered last counts. A custom procedure needs no
more than its code. -/
def grant (history : List (Request σ)) : BridgeCall → List Value → Except EvalError (Grant σ)
  | .function, [] => .error (.arity (.hostName .function .ofFunction))
  | .function, .string name :: args =>
    if lastly (·.permission? name) history = some true then
      match lastly (·.function? name) history with
      | some f => .ok ⟨.function name, f, args⟩
      | none => .error (.bridge (.notRegistered name))
    else .error (.bridge (.notAllowed name))
  | .function, got :: _ => .error (.type (.hostName .function .ofFunction got))
  | .member, [] => .error (.arity (.hostName .member .ofModule))
  | .member, [.string _] => .error (.arity (.hostName .member .ofFunction))
  | .member, .string owner :: .string name :: args =>
    match lastly (·.module? owner) history with
    | none => .error (.bridge (.unknownModule owner))
    | some m =>
      match m[name]? with
      | some f => .ok ⟨.member owner name, f, args⟩
      | none => .error (.bridge (.unknownMember owner name))
  | .member, .string _ :: got :: _ => .error (.type (.hostName .member .ofFunction got))
  | .member, got :: _ => .error (.type (.hostName .member .ofModule got))
  | .custom code name, args =>
    match lastly (·.code? code) history with
    | some f => .ok ⟨.custom code name, f.callable, args⟩
    | none => .error (.bridge (.notRegistered name))

/-- What a bridge procedure may run. -/
def Bridge.grant (b : Bridge σ) (call : BridgeCall) (args : List Value) :
    Except EvalError (Grant σ) := do
  let (target, rest) ← call.target args
  let f ← (b.resolve target).mapError .bridge
  return ⟨target, f, rest⟩

namespace Interpreter

variable {i : Interpreter σ} (hi : i.bridge = .empty)

include hi

theorem resolve_function_after (history : List (Request σ)) (name : String) :
    (i.after history).bridge.resolve (.function name) =
      if lastly (·.permission? name) history = some true then
        match lastly (·.function? name) history with
        | some f => .ok f
        | none => .error (.notRegistered name)
      else .error (.notAllowed name) := by
  have hallowed : (i.after history).bridge.isAllowed name = true ↔
      lastly (·.permission? name) history = some true := by
    rw [isAllowed_after hi]
    cases lastly (·.permission? name) history <;> simp
  have hfunction := functions_after hi history name
  cases hf : lastly (·.function? name) history with
  | none => simp [Bridge.resolve, hallowed, hfunction, hf]
  | some f => simp [Bridge.resolve, hallowed, hfunction, hf]

theorem resolve_member_after (history : List (Request σ)) (owner name : String) :
    (i.after history).bridge.resolve (.member owner name) =
      match lastly (·.module? owner) history with
      | none => .error (.unknownModule owner)
      | some m =>
        match m[name]? with
        | some f => .ok f
        | none => .error (.unknownMember owner name) := by
  have hmodule := modules_after hi history owner
  cases hm : lastly (·.module? owner) history with
  | none => simp [Bridge.resolve, hmodule, hm]
  | some m =>
    cases hf : m[name]? with
    | none => simp [Bridge.resolve, hmodule, hm, hf]
    | some f => simp [Bridge.resolve, hmodule, hm, hf]

theorem resolve_custom_after (history : List (Request σ)) (code : Nat) (name : String) :
    (i.after history).bridge.resolve (.custom code name) =
      match lastly (·.code? code) history with
      | some f => .ok f.callable
      | none => .error (.notRegistered name) := by
  have hcustom := custom_after hi history code
  cases hf : lastly (·.code? code) history with
  | none => simp [Bridge.resolve, hcustom, hf]
  | some f => simp [Bridge.resolve, hcustom, hf]

end Interpreter

theorem hostName_of_not_string {call : BridgeCall} {what : HostName} {v : Value}
    (h : ∀ s, v = .string s → False) : hostName call what (some v) =
      .error (.type (.hostName call what v)) := by
  unfold hostName
  split
  · next s hs => exact absurd (Option.some.inj hs) (h s)
  · next hv => cases hv; rfl
  · next hv => cases hv

/-- The bridge grants what the history does. -/
theorem Interpreter.grant_after {i : Interpreter σ} (hi : i.bridge = .empty)
    (history : List (Request σ)) (call : BridgeCall) (args : List Value) :
    (i.after history).bridge.grant call args = GuardedLisp.grant history call args := by
  unfold GuardedLisp.grant
  split
  · rfl
  · next name args =>
    change ((i.after history).bridge.resolve (.function name)).mapError EvalError.bridge >>= _ = _
    rw [resolve_function_after hi]
    split
    · split <;> rfl
    · rfl
  · next got args h =>
    simp only [Bridge.grant, BridgeCall.target, List.getElem?_cons_zero, hostName_of_not_string h]
    rfl
  · rfl
  · rfl
  · next owner name args =>
    change ((i.after history).bridge.resolve (.member owner name)).mapError
      EvalError.bridge >>= _ = _
    rw [resolve_member_after hi]
    split
    · rfl
    · split <;> rfl
  · next owner got args h =>
    simp only [Bridge.grant, BridgeCall.target, List.getElem?_cons_succ, List.getElem?_cons_zero,
      hostName_of_not_string h]
    rfl
  · next got args hnil _ hcons =>
    have hgot (s : String) (hs : got = .string s) : False := by
      cases args with
      | nil => exact hnil s hs rfl
      | cons v vs => exact hcons s v vs hs rfl
    simp only [Bridge.grant, BridgeCall.target, List.getElem?_cons_zero,
      hostName_of_not_string hgot]
    rfl
  · next args code name =>
    change ((i.after history).bridge.resolve (.custom code name)).mapError
      EvalError.bridge >>= _ = _
    rw [resolve_custom_after hi]
    split <;> rfl

/-! ## Applications of bridge procedures -/

section applyBridge

variable {bridge : Bridge σ} {addr : Nat} {call : BridgeCall} {args : List Value} {w : World σ}

theorem Bridge.grant_of_target_error {e : EvalError} (h : call.target args = .error e) :
    bridge.grant call args = .error e := by
  unfold Bridge.grant; rw [h]; rfl

theorem Bridge.grant_of_target_ok {target : HostTarget} {rest : List Value}
    (h : call.target args = .ok (target, rest)) :
    bridge.grant call args =
      (do let f ← (bridge.resolve target).mapError .bridge; return ⟨target, f, rest⟩) := by
  unfold Bridge.grant; rw [h]; rfl

theorem Bridge.grant_of_resolve_error {target : HostTarget} {rest : List Value} {e : BridgeError}
    (h : call.target args = .ok (target, rest)) (hr : bridge.resolve target = .error e) :
    bridge.grant call args = .error (.bridge e) := by
  rw [grant_of_target_ok h, hr]; rfl

theorem Bridge.grant_of_resolve_ok {target : HostTarget} {rest : List Value} {f : HostFunction σ}
    (h : call.target args = .ok (target, rest)) (hr : bridge.resolve target = .ok f) :
    bridge.grant call args = .ok ⟨target, f, rest⟩ := by
  rw [grant_of_target_ok h, hr]; rfl

/-- Without a grant, nothing runs. -/
theorem World.applyBridge_of_grant_error {e : EvalError} (h : bridge.grant call args = .error e) :
    w.applyBridge bridge addr call args =
      (.error e, w.record (.apply (.bridge addr call) args)) := by
  cases ht : call.target args with
  | error e' =>
    rw [Bridge.grant_of_target_error ht] at h
    cases h
    exact applyBridge_of_target_error ht
  | ok asked =>
    cases hr : bridge.resolve asked.1 with
    | error e' =>
      rw [Bridge.grant_of_resolve_error ht hr] at h
      cases h
      exact applyBridge_of_resolve_error ht hr
    | ok f => rw [Bridge.grant_of_resolve_ok ht hr] at h; cases h

/-- A grant runs its callable once, on its arguments. -/
theorem World.applyBridge_of_grant_ok {g : Grant σ} (h : bridge.grant call args = .ok g) :
    w.applyBridge bridge addr call args =
      let ((reply, host), next) := ((g.callable g.args).run w.host).run w.next
      ((Bridge.outcome g.target reply).mapError .bridge, { w with
        next, host
        journal := .callHost g.target g.args :: .apply (.bridge addr call) args :: w.journal }) := by
  cases ht : call.target args with
  | error e => rw [Bridge.grant_of_target_error ht] at h; cases h
  | ok asked =>
    cases hr : bridge.resolve asked.1 with
    | error e => rw [Bridge.grant_of_resolve_error ht hr] at h; cases h
    | ok f =>
      rw [Bridge.grant_of_resolve_ok ht hr] at h
      cases h
      exact applyBridge_of_resolve_ok ht hr

end applyBridge

theorem Bridge.eq_value_of_outcome {target : HostTarget} {reply : HostReply} {v : Value}
    (h : Bridge.outcome target reply = .ok v) : reply = .value v := by
  cases reply <;> cases h
  rfl

/-! ## Confinement -/

/-- Neither the application of a bridge procedure nor a call into the host. -/
def Event.IsInternal : Event → Prop
  | .apply (.bridge ..) _ | .callHost .. => False
  | _ => True

/-- From `host` to `host'`, these events, oldest first, touch the host only by grants of the bridge
procedures applied, each run once. If one of them fails, the evaluation fails with its error and
nothing happens any more but that visits end. -/
inductive Confined (grant : BridgeCall → List Value → Except EvalError (Grant σ)) :
    σ → List Event → Option EvalError → σ → Prop where
  | nil {host : σ} : Confined grant host [] none host
  | internal {host host' : σ} {e : Event} {es : List Event} {failure : Option EvalError}
    (he : e.IsInternal) (hes : Confined grant host es failure host') :
    Confined grant host (e :: es) failure host'
  | denied {host : σ} {addr : Nat} {call : BridgeCall} {args : List Value} {err : EvalError}
    {es : List Event} (h : grant call args = .error err) (hes : ∀ e ∈ es, e = .leave) :
    Confined grant host (.apply (.bridge addr call) args :: es) (some err) host
  | failed {host host' : σ} {addr next next' : Nat} {call : BridgeCall} {args : List Value}
    {g : Grant σ} {reply : HostReply} {err : BridgeError} {es : List Event}
    (h : grant call args = .ok g)
    (hreply : ((g.callable g.args).run host).run next = ((reply, host'), next'))
    (herr : Bridge.outcome g.target reply = .error err) (hes : ∀ e ∈ es, e = .leave) :
    Confined grant host (.apply (.bridge addr call) args :: .callHost g.target g.args :: es)
      (some (.bridge err)) host'
  | granted {host host₁ host' : σ} {addr next next' : Nat} {call : BridgeCall}
    {args : List Value} {g : Grant σ} {v : Value} {es : List Event} {failure : Option EvalError}
    (h : grant call args = .ok g)
    (hreply : ((g.callable g.args).run host).run next = ((.value v, host₁), next'))
    (hes : Confined grant host₁ es failure host') :
    Confined grant host (.apply (.bridge addr call) args :: .callHost g.target g.args :: es)
      failure host'

namespace Confined

variable {grant : BridgeCall → List Value → Except EvalError (Grant σ)} {host host₁ host' : σ}
  {es es' : List Event} {failure : Option EvalError}

/-- What follows an evaluation in which no bridge procedure failed. -/
theorem append (h : Confined grant host es none host₁)
    (h' : Confined grant host₁ es' failure host') :
    Confined grant host (es ++ es') failure host' := by
  generalize hnone : (none : Option EvalError) = none' at h
  induction h with
  | nil => exact h'
  | internal he _ ih => exact .internal he (ih h' hnone)
  | denied | failed => cases hnone
  | granted h hreply _ ih => exact .granted h hreply (ih h' hnone)

theorem ofInternal (h : ∀ e ∈ es, e.IsInternal) : Confined grant host es none host := by
  induction es with
  | nil => exact .nil
  | cons e es ih =>
    exact .internal (h e List.mem_cons_self) (ih fun e he => h e (List.mem_cons_of_mem _ he))

/-- The end of a visit comes after anything. -/
theorem leave (h : Confined grant host es failure host') :
    Confined grant host (es ++ [.leave]) failure host' := by
  have hend {es : List Event} (hes : ∀ e ∈ es, e = .leave) (e : Event) (he : e ∈ es ++ [.leave]) :
      e = .leave := by
    rcases List.mem_append.1 he with he | he
    · exact hes e he
    · exact List.mem_singleton.1 he
  induction h with
  | nil => exact .internal trivial .nil
  | internal he _ ih => exact .internal he ih
  | denied h hes => exact .denied h (hend hes)
  | failed h hreply herr hes => exact .failed h hreply herr (hend hes)
  | granted h hreply _ ih => exact .granted h hreply ih

end Confined

/-- From `m`, the journal grew by events that keep to the grants; the failure of a bridge procedure
is the result. -/
def Confines (grant : BridgeCall → List Value → Except EvalError (Grant σ)) (m : Machine σ)
    (p : Except EvalError α × Machine σ) : Prop :=
  ∃ es failure, p.2.world.journal = es.reverse ++ m.world.journal ∧
    Confined grant m.world.host es failure p.2.world.host ∧ ∀ e, failure = some e → p.1 = .error e

theorem Event.IsQuiet.isInternal {e : Event} (h : e.IsQuiet) : e.IsInternal := by
  cases e with
  | apply callee args => cases callee <;> trivial
  | _ => trivial

section confines

variable {bridge : Bridge σ} {m : Machine σ}

/-- Internal events keep to any grants. -/
theorem Confines.ofInternal {grant : BridgeCall → List Value → Except EvalError (Grant σ)}
    {r : Except EvalError α} {m' : Machine σ} (es : List Event)
    (hjournal : m'.world.journal = es ++ m.world.journal) (hhost : m'.world.host = m.world.host)
    (hes : ∀ e ∈ es, e.IsInternal) : Confines grant m (r, m') := by
  refine ⟨es.reverse, none, by rw [List.reverse_reverse, hjournal], ?_, fun e h => by cases h⟩
  rw [hhost]
  exact .ofInternal fun e he => hes e (List.mem_reverse.1 he)

theorem applyBridge_confines (addr : Nat) (call : BridgeCall) (args : List Value) :
    Confines bridge.grant m (tryOnWorld (World.applyBridge bridge addr call args) m) := by
  rw [tryOnWorld_apply]
  cases h : bridge.grant call args with
  | error e =>
    rw [World.applyBridge_of_grant_error h]
    exact ⟨[_], some e, rfl, .denied h (by simp), fun e' he => by cases he; rfl⟩
  | ok g =>
    rw [World.applyBridge_of_grant_ok h]
    rcases hreply : ((g.callable g.args).run m.world.host).run m.world.next with
      ⟨⟨reply, host⟩, next⟩
    cases hout : Bridge.outcome g.target reply with
    | error err =>
      refine ⟨[_, _], some (.bridge err), rfl, .failed h hreply hout (by simp), fun e' he => ?_⟩
      cases he
      exact congrArg (Except.mapError EvalError.bridge) hout
    | ok v =>
      obtain rfl : reply = .value v := Bridge.eq_value_of_outcome hout
      exact ⟨[_, _], none, rfl, .granted h hreply .nil, fun e' he => by cases he⟩

theorem Stepwise.confines {visit visit' : Visit σ} {x y : EvalM σ α}
    (hvisit : ∀ code frame m, Confines bridge.grant m (visit code frame m))
    (h : Stepwise bridge visit visit' x y) (m : Machine σ) : Confines bridge.grant m (x m) := by
  induction h generalizing m with
  | quiet hf =>
    obtain ⟨es, hes, hquiet⟩ := hf.journal m.world
    exact .ofInternal es hes.journal (hf.host m.world) fun e he => (hquiet e he).isInternal
  | call addr call args => exact applyBridge_confines addr call args
  | visit code frame => exact hvisit code frame m
  | bind _ _ ihx ihf =>
    refine bind_cases (fun e m' he => ?_) (fun a m' ha => ?_)
    · obtain ⟨es, failure, hjournal, hes, hfailure⟩ := ihx m
      rw [he] at hjournal hes hfailure
      exact ⟨es, failure, hjournal, hes, fun e' h => by cases hfailure e' h; rfl⟩
    · obtain ⟨es, failure, hjournal, hes, hfailure⟩ := ihx m
      rw [ha] at hjournal hes hfailure
      obtain rfl : failure = none := Option.eq_none_iff_forall_ne_some.2 fun e he => by
        cases hfailure e he
      obtain ⟨es', failure', hjournal', hes', hfailure'⟩ := ihf a m'
      refine ⟨es ++ es', failure', ?_, hes.append hes', hfailure'⟩
      rw [hjournal', hjournal, List.reverse_append, List.append_assoc]

theorem guarded_confines {step : EvalM σ Value} (hstep : ∀ m, Confines bridge.grant m (step m))
    (code : Value) (frame : Nat) (m : Machine σ) :
    Confines bridge.grant m (guarded code frame step m) := by
  cases h : m.guard.refusal? with
  | some why =>
    rw [guarded_of_refusal h]
    exact .ofInternal [.visit code frame] rfl rfl (by simp [Event.IsInternal])
  | none =>
    rw [guarded_of_admission h]
    obtain ⟨es, failure, hjournal, hes, hfailure⟩ := hstep (m.enter code frame)
    have hend : Confined bridge.grant m.world.host (es ++ [.leave]) failure
        (step (m.enter code frame)).2.world.host := hes.leave
    refine ⟨.visit code frame :: .enter :: (es ++ [.leave]), failure, ?_,
      .internal trivial (.internal trivial hend), hfailure⟩
    change Event.leave :: (step (m.enter code frame)).2.world.journal = _
    rw [hjournal]
    simp [Machine.enter, World.record]

theorem evalWithin_confines (bridge : Bridge σ) (room : Nat) (code : Value) (frame : Nat) :
    ∀ m, Confines bridge.grant m (evalWithin bridge room code frame m) := by
  induction room generalizing code frame with
  | zero =>
    exact guarded_confines (fun m => .ofInternal [] rfl rfl (by simp)) code frame
  | succ room ih =>
    exact guarded_confines (fun m => (evalStep_stepwise bridge _ (evalWithin bridge room) code
      frame).confines ih m) code frame

end confines

/-! ## Histories -/

/-- **Capability confinement.** Whatever a host did to an interpreter before, and whatever text the
interpreter then evaluates: the host's state changes by grants of that history alone, each of them
the application of a bridge procedure, run once on the rest of its arguments; the application of a
bridge procedure without a grant, or one that the host fails, is how the evaluation fails. And each
bridge procedure, wherever it is applied, does what its grant says or fails as the history has
it. -/
theorem eval_confined (limits : Limits) (clock : Clock) (host : σ) (history : List (Request σ))
    (text : String) :
    let i := (Interpreter.new limits clock host).after history
    let p := i.eval text
    (∃ failure, Confined (grant history) i.machine.world.host
        p.2.machine.world.journal.reverse failure p.2.machine.world.host ∧
      ∀ e, failure = some e → p.1 = .error e) ∧
    ∀ (addr : Nat) (call : BridgeCall) (args : List Value) (m : Machine σ),
      apply i.bridge (.bridge addr call) args m =
        match grant history call args with
        | .error e => (.error e, ⟨m.guard, m.world.record (.apply (.bridge addr call) args)⟩)
        | .ok g =>
          let ((reply, host), next) := ((g.callable g.args).run m.world.host).run m.world.next
          ((Bridge.outcome g.target reply).mapError .bridge, ⟨m.guard, { m.world with
            next, host
            journal := .callHost g.target g.args :: .apply (.bridge addr call) args ::
              m.world.journal }⟩) := by
  intro i p
  have hgrant : i.bridge.grant = grant history := by
    funext call args
    exact Interpreter.grant_after rfl history call args
  refine ⟨?_, fun addr call args m => ?_⟩
  · obtain ⟨x, hx, hrun⟩ := evalText_stepwise i.bridge text i.global
    have hvisit (code : Value) (frame : Nat) (m : Machine σ) :
        Confines i.bridge.grant m (eval i.bridge code frame m) :=
      evalWithin_confines i.bridge _ code frame m
    obtain ⟨es, failure, hjournal, hes, hfailure⟩ := hx.confines hvisit i.machine.restart
    have hp : evalText i.bridge text i.global i.machine = x i.machine.restart := hrun i.machine
    rw [← hp] at hjournal hes hfailure
    rw [hgrant] at hes
    have hjournal : p.2.machine.world.journal = es.reverse := hjournal.trans (List.append_nil _)
    refine ⟨failure, ?_, hfailure⟩
    rw [hjournal, List.reverse_reverse]
    exact hes
  · have happly : apply i.bridge (.bridge addr call) args m =
        tryOnWorld (World.applyBridge i.bridge addr call args) m :=
      congrFun (applyWith_bridge i.bridge _ addr call args) m
    rw [happly, tryOnWorld_apply, ← hgrant]
    cases h : i.bridge.grant call args with
    | error e => rw [World.applyBridge_of_grant_error h]
    | ok g => rw [World.applyBridge_of_grant_ok h]; rfl

end GuardedLisp
