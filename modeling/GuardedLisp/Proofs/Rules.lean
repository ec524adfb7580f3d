import GuardedLisp.Eval.Step
import GuardedLisp.Proofs.Spelling

/-!
# The rules of the language

What an expression evaluates to when nothing limits it, as a relation between
the scene before, the result and the scene after. Every rule names the parts of
an expression that are evaluated, in their order; the first part that fails ends
it. The rules also count: how many expressions a derivation visits, and how
deeply their visits nest.
-/

namespace GuardedLisp

variable {σ : Type}

/-- What a program acts on, and the calls into the host so far. -/
structure Scene (σ : Type) where
  store : Store
  /-- The next free identity. -/
  next : Nat
  host : σ
  /-- Oldest first. -/
  calls : List (HostTarget × List Value)

namespace Scene

/-- A new frame inside `parent`; its number is the next one of the store. -/
def extend (s : Scene σ) (parent : Nat) (bindings : List (String × Value)) : Scene σ :=
  { s with store := s.store.extend parent bindings }

def define (s : Scene σ) (frame : Nat) (name : String) (v : Value) : Scene σ :=
  { s with store := s.store.define frame name v }

def set (s : Scene σ) (frame : Nat) (name : String) (v : Value) : Scene σ :=
  { s with store := s.store.set frame name v }

end Scene

/-- Visits of expressions: how many, and how deeply they nest. -/
@[ext] structure Cost where
  visits : Nat
  height : Nat

namespace Cost

def none : Cost := ⟨0, 0⟩

/-- One evaluation after another. -/
def seq (c c' : Cost) : Cost := ⟨c.visits + c'.visits, max c.height c'.height⟩

/-- What it costs to visit an expression, given what happens inside. -/
def nest (c : Cost) : Cost := ⟨c.visits + 1, c.height + 1⟩

theorem seq_none (c : Cost) : c.seq none = c :=
  Cost.ext (Nat.add_zero _) (Nat.max_zero _)

theorem none_seq (c : Cost) : none.seq c = c :=
  Cost.ext (Nat.zero_add _) (Nat.zero_max _)

end Cost

/-- Stands for itself: neither a symbol nor a list with items. -/
def Value.IsConstant : Value → Prop
  | .symbol _ | .list _ _ (_ :: _) => False
  | _ => True

def Value.IsReserved (v : Value) : Prop := ∃ form : Keyword, v = .symbol form.name

mutual

/-- The expression, evaluated in the frame. -/
inductive Evaluates (bridge : Bridge σ) :
    Value → Nat → Scene σ → Except EvalError Value → Scene σ → Cost → Prop where
  | constant {v : Value} {frame : Nat} {s : Scene σ} (h : v.IsConstant) :
    Evaluates bridge v frame s (.ok v) s Cost.none.nest
  | bound {name : String} {frame : Nat} {s : Scene σ} {v : Value}
    (h : s.store.get? frame name = some v) :
    Evaluates bridge (.symbol name) frame s (.ok v) s Cost.none.nest
  | unbound {name : String} {frame : Nat} {s : Scene σ} (h : s.store.get? frame name = none) :
    Evaluates bridge (.symbol name) frame s (.error (.undefinedVariable name)) s Cost.none.nest
  | malformed {addr depth : Nat} {form : Keyword} {operands : List Value} {fault : SyntaxFault}
    {frame : Nat} {s : Scene σ} (h : SpecialForm.Faulty form operands fault) :
    Evaluates bridge (.list addr depth (.symbol form.name :: operands)) frame s
      (.error (.malformed fault)) s Cost.none.nest
  | special {addr depth : Nat} {form : Keyword} {operands : List Value} {f : SpecialForm}
    {frame : Nat} {s s' : Scene σ} {r : Except EvalError Value} {c : Cost}
    (h : SpecialForm.Spells form operands f) (hf : RunsForm bridge f frame s r s' c) :
    Evaluates bridge (.list addr depth (.symbol form.name :: operands)) frame s r s' c.nest
  | headFails {addr depth : Nat} {head : Value} {operands : List Value} {frame : Nat}
    {s s' : Scene σ} {e : EvalError} {c : Cost} (h : ¬ head.IsReserved)
    (hhead : Evaluates bridge head frame s (.error e) s' c) :
    Evaluates bridge (.list addr depth (head :: operands)) frame s (.error e) s' c.nest
  | argumentFails {addr depth : Nat} {head callee : Value} {operands : List Value} {frame : Nat}
    {s s₁ s' : Scene σ} {e : EvalError} {c c' : Cost} (h : ¬ head.IsReserved)
    (hhead : Evaluates bridge head frame s (.ok callee) s₁ c)
    (hargs : EvaluatesEach bridge operands frame s₁ (.error e) s' c') :
    Evaluates bridge (.list addr depth (head :: operands)) frame s (.error e) s' (c.seq c').nest
  | application {addr depth : Nat} {head callee : Value} {operands args : List Value} {frame : Nat}
    {s s₁ s₂ s' : Scene σ} {r : Except EvalError Value} {c c' c'' : Cost} (h : ¬ head.IsReserved)
    (hhead : Evaluates bridge head frame s (.ok callee) s₁ c)
    (hargs : EvaluatesEach bridge operands frame s₁ (.ok args) s₂ c')
    (hcall : Calls bridge callee args s₂ r s' c'') :
    Evaluates bridge (.list addr depth (head :: operands)) frame s r s' (c.seq (c'.seq c'')).nest

/-- The expressions, evaluated from the left. -/
inductive EvaluatesEach (bridge : Bridge σ) :
    List Value → Nat → Scene σ → Except EvalError (List Value) → Scene σ → Cost → Prop where
  | nil {frame : Nat} {s : Scene σ} : EvaluatesEach bridge [] frame s (.ok []) s .none
  | firstFails {e : Value} {es : List Value} {frame : Nat} {s s' : Scene σ} {err : EvalError}
    {c : Cost} (h : Evaluates bridge e frame s (.error err) s' c) :
    EvaluatesEach bridge (e :: es) frame s (.error err) s' c
  | restFails {e v : Value} {es : List Value} {frame : Nat} {s s₁ s' : Scene σ} {err : EvalError}
    {c c' : Cost} (h : Evaluates bridge e frame s (.ok v) s₁ c)
    (hes : EvaluatesEach bridge es frame s₁ (.error err) s' c') :
    EvaluatesEach bridge (e :: es) frame s (.error err) s' (c.seq c')
  | cons {e v : Value} {es vs : List Value} {frame : Nat} {s s₁ s' : Scene σ} {c c' : Cost}
    (h : Evaluates bridge e frame s (.ok v) s₁ c)
    (hes : EvaluatesEach bridge es frame s₁ (.ok vs) s' c') :
    EvaluatesEach bridge (e :: es) frame s (.ok (v :: vs)) s' (c.seq c')

/-- The special form, run in the frame. -/
inductive RunsForm (bridge : Bridge σ) :
    SpecialForm → Nat → Scene σ → Except EvalError Value → Scene σ → Cost → Prop where
  | quote {datum : Value} {frame : Nat} {s : Scene σ} :
    RunsForm bridge (.quote datum) frame s (.ok datum) s .none
  | conditionFails {condition consequent : Value} {alternative : Option Value} {frame : Nat}
    {s s' : Scene σ} {e : EvalError} {c : Cost}
    (h : Evaluates bridge condition frame s (.error e) s' c) :
    RunsForm bridge (.branch condition consequent alternative) frame s (.error e) s' c
  | consequent {condition consequent v : Value} {alternative : Option Value} {frame : Nat}
    {s s₁ s' : Scene σ} {r : Except EvalError Value} {c c' : Cost}
    (h : Evaluates bridge condition frame s (.ok v) s₁ c) (hv : v.truthy = true)
    (hconsequent : Evaluates bridge consequent frame s₁ r s' c') :
    RunsForm bridge (.branch condition consequent alternative) frame s r s' (c.seq c')
  | alternative {condition consequent alternative v : Value} {frame : Nat} {s s₁ s' : Scene σ}
    {r : Except EvalError Value} {c c' : Cost}
    (h : Evaluates bridge condition frame s (.ok v) s₁ c) (hv : v.truthy = false)
    (halternative : Evaluates bridge alternative frame s₁ r s' c') :
    RunsForm bridge (.branch condition consequent (some alternative)) frame s r s' (c.seq c')
  | noAlternative {condition consequent v : Value} {frame : Nat} {s s' : Scene σ} {c : Cost}
    (h : Evaluates bridge condition frame s (.ok v) s' c) (hv : v.truthy = false) :
    RunsForm bridge (.branch condition consequent none) frame s (.ok .nil) s' c
  | definitionFails {name : String} {e : Value} {frame : Nat} {s s' : Scene σ} {err : EvalError}
    {c : Cost} (h : Evaluates bridge e frame s (.error err) s' c) :
    RunsForm bridge (.define name e) frame s (.error err) s' c
  | define {name : String} {e v : Value} {frame : Nat} {s s' : Scene σ} {c : Cost}
    (h : Evaluates bridge e frame s (.ok v) s' c) :
    RunsForm bridge (.define name e) frame s (.ok v) (s'.define frame name v) c
  | assignmentFails {name : String} {e : Value} {frame : Nat} {s s' : Scene σ} {err : EvalError}
    {c : Cost} (h : Evaluates bridge e frame s (.error err) s' c) :
    RunsForm bridge (.assign name e) frame s (.error err) s' c
  | assignUnbound {name : String} {e v : Value} {frame : Nat} {s s' : Scene σ} {c : Cost}
    (h : Evaluates bridge e frame s (.ok v) s' c) (hname : s'.store.get? frame name = none) :
    RunsForm bridge (.assign name e) frame s (.error (.undefinedVariable name)) s' c
  | assign {name : String} {e v old : Value} {frame : Nat} {s s' : Scene σ} {c : Cost}
    (h : Evaluates bridge e frame s (.ok v) s' c) (hname : s'.store.get? frame name = some old) :
    RunsForm bridge (.assign name e) frame s (.ok v) (s'.set frame name v) c
  | lambda {params : List String} {body : Value} {frame : Nat} {s : Scene σ} :
    RunsForm bridge (.lambda params body) frame s (.ok (.closure s.next params body frame))
      { s with next := s.next + 1 } .none
  | bindingFails {bindings : List (String × Value)} {body : Value} {frame : Nat} {s s' : Scene σ}
    {e : EvalError} {c : Cost}
    (h : EvaluatesEach bridge (bindings.map Prod.snd) frame s (.error e) s' c) :
    RunsForm bridge (.bind bindings body) frame s (.error e) s' c
  | bind {bindings : List (String × Value)} {body : Value} {frame : Nat} {s s₁ s' : Scene σ}
    {vs : List Value} {r : Except EvalError Value} {c c' : Cost}
    (h : EvaluatesEach bridge (bindings.map Prod.snd) frame s (.ok vs) s₁ c)
    (hbody : Evaluates bridge body s₁.store.nextFrame
      (s₁.extend frame ((bindings.map Prod.fst).zip vs)) r s' c') :
    RunsForm bridge (.bind bindings body) frame s r s' (c.seq c')
  | only {e : Value} {frame : Nat} {s s' : Scene σ} {r : Except EvalError Value} {c : Cost}
    (h : Evaluates bridge e frame s r s' c) : RunsForm bridge (.sequence e []) frame s r s' c
  | firstFails {first e : Value} {es : List Value} {frame : Nat} {s s' : Scene σ} {err : EvalError}
    {c : Cost} (h : Evaluates bridge first frame s (.error err) s' c) :
    RunsForm bridge (.sequence first (e :: es)) frame s (.error err) s' c
  | next {first e v : Value} {es : List Value} {frame : Nat} {s s₁ s' : Scene σ}
    {r : Except EvalError Value} {c c' : Cost} (h : Evaluates bridge first frame s (.ok v) s₁ c)
    (hrest : RunsForm bridge (.sequence e es) frame s₁ r s' c') :
    RunsForm bridge (.sequence first (e :: es)) frame s r s' (c.seq c')

/-- The value, called with the arguments. -/
inductive Calls (bridge : Bridge σ) :
    Value → List Value → Scene σ → Except EvalError Value → Scene σ → Cost → Prop where
  | builtin {addr next : Nat} {p : Primitive} {args : List Value} {s : Scene σ}
    {r : Except EvalError Value} (h : (p.apply args).run s.next = (r, next)) :
    Calls bridge (.builtin addr p) args s r { s with next } .none
  | wrongCount {addr frame : Nat} {params : List String} {body : Value} {args : List Value}
    {s : Scene σ} (h : params.length ≠ args.length) :
    Calls bridge (.closure addr params body frame) args s
      (.error (.arity (.closure params args.length))) s .none
  | closure {addr frame : Nat} {params : List String} {body : Value} {args : List Value}
    {s s' : Scene σ} {r : Except EvalError Value} {c : Cost} (h : params.length = args.length)
    (hbody : Evaluates bridge body s.store.nextFrame (s.extend frame (params.zip args)) r s' c) :
    Calls bridge (.closure addr params body frame) args s r s' c
  | unnamed {addr : Nat} {call : BridgeCall} {args : List Value} {s : Scene σ} {e : EvalError}
    (h : call.target args = .error e) : Calls bridge (.bridge addr call) args s (.error e) s .none
  | unresolved {addr : Nat} {call : BridgeCall} {args rest : List Value} {target : HostTarget}
    {s : Scene σ} {e : BridgeError} (h : call.target args = .ok (target, rest))
    (hf : bridge.resolve target = .error e) :
    Calls bridge (.bridge addr call) args s (.error (.bridge e)) s .none
  | host {addr next : Nat} {call : BridgeCall} {args rest : List Value} {target : HostTarget}
    {f : HostFunction σ} {reply : HostReply} {host : σ} {s : Scene σ}
    (h : call.target args = .ok (target, rest)) (hf : bridge.resolve target = .ok f)
    (hreply : ((f rest).run s.host).run s.next = ((reply, host), next)) :
    Calls bridge (.bridge addr call) args s ((Bridge.outcome target reply).mapError .bridge)
      { s with next, host, calls := s.calls ++ [(target, rest)] } .none
  | notCallable {callee : Value} {args : List Value} {s : Scene σ}
    (h : callee.typeName ≠ "procedure") :
    Calls bridge callee args s (.error (.type (.callable callee))) s .none

end

end GuardedLisp
