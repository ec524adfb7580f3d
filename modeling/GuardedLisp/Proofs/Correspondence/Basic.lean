import GuardedLisp.Bridge
import GuardedLisp.Value.Equality
import Mathlib.Data.List.Forall2

/-!
# Correspondences

Two evaluations may differ in the identities they give out, in the numbers of
their frames, in what lies in frames they never look at, and still do the same. A
`Correspondence` says which values, frames, supplies of identities and states of
the host stand for each other in the two. It has to be kept by what a program can
do with values: take them apart, compare them, make new lists and procedures.

Values that correspond are of one kind and have one text (`text_eq`); failures
that correspond have one message (`EvalError.Kin.message_eq`).
-/

namespace GuardedLisp

variable {σ σ' α β γ δ : Type}

/-! ## Kin -/

/-- Neither a list nor a procedure. -/
def Value.IsAtom : Value → Prop
  | .nil | .bool _ | .number _ | .string _ | .symbol _ => True
  | _ => False

/-- The outermost layer of two values agrees: they are of one kind and say the same, the parts of
lists and closures are related by `R`, frames by `F`. Identities may differ. -/
inductive Value.Kin (R : Value → Value → Prop) (F : Nat → Nat → Prop) : Value → Value → Prop where
  | nil : Kin R F .nil .nil
  | bool (b : Bool) : Kin R F (.bool b) (.bool b)
  | number (x : Float) : Kin R F (.number x) (.number x)
  | string (s : String) : Kin R F (.string s) (.string s)
  | symbol (name : String) : Kin R F (.symbol name) (.symbol name)
  | list {addr addr' depth : Nat} {items items' : List Value} (h : List.Forall₂ R items items') :
    Kin R F (.list addr depth items) (.list addr' depth items')
  | builtin {addr addr' : Nat} (p : Primitive) : Kin R F (.builtin addr p) (.builtin addr' p)
  | closure {addr addr' frame frame' : Nat} {params : List String} {body body' : Value}
    (hbody : R body body') (hframe : F frame frame') :
    Kin R F (.closure addr params body frame) (.closure addr' params body' frame')
  | bridge {addr addr' : Nat} (call : BridgeCall) : Kin R F (.bridge addr call) (.bridge addr' call)

/-- Bindings of one name to related values. -/
def BindingKin (R : Value → Value → Prop) (b b' : String × Value) : Prop :=
  b.1 = b'.1 ∧ R b.2 b'.2

namespace BindingKin

variable {R : Value → Value → Prop} {bindings bindings' : List (String × Value)}

theorem zip {names : List String} {vs vs' : List Value} (h : List.Forall₂ R vs vs') :
    List.Forall₂ (BindingKin R) (names.zip vs) (names.zip vs') := by
  induction h generalizing names with
  | nil => simp
  | cons hv _ ih =>
    cases names with
    | nil => exact .nil
    | cons name names => exact .cons ⟨rfl, hv⟩ ih

theorem values (h : List.Forall₂ (BindingKin R) bindings bindings') :
    List.Forall₂ R (bindings.map Prod.snd) (bindings'.map Prod.snd) := by
  induction h with
  | nil => exact .nil
  | cons hb _ ih => exact .cons hb.2 ih

theorem names_eq (h : List.Forall₂ (BindingKin R) bindings bindings') :
    bindings.map Prod.fst = bindings'.map Prod.fst := by
  induction h with
  | nil => rfl
  | cons hb _ ih => rw [List.map_cons, List.map_cons, hb.1, ih]

end BindingKin

inductive SyntaxFault.Kin (R : Value → Value → Prop) : SyntaxFault → SyntaxFault → Prop where
  | shape (form : Keyword) : Kin R (.shape form) (.shape form)
  | name {form : Keyword} {got got' : Value} (h : R got got') :
    Kin R (.name form got) (.name form got')
  | parameters {got got' : Value} (h : R got got') : Kin R (.parameters got) (.parameters got')
  | parameter {got got' : Value} (h : R got got') : Kin R (.parameter got) (.parameter got')
  | bindings {got got' : Value} (h : R got got') : Kin R (.bindings got) (.bindings got')
  | binding {got got' : Value} (h : R got got') : Kin R (.binding got) (.binding got')

inductive TypeFault.Kin (R : Value → Value → Prop) : TypeFault → TypeFault → Prop where
  | number {p : Primitive} {got got' : Value} (h : R got got') :
    Kin R (.number p got) (.number p got')
  | list {p : Primitive} {got got' : Value} (h : R got got') : Kin R (.list p got) (.list p got')
  | callable {got got' : Value} (h : R got got') : Kin R (.callable got) (.callable got')
  | hostName {call : BridgeCall} {expected : HostName} {got got' : Value} (h : R got got') :
    Kin R (.hostName call expected got) (.hostName call expected got')

/-- The same failure, about related values. -/
inductive EvalError.Kin (R : Value → Value → Prop) : EvalError → EvalError → Prop where
  | parse (e : Source.ParseError) : Kin R (.parse e) (.parse e)
  | undefinedVariable (name : String) : Kin R (.undefinedVariable name) (.undefinedVariable name)
  | malformed {fault fault' : SyntaxFault} (h : SyntaxFault.Kin R fault fault') :
    Kin R (.malformed fault) (.malformed fault')
  | arity (fault : ArityFault) : Kin R (.arity fault) (.arity fault)
  | type {fault fault' : TypeFault} (h : TypeFault.Kin R fault fault') :
    Kin R (.type fault) (.type fault')
  | listTooDeep : Kin R .listTooDeep .listTooDeep
  | refused (why : Refusal) : Kin R (.refused why) (.refused why)
  | bridge (e : BridgeError) : Kin R (.bridge e) (.bridge e)

/-- Failures about equal values are equal. -/
theorem EvalError.Kin.eq {R : Value → Value → Prop} (hR : ∀ {v v'}, R v v' → v = v')
    {e e' : EvalError} (h : Kin R e e') : e = e' := by
  cases h with
  | malformed h =>
    cases h with
    | shape => rfl
    | name h | parameters h | parameter h | bindings h | binding h => rw [hR h]
  | type h =>
    cases h with
    | number h | list h | callable h | hostName h => rw [hR h]
  | _ => rfl

/-- Both succeed with related results, or both fail with related errors. -/
inductive ExceptKin {ε : Type} (E : ε → ε → Prop) (R : α → β → Prop) :
    Except ε α → Except ε β → Prop where
  | ok {a : α} {b : β} (h : R a b) : ExceptKin E R (.ok a) (.ok b)
  | error {e e' : ε} (h : E e e') : ExceptKin E R (.error e) (.error e')

namespace ExceptKin

variable {ε ε₁ : Type} {E : ε → ε → Prop} {E₁ : ε₁ → ε₁ → Prop} {R : α → β → Prop}
  {S : γ → δ → Prop} {x : Except ε α} {y : Except ε β}

theorem bind {f : α → Except ε γ} {g : β → Except ε δ} (h : ExceptKin E R x y)
    (hf : ∀ a b, R a b → ExceptKin E S (f a) (g b)) : ExceptKin E S (x >>= f) (y >>= g) := by
  cases h with
  | ok h => exact hf _ _ h
  | error h => exact .error h

theorem eq {E : ε → ε → Prop} {R : α → α → Prop} {x y : Except ε α}
    (hE : ∀ {e e'}, E e e' → e = e') (hR : ∀ {a a'}, R a a' → a = a') (h : ExceptKin E R x y) :
    x = y := by
  cases h with
  | ok h => rw [hR h]
  | error h => rw [hE h]

theorem mapError {f g : ε → ε₁} (h : ExceptKin E R x y) (hf : ∀ e e', E e e' → E₁ (f e) (g e')) :
    ExceptKin E₁ R (x.mapError f) (y.mapError g) := by
  cases h with
  | ok h => exact .ok h
  | error h => exact .error (hf _ _ h)

end ExceptKin

inductive HostReply.Kin (R : Value → Value → Prop) : HostReply → HostReply → Prop where
  | value {v v' : Value} (h : R v v') : Kin R (.value v) (.value v')
  | failure (message : String) : Kin R (.failure message) (.failure message)
  | crash (message : Option String) : Kin R (.crash message) (.crash message)
  | raise (report : Report) : Kin R (.raise report) (.raise report)

/-- The depth of a new list is decided by the depths of its items. -/
theorem Value.depthOver_congr {vs vs' : List Value}
    (h : List.Forall₂ (fun v v' => v.depth = v'.depth) vs vs') : depthOver vs = depthOver vs' := by
  have hfold (d : Nat) : vs.foldl (fun d v => max d v.depth) d =
      vs'.foldl (fun d v => max d v.depth) d := by
    induction h generalizing d with
    | nil => rfl
    | cons hv _ ih => rw [List.foldl_cons, List.foldl_cons, hv, ih]
  simp only [depthOver, deepest, hfold]

theorem Value.itemsText_cons_cons (v w : Value) (vs : List Value) :
    itemsText (v :: w :: vs) = v.text ++ " " ++ itemsText (w :: vs) := by
  rw [itemsText]
  simp

/-! ## Correspondences -/

/-- What stands for what in two evaluations. -/
structure Correspondence (σ σ' : Type) where
  value : Value → Value → Prop
  frame : Nat → Nat → Prop
  /-- Supplies of identities at the same point: what is made of them next corresponds. -/
  supply : Nat → Nat → Prop
  host : σ → σ' → Prop
  /-- The host of the second evaluation did what the correspondence does not allow for; from then on
  nothing needs to correspond. -/
  broken : σ' → Prop
  kin {v v' : Value} (h : value v v') : v.Kin value frame v'
  atom {v : Value} (h : v.IsAtom) : value v v
  /-- A list that a program may build. -/
  list {n n' : Nat} {items items' : List Value} (hn : supply n n')
    (h : List.Forall₂ value items items') (hdepth : Value.depthOver items ≤ Source.maxNesting) :
    value (.list n (Value.depthOver items) items) (.list n' (Value.depthOver items') items')
  /-- What is left of a list without its first item. -/
  tail {n n' addr addr' depth depth' : Nat} {items items' : List Value} (hn : supply n n')
    (h : value (.list addr depth items) (.list addr' depth' items')) :
    value (.list n (Value.depthOver (items.drop 1)) (items.drop 1))
      (.list n' (Value.depthOver (items'.drop 1)) (items'.drop 1))
  closure {n n' f f' : Nat} {params : List String} {body body' : Value} (hn : supply n n')
    (hbody : value body body') (hf : frame f f') :
    value (.closure n params body f) (.closure n' params body' f')
  builtin {n n' : Nat} (hn : supply n n') (p : Primitive) : value (.builtin n p) (.builtin n' p)
  bridge {n n' : Nat} (hn : supply n n') (call : BridgeCall) :
    value (.bridge n call) (.bridge n' call)
  equal {v v' w w' : Value} (hv : value v v') (hw : value w w') : v.equal w = v'.equal w'
  succ {n n' : Nat} (hn : supply n n') : supply (n + 1) (n' + 1)
  /-- Frames correspond in the order of their creation. -/
  older {f f' g g' : Nat} (hf : frame f f') (hg : frame g g') : f < g ↔ f' < g'

namespace Correspondence

variable (C : Correspondence σ σ')

abbrev Values : List Value → List Value → Prop := List.Forall₂ C.value

abbrev Errors : EvalError → EvalError → Prop := EvalError.Kin C.value

/-- Results of evaluations. -/
abbrev Results (R : α → β → Prop) : Except EvalError α → Except EvalError β → Prop :=
  ExceptKin C.Errors R

/-- Computations that may allocate, run from supplies at the same point. -/
def Allocations (R : α → β → Prop) (x : AllocM α) (y : AllocM β) : Prop :=
  ∀ n n', C.supply n n' → R (x.run n).1 (y.run n').1 ∧ C.supply (x.run n).2 (y.run n').2

/-- Host functions that reply alike, unless the host breaks the correspondence, and cannot mend it
once it is broken. -/
structure HostFunctions (f : HostFunction σ) (f' : HostFunction σ') : Prop where
  broken : ∀ args host n, C.broken host → C.broken (((f' args).run host).run n).1.2
  alike : ∀ args args' host host' n n', C.Values args args' → C.host host host' → C.supply n n' →
    C.broken (((f' args').run host').run n').1.2 ∨
      (((f args).run host).run n).1.1.Kin C.value (((f' args').run host').run n').1.1 ∧
      C.host (((f args).run host).run n).1.2 (((f' args').run host').run n').1.2 ∧
      C.supply (((f args).run host).run n).2 (((f' args').run host').run n').2

/-- Bridges that resolve every target alike. -/
def Bridges (b : Bridge σ) (b' : Bridge σ') : Prop :=
  ∀ target, ExceptKin Eq C.HostFunctions (b.resolve target) (b'.resolve target)

/-! ## What is seen of a value -/

section values

variable {C} {v v' : Value} {vs vs' : List Value}

theorem frame_inj {f f' g g' : Nat} (hf : C.frame f f') (hg : C.frame g g') : f = g ↔ f' = g' := by
  have hlt := C.older hf hg
  have hgt := C.older hg hf
  omega

theorem truthy_eq (h : C.value v v') : v.truthy = v'.truthy := by cases C.kin h <;> rfl

theorem typeName_eq (h : C.value v v') : v.typeName = v'.typeName := by cases C.kin h <;> rfl

theorem depth_eq (h : C.value v v') : v.depth = v'.depth := by cases C.kin h <;> rfl

theorem depthOver_eq (h : C.Values vs vs') : Value.depthOver vs = Value.depthOver vs' :=
  Value.depthOver_congr (h.imp fun _ _ => depth_eq)

mutual

theorem text_eq {v v' : Value} (h : C.value v v') : v.text = v'.text := by
  match v, v', C.kin h with
  | .list _ _ items, .list _ _ items', .list hitems =>
    rw [Value.text, Value.text, itemsText_eq hitems]
  | _, _, .nil | _, _, .bool _ | _, _, .number _ | _, _, .string _ | _, _, .symbol _ => rfl
  | _, _, .builtin _ | _, _, .closure .. | _, _, .bridge _ => rfl

theorem itemsText_eq {vs vs' : List Value} (h : C.Values vs vs') :
    Value.itemsText vs = Value.itemsText vs' := by
  match vs, vs', h with
  | [], [], _ => rfl
  | [v], [v'], .cons hv .nil => rw [Value.itemsText, Value.itemsText, text_eq hv]
  | v :: w :: ws, v' :: w' :: ws', .cons hv hws =>
    rw [Value.itemsText_cons_cons, Value.itemsText_cons_cons, text_eq hv, itemsText_eq hws]

end

theorem typedText_eq (h : C.value v v') : v.typedText = v'.typedText := by
  rw [Value.typedText, Value.typedText, text_eq h, typeName_eq h]

end values

theorem syntaxMessage_eq {C : Correspondence σ σ'} {fault fault' : SyntaxFault}
    (h : SyntaxFault.Kin C.value fault fault') : fault.message = fault'.message := by
  cases h with
  | shape form => rfl
  | name h | parameters h | parameter h | bindings h | binding h =>
    unfold SyntaxFault.message
    simp only [text_eq h]

theorem typeMessage_eq {C : Correspondence σ σ'} {fault fault' : TypeFault}
    (h : TypeFault.Kin C.value fault fault') : fault.message = fault'.message := by
  cases h with
  | number h | list h | callable h | hostName h =>
    unfold TypeFault.message
    simp only [typedText_eq h]

/-- Failures that correspond have one message. -/
theorem message_eq {C : Correspondence σ σ'} {e e' : EvalError} (h : C.Errors e e') :
    e.message = e'.message := by
  cases h with
  | malformed h => exact congrArg (fun text => s!"Syntax error: {text}") (syntaxMessage_eq h)
  | type h => exact congrArg (fun text => s!"Type error: {text}") (typeMessage_eq h)
  | _ => rfl

end Correspondence

end GuardedLisp
