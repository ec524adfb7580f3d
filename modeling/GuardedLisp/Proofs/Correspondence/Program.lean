import GuardedLisp.Interpreter
import GuardedLisp.Proofs.Correspondence.Step

/-!
# Programs and interpreters in lockstep

A text gives programs that correspond, with lists no deeper than a program may
build itself, and a table of globals corresponds to any other. So two interpreters
that correspond (`Twins`) still do after everything that a host can ask of both,
and what they answer corresponds.
-/

namespace GuardedLisp

open EvalM
open Source (Datum maxNesting)

variable {σ σ' α β γ δ : Type}

namespace Value

theorem deepest_cons (v : Value) (vs : List Value) :
    deepest (v :: vs) = max v.depth (deepest vs) := by
  have hfold (vs : List Value) (d : Nat) :
      vs.foldl (fun d v => max d v.depth) d = max d (deepest vs) := by
    unfold deepest
    induction vs generalizing d with
    | nil => simp
    | cons w ws ih => rw [List.foldl_cons, List.foldl_cons, ih, ih (max 0 w.depth)]; omega
  rw [deepest, List.foldl_cons, hfold]
  omega

mutual

theorem depth_ofDatum (d : Datum) (n : Nat) : ((ofDatum d).run n).1.depth = d.nesting := by
  match d with
  | .number _ | .string _ | .symbol _ => rfl
  | .list items =>
    have hitems := deepest_ofData items n
    rw [ofDatum, Datum.nesting, ← hitems]
    rfl

theorem deepest_ofData (ds : List Datum) (n : Nat) :
    deepest ((ofData ds).run n).1 = Datum.nestingOfItems ds := by
  match ds with
  | [] => rw [ofData]; rfl
  | d :: ds =>
    have hd := depth_ofDatum d n
    have hds := deepest_ofData ds ((ofDatum d).run n).2
    rw [ofData, Datum.nestingOfItems, ← hd, ← hds]
    exact deepest_cons _ _

end

end Value

namespace Correspondence

variable {C : Correspondence σ σ'}

/-! ## Program texts -/

theorem Allocations.bind {R : α → β → Prop} {S : γ → δ → Prop} {x : AllocM α} {y : AllocM β}
    {f : α → AllocM γ} {g : β → AllocM δ} (hx : C.Allocations R x y)
    (hf : ∀ a b, R a b → C.Allocations S (f a) (g b)) : C.Allocations S (x >>= f) (y >>= g) := by
  intro n n' hn
  obtain ⟨hab, hn⟩ := hx n n' hn
  exact hf _ _ hab _ _ hn

mutual

theorem ofDatum_alike (d : Datum) (h : d.nesting ≤ maxNesting) :
    C.Allocations C.value (Value.ofDatum d) (Value.ofDatum d) := by
  match d with
  | .number _ | .string _ | .symbol _ => rw [Value.ofDatum]; exact .pure (C.atom trivial)
  | .list items =>
    intro n n' hn
    rw [Datum.nesting] at h
    have hdepth : Value.depthOver ((Value.ofData items).run n).1 ≤ maxNesting := by
      rw [Value.depthOver, Value.deepest_ofData]
      exact h
    obtain ⟨hitems, hnext⟩ := ofData_alike items (by omega) n n' hn
    rw [Value.ofDatum]
    exact ⟨C.list hnext hitems hdepth, C.succ hnext⟩

theorem ofData_alike (ds : List Datum) (h : Datum.nestingOfItems ds ≤ maxNesting) :
    C.Allocations C.Values (Value.ofData ds) (Value.ofData ds) := by
  match ds with
  | [] => rw [Value.ofData]; exact .pure .nil
  | d :: ds =>
    rw [Datum.nestingOfItems] at h
    rw [Value.ofData]
    refine (ofDatum_alike d (by omega)).bind fun v v' hv => ?_
    exact (ofData_alike ds (by omega)).bind fun vs vs' hvs => .pure (.cons hv hvs)

end

theorem Worlds.forget {w : World σ} {w' : World σ'} (h : C.Worlds w w') :
    C.Worlds { w with journal := [] } { w' with journal := [] } := ⟨h.store, h.supply, h.host⟩

section texts

variable {b : Bridge σ} {b' : Bridge σ'} {frame frame' : Nat} {m : Machine σ} {m' : Machine σ'}

/-- **Evaluations of one text run in lockstep**, from where the guards were started afresh. -/
theorem evalText_alike (hb : C.Bridges b b') (text : String) (hf : C.frame frame frame')
    (hg : m.guard.reset = m'.guard.reset) (hw : C.Worlds m.world m'.world) :
    C.broken (evalText b' text frame' m').2.world.host ∨
      C.Ends C.value m.restart m'.restart (evalText b text frame m)
        (evalText b' text frame' m') := by
  have hbody {x : EvalM σ Value} {y : EvalM σ' Value} (h : C.Lockstep C.value x y) :
      C.broken (y m'.restart).2.world.host ∨
        C.Ends C.value m.restart m'.restart (x m.restart) (y m'.restart) :=
    h m.restart m'.restart hg hw.forget
  unfold evalText
  cases hdata : Source.Program.ofText text with
  | error e => exact hbody (.throw (.parse e))
  | ok data =>
    have hrun : C.Lockstep C.value (onWorld (·.alloc (Value.ofData data)) >>= evalProgram b frame)
        (onWorld (·.alloc (Value.ofData data)) >>= evalProgram b' frame') := by
      refine .bind (R := C.Values) ?_ (fun _ _ h => evalProgram_alike hb hf h) fun program => ?_
      · refine .alloc (x := do return .ok (← Value.ofData data))
          (y := do return .ok (← Value.ofData data)) ?_
        refine (ofData_alike data ?_).bind fun _ _ h => .pure (.ok h)
        exact Datum.nestingOfItems_le (Source.nesting_le_of_ofText hdata)
      · cases program with
        | nil => exact (eval_alike hb).stepwise_keeps (.pure _)
        | cons e es => exact (eval_alike hb).stepwise_keeps (.last frame' e es)
    exact hbody hrun

theorem evalText_keeps (hb : C.Bridges b b') (text : String) (frame' : Nat) :
    C.Keeps (evalText b' text frame') := by
  intro m' hm'
  obtain ⟨x, hx, hrun⟩ := evalText_stepwise b' text frame'
  rw [hrun]
  exact (eval_alike hb).stepwise_keeps hx m'.restart hm'

end texts

/-! ## Globals -/

theorem named_alike (name : γ → String) {procedure : Nat → γ → Value}
    (h : ∀ {n n'}, C.supply n n' → ∀ a, C.value (procedure n a) (procedure n' a)) (as : List γ) :
    C.Allocations (List.Forall₂ (BindingKin C.value)) (Globals.named name procedure as)
      (Globals.named name procedure as) := by
  induction as with
  | nil => exact .pure .nil
  | cons a as ih =>
    intro n n' hn
    obtain ⟨hbs, hnext⟩ := ih (n + 1) (n' + 1) (C.succ hn)
    exact ⟨.cons ⟨rfl, h hn a⟩ hbs, hnext⟩

theorem table_alike : C.Allocations (List.Forall₂ (BindingKin C.value)) Globals.table
    Globals.table := by
  refine (named_alike _ C.builtin _).bind fun _ _ hp =>
    (named_alike _ C.bridge _).bind fun _ _ hc => .pure ?_
  refine List.rel_append (List.rel_append hp hc) ?_
  exact .cons ⟨rfl, C.atom trivial⟩ (.cons ⟨rfl, C.atom trivial⟩ (.cons ⟨rfl, C.atom trivial⟩ .nil))

/-- Fresh globals correspond wherever the supplies do. -/
theorem addGlobals_alike {w : World σ} {w' : World σ'} (h : C.Worlds w w') :
    C.frame w.addGlobals.1 w'.addGlobals.1 ∧ C.Worlds w.addGlobals.2 w'.addGlobals.2 := by
  obtain ⟨hbs, hnext⟩ := table_alike w.next w'.next h.supply
  exact ⟨h.store.next, h.store.addRoot hbs, hnext, h.host⟩

/-! ## Interpreters -/

variable (C) in
/-- Interpreters at the same point. -/
structure Twins (i : Interpreter σ) (i' : Interpreter σ') : Prop where
  bridges : C.Bridges i.bridge i'.bridge
  limits : i.machine.guard.limits = i'.machine.guard.limits
  clock : i.machine.guard.clock = i'.machine.guard.clock
  worlds : C.Worlds i.machine.world i'.machine.world
  global : C.frame i.global i'.global

namespace Twins

variable {i : Interpreter σ} {i' : Interpreter σ'} {v v' : Value} {name : String}

/-- Between evaluations only the limits and the clock of a guard count. -/
theorem guard_eq (h : C.Twins i i') : i.machine.guard.reset = i'.machine.guard.reset := by
  simp only [Guard.reset, h.limits, h.clock]

/-- Both evaluations of a text start with an empty journal. -/
theorem eval (h : C.Twins i i') (text : String) :
    C.broken (i'.eval text).2.machine.world.host ∨
      C.Results C.value (i.eval text).1 (i'.eval text).1 ∧
      C.Twins (i.eval text).2 (i'.eval text).2 ∧
      List.Forall₂ (Event.Kin C.value C.frame) (i.eval text).2.machine.world.journal
        (i'.eval text).2.machine.world.journal := by
  refine (evalText_alike h.bridges text h.global h.guard_eq h.worlds).imp id fun hends => ?_
  obtain ⟨es, es', hes, hes', hevents⟩ := hends.passage.events
  refine ⟨hends.result, ⟨h.bridges, congrArg Guard.limits hends.guard,
    congrArg Guard.clock hends.guard, hends.passage.worlds, h.global⟩, ?_⟩
  have hjournal : (i.eval text).2.machine.world.journal = es := hes.trans (List.append_nil es)
  have hjournal' : (i'.eval text).2.machine.world.journal = es' := hes'.trans (List.append_nil es')
  rwa [hjournal, hjournal']

theorem define (h : C.Twins i i') (name : String) (hv : C.value v v') :
    C.Twins (i.define name v) (i'.define name v') :=
  { h with worlds := ⟨h.worlds.store.define h.global name hv, h.worlds.supply, h.worlds.host⟩ }

theorem get (h : C.Twins i i') (name : String) :
    C.Results C.value (i.get name) (i'.get name) := by
  have hget := h.worlds.store.get?_alike h.global name
  unfold Interpreter.get World.lookup
  generalize i.machine.world.store.get? i.global name = v at hget ⊢
  generalize i'.machine.world.store.get? i'.global name = v' at hget ⊢
  cases hget with
  | none => exact .error (.undefinedVariable name)
  | some hv => exact .ok hv

theorem assign (h : C.Twins i i') (name : String) (hv : C.value v v') :
    C.Results Eq (i.assign name v).1 (i'.assign name v').1 ∧
      C.Twins (i.assign name v).2 (i'.assign name v').2 := by
  have hassign : C.Results Eq (i.machine.world.assign i.global name v).1
      (i'.machine.world.assign i'.global name v').1 ∧
      C.Worlds (i.machine.world.assign i.global name v).2
        (i'.machine.world.assign i'.global name v').2 := by
    unfold World.assign
    rw [h.worlds.store.contains_eq h.global name]
    split
    · exact ⟨.ok rfl, h.worlds.store.set h.global name hv, h.worlds.supply, h.worlds.host⟩
    · exact ⟨.error (.undefinedVariable name), h.worlds⟩
  exact ⟨hassign.1, { h with worlds := hassign.2 }⟩

theorem contains_eq (h : C.Twins i i') (name : String) : i.contains name = i'.contains name :=
  h.worlds.store.contains_eq h.global name

theorem names_eq (h : C.Twins i i') : i.names = i'.names := h.worlds.store.names_eq h.global

theorem clear (h : C.Twins i i') : C.Twins i.clear i'.clear :=
  { h with worlds := ⟨h.worlds.store.clear h.global, h.worlds.supply, h.worlds.host⟩ }

theorem reset (h : C.Twins i i') : C.Twins i.reset i'.reset := by
  obtain ⟨hglobal, hworlds⟩ := addGlobals_alike h.clear.worlds
  exact ⟨h.bridges, h.limits, h.clock, hworlds, hglobal⟩

end Twins

end Correspondence

end GuardedLisp
