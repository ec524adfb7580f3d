import GuardedLisp.Proofs.Rules
import GuardedLisp.Proofs.Visit

/-!
# Scenes of worlds

The rules of the language speak of scenes, evaluation runs on worlds. A world is
a scene with a journal, and an action on a world is the action of the rule on
its scene. A step of an expression is read off the kind of the expression.
-/

namespace GuardedLisp

open EvalM

variable {σ α : Type}

/-! ## The scene of a world -/

def Event.hostCall? : Event → Option (HostTarget × List Value)
  | .callHost target args => some (target, args)
  | _ => none

/-- The journal counts only for the calls into the host. -/
def World.scene (w : World σ) : Scene σ :=
  ⟨w.store, w.next, w.host, w.journal.reverse.filterMap Event.hostCall?⟩

/-- A world with this scene. -/
def Scene.world (s : Scene σ) : World σ :=
  ⟨s.store, s.next, s.host, (s.calls.map fun call => .callHost call.1 call.2).reverse⟩

theorem Scene.scene_world (s : Scene σ) : s.world.scene = s := by
  have hcalls (calls : List (HostTarget × List Value)) :
      (calls.map fun call => Event.callHost call.1 call.2).filterMap Event.hostCall? = calls := by
    induction calls with
    | nil => rfl
    | cons call calls ih => rw [List.map_cons, List.filterMap_cons, ih]; rfl
  simp only [World.scene, Scene.world, List.reverse_reverse, hcalls]

theorem World.scene_record {w : World σ} {e : Event} (h : e.hostCall? = none) :
    (w.record e).scene = w.scene := by
  simp [World.scene, World.record, h]

theorem Machine.scene_enter (m : Machine σ) (code : Value) (frame : Nat) :
    (m.enter code frame).world.scene = m.world.scene :=
  (World.scene_record rfl).trans (World.scene_record rfl)

theorem Machine.scene_leave (m : Machine σ) : m.leave.world.scene = m.world.scene :=
  World.scene_record rfl

section scene

variable {w : World σ} {s : Scene σ} {frame : Nat} {name : String} {old : Value}

theorem World.lookup_of_bound {v : Value} (hw : w.scene = s)
    (h : s.store.get? frame name = some v) :
    w.lookup frame name = .ok v := by
  subst hw
  unfold World.lookup
  rw [show w.store.get? frame name = some v from h]

theorem World.lookup_of_unbound (hw : w.scene = s) (h : s.store.get? frame name = none) :
    w.lookup frame name = .error (.undefinedVariable name) := by
  subst hw
  unfold World.lookup
  rw [show w.store.get? frame name = none from h]

/-- A name is bound where it has a binder, and only there. -/
theorem Store.isSome_get? (s : Store) (frame : Nat) (name : String) :
    (s.get? frame name).isSome = s.contains frame name := by
  unfold Store.get? Store.contains
  cases h : s.binder? frame name with
  | none => rfl
  | some b => exact Store.own?_of_binder? h

theorem World.assign_of_bound (hw : w.scene = s) (h : s.store.get? frame name = some old)
    (v : Value) :
    (w.assign frame name v).1 = .ok () ∧
      (w.assign frame name v).2.scene = s.set frame name v := by
  subst hw
  have hc : w.store.contains frame name = true := by
    rw [← Store.isSome_get?, show w.store.get? frame name = some old from h]; rfl
  unfold World.assign
  rw [if_pos hc]
  refine ⟨rfl, ?_⟩
  simp [World.scene, Scene.set, Event.hostCall?]

theorem World.assign_of_unbound (hw : w.scene = s) (h : s.store.get? frame name = none)
    (v : Value) :
    (w.assign frame name v).1 = .error (.undefinedVariable name) ∧
      (w.assign frame name v).2.scene = s := by
  subst hw
  have hc : ¬ w.store.contains frame name = true := by
    rw [← Store.isSome_get?, show w.store.get? frame name = none from h]; simp
  unfold World.assign
  rw [if_neg hc]
  exact ⟨rfl, rfl⟩

theorem World.scene_extend (hw : w.scene = s) (parent : Nat) (bindings : List (String × Value)) :
    (w.extend parent bindings).2.scene = s.extend parent bindings := by
  subst hw
  simp [World.scene, World.extend, Scene.extend, Event.hostCall?]

theorem World.scene_define (hw : w.scene = s) (frame : Nat) (name : String) (v : Value) :
    (w.define frame name v).scene = s.define frame name v := by
  subst hw
  simp [World.scene, World.define, Scene.define, Event.hostCall?]

theorem World.scene_alloc {x : AllocM (Except EvalError α)} {r : Except EvalError α} {next : Nat}
    (hw : w.scene = s) (h : x.run s.next = (r, next)) :
    (w.alloc x).1 = r ∧ (w.alloc x).2.scene = { s with next } := by
  subst hw
  have h : x.run w.next = (r, next) := h
  simp [World.alloc, h, World.scene]

theorem World.scene_callHost {bridge : Bridge σ} {addr next : Nat} {call : BridgeCall}
    {args rest : List Value} {target : HostTarget} {f : HostFunction σ} {reply : HostReply}
    {host : σ} (hw : w.scene = s) (h : call.target args = .ok (target, rest))
    (hf : bridge.resolve target = .ok f)
    (hreply : ((f rest).run s.host).run s.next = ((reply, host), next)) :
    (w.applyBridge bridge addr call args).1 = (Bridge.outcome target reply).mapError .bridge ∧
      (w.applyBridge bridge addr call args).2.scene =
        { s with next, host, calls := s.calls ++ [(target, rest)] } := by
  subst hw
  have hreply : ((f rest).run w.host).run w.next = ((reply, host), next) := hreply
  rw [applyBridge_of_resolve_ok h hf, hreply]
  refine ⟨rfl, ?_⟩
  simp only [World.scene, List.reverse_cons, List.append_assoc, List.filterMap_append]
  rfl

end scene

/-! ## Steps of expressions -/

theorem Value.code_of_isConstant {v : Value} (h : v.IsConstant) : v.code = .constant v := by
  match v, h with
  | .nil, _ | .bool _, _ | .number _, _ | .string _, _ | .builtin .., _ | .closure .., _
  | .bridge .., _ => rfl
  | .list _ _ [], _ => rfl

theorem Value.code_of_isReserved (addr depth : Nat) (form : Keyword) (operands : List Value) :
    (Value.list addr depth (.symbol form.name :: operands)).code = .special form operands := by
  simp only [Value.code, Keyword.ofName?_name]

theorem Value.code_of_not_isReserved {head : Value} (h : ¬ head.IsReserved) (addr depth : Nat)
    (operands : List Value) :
    (Value.list addr depth (head :: operands)).code = .application head operands := by
  cases head with
  | symbol name =>
    cases hn : Keyword.ofName? name with
    | none => simp only [Value.code, hn]
    | some form => exact absurd ⟨form, by rw [Keyword.name_of_ofName? hn]⟩ h
  | _ => rfl

/-- The kinds of expressions. -/
theorem Value.code_cases (v : Value) :
    v.IsConstant ∨ (∃ name, v = .symbol name) ∨
      (∃ addr depth, ∃ (form : Keyword) (operands : _),
        v = .list addr depth (.symbol form.name :: operands)) ∨
      ∃ addr depth head operands, ¬ head.IsReserved ∧ v = .list addr depth (head :: operands) := by
  match v with
  | .symbol name => exact .inr (.inl ⟨name, rfl⟩)
  | .list addr depth (head :: operands) =>
    by_cases h : head.IsReserved
    · obtain ⟨form, rfl⟩ := h
      exact .inr (.inr (.inl ⟨addr, depth, form, operands, rfl⟩))
    · exact .inr (.inr (.inr ⟨addr, depth, head, operands, h, rfl⟩))
  | .nil | .bool _ | .number _ | .string _ | .list _ _ [] => exact .inl trivial
  | .builtin .. | .closure .. | .bridge .. => exact .inl trivial

section evalStep

variable {bridge : Bridge σ} {visit : Visit σ} {frame : Nat}

theorem evalStep_of_isConstant {v : Value} (h : v.IsConstant) :
    evalStep bridge visit v frame = pure v := by
  unfold evalStep; rw [Value.code_of_isConstant h]

theorem evalStep_of_faulty {form : Keyword} {operands : List Value} {fault : SyntaxFault}
    (h : SpecialForm.Faulty form operands fault) (addr depth : Nat) :
    evalStep bridge visit (.list addr depth (.symbol form.name :: operands)) frame =
      throw (.malformed fault) := by
  unfold evalStep; simp only [Value.code_of_isReserved, h.check_eq]; rfl

theorem evalStep_of_spells {form : Keyword} {operands : List Value} {f : SpecialForm}
    (h : SpecialForm.Spells form operands f) (addr depth : Nat) :
    evalStep bridge visit (.list addr depth (.symbol form.name :: operands)) frame =
      f.run visit frame := by
  unfold evalStep; simp only [Value.code_of_isReserved, h.check_eq]; rfl

theorem evalStep_of_not_isReserved {head : Value} (h : ¬ head.IsReserved) (addr depth : Nat)
    (operands : List Value) :
    evalStep bridge visit (.list addr depth (head :: operands)) frame = (do
      let callee ← visit head frame
      let args ← visit.each frame operands
      applyWith bridge visit callee args) := by
  unfold evalStep; rw [Value.code_of_not_isReserved h]

end evalStep

end GuardedLisp
