import GuardedLisp.Proofs.Positions
import GuardedLisp.Proofs.Scenes
import GuardedLisp.Proofs.Scopes.Operations

/-!
# Disciplines

What an evaluation may know grows while it runs: there are more frames, more
identities have been given out, and the host may have supplied more. A
`Discipline` says what is kept along the way. It has stages of knowledge, and says
of each which values may be at hand there, which expressions may be run, in which
frames, and what else holds of the world. A stage comes after another one where
more is allowed.

The fields are what a program can do with values and with the world, each once. So
a computation that begins in a world of some stage leads to one of a later stage,
whatever comes of it, and its result is a value of that stage (`Discipline.Keeps`).
-/

namespace GuardedLisp

open EvalM

variable {σ α β : Type}

namespace Store

/-- Every value that a frame binds has the property. -/
def Holds (P : Value → Prop) (s : Store) : Prop := ∀ f name v, s.own? f name = some v → P v

namespace Holds

variable {P Q : Value → Prop} {s : Store} {name : String} {v : Value}
  {bindings : List (String × Value)}

theorem imp (h : s.Holds P) (hPQ : ∀ v, P v → Q v) : s.Holds Q :=
  fun f name v hv => hPQ v (h f name v hv)

theorem get? (h : s.Holds P) {f : Nat} (hv : s.get? f name = some v) : P v := by
  obtain ⟨b, -, hv⟩ := Option.bind_eq_some_iff.1 hv
  exact h b name v hv

theorem ofLastBinding? (hb : ∀ b ∈ bindings, P b.2) (hv : lastBinding? name bindings = some v) :
    P v := by
  obtain ⟨b, hfound, rfl⟩ := Option.map_eq_some_iff.1 hv
  exact hb b (List.mem_reverse.1 (List.mem_of_find?_eq_some hfound))

theorem addRoot (h : s.Holds P) (hb : ∀ b ∈ bindings, P b.2) : (s.addRoot bindings).Holds P := by
  intro f name v hv
  rw [own?_addRoot] at hv
  split at hv
  · exact ofLastBinding? hb hv
  · exact h f name v hv

theorem extend (h : s.Holds P) (hb : ∀ b ∈ bindings, P b.2) (parent : Nat) :
    (s.extend parent bindings).Holds P := by
  intro f name v hv
  rw [own?_extend] at hv
  split at hv
  · exact ofLastBinding? hb hv
  · exact h f name v hv

theorem define (h : s.Holds P) (hv : P v) (f : Nat) (name : String) :
    (s.define f name v).Holds P := by
  by_cases hf : f < s.nextFrame
  · intro g other u hu
    rw [own?_define s hf] at hu
    split at hu
    · cases hu; exact hv
    · exact h g other u hu
  · rwa [define_of_le (Nat.le_of_not_lt hf)]

theorem set (h : s.Holds P) (hv : P v) (f : Nat) (name : String) : (s.set f name v).Holds P := by
  unfold Store.set
  split
  · exact h.define hv _ name
  · exact h

theorem clear (h : s.Holds P) (f : Nat) : (s.clear f).Holds P := by
  intro g name v hv
  rw [own?_clear] at hv
  split at hv
  · cases hv
  · exact h g name v hv

end Holds

end Store

/-! ## What is kept -/

/-- Events that tell a discipline nothing. -/
def Event.IsIdle : Event → Prop
  | .enter | .leave | .apply .. => True
  | _ => False

/-- What a value consists of that takes the identity `n`, if its items satisfy `value`, its body
`code`, and its frame `frame`. -/
inductive Value.NewAt (n : Nat) (value code : Value → Prop) (frame : Nat → Prop) :
    Value → Prop where
  | list {items : List Value} (h : ∀ v ∈ items, value v) :
    NewAt n value code frame (.list n (Value.depthOver items) items)
  | closure (params : List String) {body : Value} {f : Nat} (hbody : code body) (hf : frame f) :
    NewAt n value code frame (.closure n params body f)
  | builtin (p : Primitive) : NewAt n value code frame (.builtin n p)
  | bridge (call : BridgeCall) : NewAt n value code frame (.bridge n call)

structure Discipline (σ : Type) where
  Stage : Type
  /-- The second stage comes after the first one, or is the same. -/
  After : Stage → Stage → Prop
  /-- May be at hand. -/
  value : Stage → Value → Prop
  /-- May be run. -/
  code : Stage → Value → Prop
  /-- May be run in. -/
  frame : Stage → Nat → Prop
  /-- Was visited in the frame. -/
  visited : Stage → Value → Nat → Prop
  /-- What else holds of the world, apart from the values that frames bind. -/
  rest : Stage → World σ → Prop
  refl (i : Stage) : After i i
  trans {i j k : Stage} (h : After i j) (h' : After j k) : After i k
  value_after {i j : Stage} (h : After i j) {v : Value} (hv : value i v) : value j v
  code_after {i j : Stage} (h : After i j) {c : Value} (hc : code i c) : code j c
  frame_after {i j : Stage} (h : After i j) {f : Nat} (hf : frame i f) : frame j f
  visited_after {i j : Stage} (h : After i j) {c : Value} {f : Nat} (hc : visited i c f) :
    visited j c f
  atom {i : Stage} {v : Value} (h : v.IsAtom) : value i v
  item {i : Stage} {addr depth : Nat} {items : List Value} (h : value i (.list addr depth items)) :
    ∀ v ∈ items, value i v
  body {i : Stage} {addr f : Nat} {params : List String} {body : Value}
    (h : value i (.closure addr params body f)) : code i body ∧ frame i f
  /-- Code is data. -/
  data {i : Stage} {c : Value} (h : code i c) : value i c
  subform {i : Stage} {c e : Value} (h : code i c) (he : c.Subform e) : code i e
  make {i : Stage} {w : World σ} {v : Value} (hw : rest i w)
    (hv : v.NewAt w.next (value i) (code i) (frame i)) :
    ∃ j, After i j ∧ rest j { w with next := w.next + 1 } ∧ value j v
  idle {i : Stage} {w : World σ} (hw : rest i w) {e : Event} (he : e.IsIdle) : rest i (w.record e)
  visit {i : Stage} {w : World σ} {c : Value} {f : Nat} (hw : rest i w) (hc : code i c)
    (hf : frame i f) : ∃ j, After i j ∧ rest j (w.record (.visit c f)) ∧ visited j c f
  extend {i : Stage} {w : World σ} {parent : Nat} {bindings : List (String × Value)}
    (hw : rest i w) (hparent : frame i parent) (hb : ∀ b ∈ bindings, value i b.2) :
    ∃ j, After i j ∧ rest j (w.extend parent bindings).2 ∧ frame j w.store.nextFrame
  /-- Only definitions bind names anew. -/
  define {i : Stage} {w : World σ} {c e v : Value} {f : Nat} {name : String} (hw : rest i w)
    (hf : frame i f) (hv : value i v) (hc : visited i c f) (hs : c.Says (.define name e)) :
    rest i (w.define f name v)
  assign {i : Stage} {w : World σ} {v : Value} {f : Nat} {name : String} (hw : rest i w)
    (hf : frame i f) (hv : value i v) (hbound : w.store.contains f name = true) :
    rest i (w.assign f name v).2

namespace Discipline

variable (D : Discipline σ)

/-- A world of the stage. -/
structure World (i : D.Stage) (w : GuardedLisp.World σ) : Prop where
  store : w.store.Holds (D.value i)
  rest : D.rest i w

/-- What a call of a host function leaves behind when it is given values of a stage. -/
def Serves (target : HostTarget) (f : HostFunction σ) : Prop :=
  ∀ i w args, D.rest i w → (∀ v ∈ args, D.value i v) →
    let run := ((f args).run w.host).run w.next
    ∃ j, D.After i j ∧
      D.rest j { w with
        next := run.2, host := run.1.2, journal := .callHost target args :: w.journal } ∧
      ∀ v, run.1.1 = .value v → D.value j v

/-- All that can be called serves. -/
def Bridges (bridge : Bridge σ) : Prop :=
  ∀ target f, bridge.resolve target = .ok f → D.Serves target f

/-- From a world of the stage to one of a later stage, with a result that `R` holds of there. -/
def Keeps (i : D.Stage) (x : EvalM σ α) (R : D.Stage → α → Prop) : Prop :=
  ∀ m, D.World i m.world →
    ∃ j, D.After i j ∧ D.World j (x m).2.world ∧ ∀ a, (x m).1 = .ok a → R j a

variable {D} {i : D.Stage}

theorem World.after {j : D.Stage} {w w' : GuardedLisp.World σ} (h : D.World i w)
    (hij : D.After i j) (hstore : w'.store = w.store) (hrest : D.rest j w') : D.World j w' :=
  ⟨hstore ▸ h.store.imp fun _ => D.value_after hij, hrest⟩

namespace Keeps

variable {x : EvalM σ α} {R : D.Stage → α → Prop} {S : D.Stage → β → Prop} {a : α}

theorem act {f : GuardedLisp.World σ → Except EvalError α × GuardedLisp.World σ}
    (h : ∀ w, D.World i w →
      ∃ j, D.After i j ∧ D.World j (f w).2 ∧ ∀ a, (f w).1 = .ok a → R j a) :
    D.Keeps i (tryOnWorld f) R := fun m hw => h m.world hw

/-- Nothing but a look at the world. -/
theorem ofResult {r : GuardedLisp.World σ → Except EvalError α}
    (h : ∀ w, D.World i w → ∀ a, r w = .ok a → R i a) :
    D.Keeps i (tryOnWorld fun w => (r w, w)) R :=
  act fun w hw => ⟨i, D.refl i, hw, h w hw⟩

theorem pure (h : R i a) : D.Keeps i (pure a) R :=
  ofResult (r := fun _ => .ok a) fun _ _ _ ha => by cases ha; exact h

theorem throw (e : EvalError) : D.Keeps i (throw e) R :=
  ofResult (r := fun _ => .error e) fun _ _ _ ha => by cases ha

theorem bind {f : α → EvalM σ β} (hx : D.Keeps i x R)
    (hf : ∀ j, D.After i j → ∀ a, R j a → D.Keeps j (f a) S) : D.Keeps i (x >>= f) S := by
  intro m hw
  obtain ⟨j, hij, hw', hresult⟩ := hx m hw
  refine bind_cases (P := fun p => ∃ k, D.After i k ∧ D.World k p.2.world ∧
    ∀ b, p.1 = .ok b → S k b) (fun e m' he => ?_) (fun a m' ha => ?_)
  · rw [he] at hw'
    exact ⟨j, hij, hw', fun _ h => by cases h⟩
  · rw [ha] at hw' hresult
    obtain ⟨k, hjk, hk⟩ := hf j hij a (hresult a rfl) m' hw'
    exact ⟨k, D.trans hij hjk, hk⟩

theorem note {e : Event} (he : e.IsIdle) : D.Keeps i (EvalM.note e) fun _ _ => True :=
  act (f := fun w => (.ok (), w.record e)) fun _ hw =>
    ⟨i, D.refl i, ⟨hw.store, D.idle hw.rest he⟩, fun _ _ => trivial⟩

end Keeps

end Discipline

end GuardedLisp
