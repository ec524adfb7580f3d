import GuardedLisp.Proofs.Joined.Renaming
import GuardedLisp.Proofs.Reset

/-!
# `let` as an application

`(let ((x e) ...) body)` and `((lambda (x ...) body) e ...)` evaluate the same
expressions in the same frame, and then the body in a new frame inside it that binds
the same names; the last binding of a name counts in both (`EndsInBody`). The
application evaluates its head first. That takes an operation, and the closure takes
an identity, so later identities are moved by one (`let_as_application`).

Side by side, the two have the visit of the head and the note of the call too much for
evaluations in lockstep, so they are compared by their host calls only (`InAccord`). And
their guards differ by an operation; but a guard decides nothing but whether to refuse,
so what neither guard refuses is the same under both (`Coincide`).
-/

namespace GuardedLisp

open EvalM
open Correspondence (upTo)

variable {σ τ α β γ δ : Type}

/-! ## Under two guards -/

/-- Run in one world under two guards that do not refuse them, the two do the same. -/
def Coincide (x y : EvalM σ α) : Prop :=
  ∀ g g' w, ¬ Refused (x ⟨g, w⟩).1 → ¬ Refused (y ⟨g', w⟩).1 →
    (x ⟨g, w⟩).1 = (y ⟨g', w⟩).1 ∧ (x ⟨g, w⟩).2.world = (y ⟨g', w⟩).2.world

/-- A refusal ends a sequence. -/
theorem not_refused_of_bind {x : EvalM σ α} {f : α → EvalM σ β} {m : Machine σ}
    (h : ¬ Refused ((x >>= f) m).1) : ¬ Refused (x m).1 := by
  rcases hx : x m with ⟨r, m'⟩
  cases r with
  | error e => rw [bind_error hx] at h; exact fun hr => h hr.error
  | ok a => exact not_refused_ok a

theorem Stepwise.coincide {bridge : Bridge σ} {visit visit' : Visit σ} {x y : EvalM σ α}
    (hvisit : ∀ code frame, Coincide (visit code frame) (visit' code frame))
    (h : Stepwise bridge visit visit' x y) : Coincide x y := by
  induction h with
  | quiet | call => exact fun _ _ _ _ _ => ⟨rfl, rfl⟩
  | visit code frame => exact hvisit code frame
  | @bind _ _ x y f f' _ _ ihx ihf =>
    intro g g' w hx hy
    obtain ⟨hresult, hworld⟩ := ihx g g' w (not_refused_of_bind hx) (not_refused_of_bind hy)
    rcases hxm : x ⟨g, w⟩ with ⟨r, ⟨g₁, w₁⟩⟩
    rcases hym : y ⟨g', w⟩ with ⟨r', ⟨g₁', w₁'⟩⟩
    rw [hxm, hym] at hresult hworld
    cases hresult
    cases hworld
    cases r with
    | error e => rw [bind_error hxm, bind_error hym]; exact ⟨rfl, rfl⟩
    | ok a =>
      rw [bind_ok hxm] at hx ⊢
      rw [bind_ok hym] at hy ⊢
      exact ihf a g₁ g₁' w₁ hx hy

theorem guarded_coincide {step step' : EvalM σ Value} (h : Coincide step step') (code : Value)
    (frame : Nat) : Coincide (guarded code frame step) (guarded code frame step') := by
  intro g g' w hx hy
  cases hr : g.refusal? with
  | some why => rw [guarded_of_refusal (m := ⟨g, w⟩) hr] at hx; exact absurd ⟨why, rfl⟩ hx
  | none =>
    cases hr' : g'.refusal? with
    | some why => rw [guarded_of_refusal (m := ⟨g', w⟩) hr'] at hy; exact absurd ⟨why, rfl⟩ hy
    | none =>
      rw [guarded_of_admission (m := ⟨g, w⟩) hr] at hx ⊢
      rw [guarded_of_admission (m := ⟨g', w⟩) hr'] at hy ⊢
      obtain ⟨hresult, hworld⟩ := h _ _ _ hx hy
      exact ⟨hresult, congrArg (·.record .leave) hworld⟩

theorem refused_evalWithin_zero (bridge : Bridge σ) (code : Value) (frame : Nat) (m : Machine σ) :
    Refused (evalWithin bridge 0 code frame m).1 := by
  change Refused (guarded code frame (throw (.refused .depth)) m).1
  cases hr : m.guard.refusal? with
  | some why => rw [guarded_of_refusal hr]; exact ⟨why, rfl⟩
  | none => rw [guarded_of_admission hr]; exact ⟨.depth, rfl⟩

theorem evalWithin_coincide (bridge : Bridge σ) (room room' : Nat) (code : Value) (frame : Nat) :
    Coincide (evalWithin bridge room code frame) (evalWithin bridge room' code frame) := by
  induction room generalizing room' code frame with
  | zero => exact fun _ _ _ hx => absurd (refused_evalWithin_zero bridge code frame _) hx
  | succ room ih =>
    cases room' with
    | zero => exact fun _ _ _ _ hy => absurd (refused_evalWithin_zero bridge code frame _) hy
    | succ room' =>
      exact guarded_coincide ((evalStep_stepwise bridge _ _ code frame).coincide (ih room')) code
        frame

/-- **A guard decides nothing but whether to refuse.** -/
theorem eval_coincide (bridge : Bridge σ) (code : Value) (frame : Nat) :
    Coincide (eval bridge code frame) (eval bridge code frame) :=
  fun g g' w => evalWithin_coincide bridge g.room g'.room code frame g g' w

/-- One computation under two guards that do not refuse it takes as many operations. -/
theorem Stepwise.operations_eq {bridge : Bridge σ} {x : EvalM σ α}
    (h : Stepwise bridge (eval bridge) (eval bridge) x x) {g g' : Guard} {w : World σ}
    (hx : ¬ Refused (x ⟨g, w⟩).1) (hy : ¬ Refused (x ⟨g', w⟩).1) :
    (x ⟨g, w⟩).2.guard.operations + g'.operations =
      (x ⟨g', w⟩).2.guard.operations + g.operations := by
  obtain ⟨es, hes, hops⟩ := (h.balanced (eval_balanced bridge) ⟨g, w⟩).journal
  obtain ⟨es', hes', hops'⟩ := (h.balanced (eval_balanced bridge) ⟨g', w⟩).journal
  have hworld := (h.coincide (eval_coincide bridge) g g' w hx hy).2
  obtain rfl : es = es' := by
    refine List.append_cancel_right (hes.journal.symm.trans ?_)
    rw [hworld]
    exact hes'.journal
  rw [hops, hops']
  simp only
  omega

/-! ## In accord -/

theorem refused_of_alike {R : Value → Value → Prop} {S : α → β → Prop} {r : Except EvalError α}
    {r' : Except EvalError β} (h : ExceptKin (EvalError.Kin R) S r r') (hr' : Refused r') :
    Refused r := by
  obtain ⟨why, rfl⟩ := hr'
  cases h with
  | error he => cases he; exact ⟨why, rfl⟩

/-- The calls into the host among the events, oldest first. -/
def hostCalls (es : List Event) : List (HostTarget × List Value) :=
  es.reverse.filterMap Event.hostCall?

theorem hostCalls_append (es es' : List Event) :
    hostCalls (es' ++ es) = hostCalls es ++ hostCalls es' := by
  simp [hostCalls]

/-- Around a visit. -/
theorem hostCalls_visit {before : List Event} (h : hostCalls before = []) (es : List Event) :
    hostCalls (.leave :: (es ++ before)) = hostCalls es := by
  rw [← List.singleton_append, hostCalls_append, hostCalls_append, h, List.nil_append]
  exact List.append_nil _

/-- Two runs end alike, and call the host alike on the way. -/
structure Accords (k : Keeping σ τ) (ρ : Renaming) (R : α → β → Prop) (m m' : Machine σ)
    (p : Except EvalError α × Machine σ) (p' : Except EvalError β × Machine σ) : Prop where
  result : ExceptKin (EvalError.Kin (Value.Alike ρ)) R p.1 p'.1
  guard : p.2.guard = p'.2.guard
  worlds : (upTo k ρ).Worlds p.2.world p'.2.world
  calls : ∃ es es', p.2.world.journal = es ++ m.world.journal ∧
    p'.2.world.journal = es' ++ m'.world.journal ∧
    List.Forall₂ (CallAlike ρ) (hostCalls es) (hostCalls es')

/-- Under one guard, in worlds that are alike, the two end alike. -/
def InAccord (k : Keeping σ τ) (ρ : Renaming) (R : α → β → Prop) (x : EvalM σ α)
    (x' : EvalM σ β) : Prop :=
  ∀ m m', m.guard = m'.guard → (upTo k ρ).Worlds m.world m'.world →
    Accords k ρ R m m' (x m) (x' m')

namespace InAccord

variable {k : Keeping σ τ} {ρ : Renaming} {R : α → β → Prop} {S : γ → δ → Prop} {x : EvalM σ α}
  {x' : EvalM σ β}

theorem ofLockstep (h : (upTo k ρ).Lockstep R x x') : InAccord k ρ R x x' := by
  intro m m' hg hw
  obtain ⟨hresult, hguard, hworlds, ⟨es, es', hes, hes', hevents⟩, -⟩ :=
    (h m m' hg hw).resolve_left id
  exact ⟨hresult, hguard, hworlds, es, es', hes, hes', calls_alike hevents⟩

theorem bind {f : α → EvalM σ γ} {f' : β → EvalM σ δ} (hx : InAccord k ρ R x x')
    (hf : ∀ a b, R a b → InAccord k ρ S (f a) (f' b)) : InAccord k ρ S (x >>= f) (x' >>= f') := by
  intro m m' hg hw
  obtain ⟨hresult, hguard, hworlds, es, es', hes, hes', hcalls⟩ := hx m m' hg hw
  rcases hxm : x m with ⟨r, m₁⟩
  rcases hxm' : x' m' with ⟨r', m₁'⟩
  rw [hxm, hxm'] at hresult hguard hworlds
  rw [hxm] at hes
  rw [hxm'] at hes'
  cases hresult with
  | error he =>
    rw [bind_error hxm, bind_error hxm']
    exact ⟨.error he, hguard, hworlds, es, es', hes, hes', hcalls⟩
  | @ok a b hab =>
    rw [bind_ok hxm, bind_ok hxm']
    obtain ⟨hresult, hguard, hworlds, fs, fs', hfs, hfs', hcalls'⟩ :=
      hf a b hab m₁ m₁' hguard hworlds
    refine ⟨hresult, hguard, hworlds, fs ++ es, fs' ++ es', ?_, ?_, ?_⟩
    · rw [hfs, hes, List.append_assoc]
    · rw [hfs', hes', List.append_assoc]
    · rw [hostCalls_append, hostCalls_append]
      exact List.rel_append hcalls hcalls'

/-- What the second one ends with, wherever it begins. -/
theorem restrict (h : InAccord k ρ R x x') {P : β → Prop}
    (hP : ∀ m b, (x' m).1 = .ok b → P b) : InAccord k ρ (fun a b => R a b ∧ P b) x x' := by
  intro m m' hg hw
  have haccords := h m m' hg hw
  have hresult := haccords.result
  refine { haccords with result := ?_ }
  have hP' := hP m'
  generalize (x m).1 = r at hresult ⊢
  generalize (x' m').1 = r' at hresult hP' ⊢
  cases hresult with
  | ok hab => exact .ok ⟨hab, hP' _ rfl⟩
  | error he => exact .error he

/-- The second one notes a call of a procedure first. -/
theorem note_right (h : InAccord k ρ R x x') (callee : Value) (args : List Value) :
    InAccord k ρ R x (EvalM.note (.apply callee args) >>= fun _ => x') := by
  intro m m' hg hw
  have hrun : (EvalM.note (.apply callee args) >>= fun _ => x') m' =
      x' ⟨m'.guard, m'.world.record (.apply callee args)⟩ := bind_ok rfl
  rw [hrun]
  obtain ⟨hresult, hguard, hworlds, es, es', hes, hes', hcalls⟩ :=
    h m ⟨m'.guard, m'.world.record (.apply callee args)⟩ hg ⟨hw.store, hw.supply, hw.host⟩
  refine ⟨hresult, hguard, hworlds, es, es' ++ [.apply callee args], hes, ?_, ?_⟩
  · rw [hes']
    simp [World.record]
  · rw [hostCalls_append]
    exact hcalls

end InAccord

theorem length_of_each {visit : Visit σ} {frame : Nat} {es vs : List Value} {m : Machine σ}
    (h : (visit.each frame es m).1 = .ok vs) : vs.length = es.length := by
  induction es generalizing m vs with
  | nil => cases h; rfl
  | cons e es ih =>
    rcases hv : visit e frame m with ⟨r, m₁⟩
    cases r with
    | error err =>
      have hrun : visit.each frame (e :: es) m = (.error err, m₁) := bind_error hv
      rw [hrun] at h
      cases h
    | ok v =>
      have hrun : visit.each frame (e :: es) m =
          (visit.each frame es >>= fun vs => Pure.pure (v :: vs)) m₁ := bind_ok hv
      rw [hrun] at h
      rcases hvs : visit.each frame es m₁ with ⟨r, m₂⟩
      cases r with
      | error err => rw [bind_error hvs] at h; cases h
      | ok vs' =>
        rw [bind_ok hvs] at h
        cases h
        rw [List.length_cons, List.length_cons, ih (congrArg Prod.fst hvs)]

/-! ## A form and a call -/

/-- Evaluates operands and calls a closure with their values. -/
def callWith (bridge : Bridge σ) (closure : Value) (frame : Nat) (operands : List Value) :
    EvalM σ Value := do
  let args ← Visit.each (eval bridge) frame operands
  applyWith bridge (eval bridge) closure args

theorem callWith_stepwise (bridge : Bridge σ) (closure : Value) (frame : Nat)
    (operands : List Value) : Stepwise bridge (eval bridge) (eval bridge)
      (callWith bridge closure frame operands) (callWith bridge closure frame operands) :=
  .bind (.each frame operands) fun args => .apply closure args

/-- `let` is in accord with the call of a closure over the same frame, with the same parameters and
the same body. -/
theorem bind_inAccord {k : Keeping σ τ} {ρ : Renaming} {bridge : Bridge σ}
    (huniform : bridge.Offers (HostFunction.Uniform k)) {frame frame' : Nat}
    (hf : ρ.frame frame frame') {bindings bindings' : List (String × Value)}
    (hb : List.Forall₂ (BindingKin (Value.Alike ρ)) bindings bindings') {body body' : Value}
    (hbody : body.Alike ρ body') (addr : Nat) :
    InAccord k ρ (Value.Alike ρ) ((SpecialForm.bind bindings body).run (eval bridge) frame)
      (callWith bridge (.closure addr (bindings'.map Prod.fst) body' frame') frame'
        (bindings'.map Prod.snd)) := by
  have hvisits := Correspondence.eval_alike (Correspondence.bridges_of_uniform huniform ρ)
  have heach : InAccord k ρ _ (Visit.each (eval bridge) frame (bindings.map Prod.snd))
      (Visit.each (eval bridge) frame' (bindings'.map Prod.snd)) :=
    (InAccord.ofLockstep (hvisits.each hf (BindingKin.values hb))).restrict
      fun _ _ h => length_of_each h
  refine heach.bind fun vs vs' ⟨hvs, hlength⟩ => ?_
  have hn : (bindings'.map Prod.fst).length = vs'.length := by
    rw [hlength, List.length_map, List.length_map]
  simp only [applyWith, hn, if_true]
  rw [BindingKin.names_eq hb]
  exact (InAccord.ofLockstep (hvisits.inFrame hf (BindingKin.zip hvs) hbody)).note_right _ _

section forms

variable {bridge : Bridge σ} {code callee body : Value} {bindings : List (String × Value)}
  {params : List String} {frame : Nat} {m m₁ : Machine σ}

/-- The machine in which the operands of a call are evaluated whose head is a `lambda`. -/
def Machine.enterCall (m : Machine σ) (callee call : Value) (frame : Nat) : Machine σ :=
  ⟨{ m.guard with operations := m.guard.operations + 2, depth := m.guard.depth + 1 },
    { m.world with
      next := m.world.next + 1
      journal := .leave :: .enter :: .visit callee frame ::
        .enter :: .visit call frame :: m.world.journal }⟩

theorem admitted_of_not_refused (h : ¬ Refused (eval bridge code frame m).1) :
    m.guard.refusal? = none := by
  cases hr : m.guard.refusal? with
  | none => rfl
  | some why =>
    rw [eval_eq, guarded_of_refusal hr] at h
    exact absurd ⟨why, rfl⟩ h

theorem Value.Says.evalStep_eq {f : SpecialForm} (h : code.Says f) (visit : Visit σ) :
    evalStep bridge visit code frame = f.run visit frame := by
  obtain ⟨addr, depth, h⟩ := h
  exact evalStep_of_spells h addr depth

theorem Value.Says.not_isReserved {f : SpecialForm} (h : code.Says f) : ¬ code.IsReserved := by
  obtain ⟨addr, depth, h⟩ := h
  rintro ⟨form, hform⟩
  cases hform

theorem eval_special {f : SpecialForm} (h : code.Says f) (hm : m.guard.refusal? = none) :
    eval bridge code frame m = ((f.run (eval bridge) frame (m.enter code frame)).1,
      (f.run (eval bridge) frame (m.enter code frame)).2.leave) := by
  rw [eval_eq, guarded_of_admission hm, h.evalStep_eq]

section call

variable {addr depth : Nat} {operands : List Value}

/-- The head of a call that is a `lambda` makes its closure. -/
theorem eval_head (hcallee : callee.Says (.lambda params body)) (hm : ¬ Refused (eval bridge
      (.list addr depth (callee :: operands)) frame m).1) :
    let call := .list addr depth (callee :: operands)
    eval bridge callee frame (m.enter call frame) =
      (.ok (.closure m.world.next params body frame), m.enterCall callee call frame) := by
  intro call
  have hadmitted := admitted_of_not_refused hm
  rw [eval_eq, guarded_of_admission hadmitted,
    evalStep_of_not_isReserved hcallee.not_isReserved] at hm
  rw [eval_special hcallee (admitted_of_not_refused (not_refused_of_bind hm))]
  rfl

theorem eval_call (hcallee : callee.Says (.lambda params body)) (hm : ¬ Refused (eval bridge
      (.list addr depth (callee :: operands)) frame m).1) :
    let call := .list addr depth (callee :: operands)
    let run := callWith bridge (.closure m.world.next params body frame) frame operands
    eval bridge call frame m = ((run (m.enterCall callee call frame)).1,
      (run (m.enterCall callee call frame)).2.leave) := by
  intro call run
  have hstep : evalStep bridge (eval bridge) call frame (m.enter call frame) =
      run (m.enterCall callee call frame) := by
    rw [evalStep_of_not_isReserved hcallee.not_isReserved]
    exact bind_ok (eval_head hcallee hm)
  rw [eval_eq, guarded_of_admission (admitted_of_not_refused hm), hstep]

end call

/-- The visit ends as the body does that is evaluated in a new frame inside `parent`, where each name
has the value of its last binding. -/
def EndsInBody (bridge : Bridge σ) (body : Value) (parent : Nat) (bindings : List (String × Value))
    (m : Machine σ) (p : Except EvalError Value × Machine σ) : Prop :=
  ∃ w, w.store = m.world.store.extend parent bindings ∧
    (∀ name, w.store.own? m.world.store.nextFrame name = lastBinding? name bindings) ∧
    w.store.link? m.world.store.nextFrame = some parent ∧
    let q := eval bridge body m.world.store.nextFrame ⟨m.guard, w⟩
    p = (q.1, q.2.leave)

/-- The world in which the frame is made may have any journal. -/
theorem endsInBody_of_inFrame {parent : Nat} {w : World σ}
    {p : Except EvalError Value × Machine σ} (hw : w.store = m.world.store)
    (hp : p = Visit.inFrame (eval bridge) parent bindings body ⟨m.guard, w⟩) :
    EndsInBody bridge body parent bindings m (p.1, p.2.leave) := by
  have hrun : p = eval bridge body m.world.store.nextFrame ⟨m.guard, (w.extend parent bindings).2⟩ :=
    by rw [hp, ← hw]; exact bind_ok rfl
  have hstore : (w.extend parent bindings).2.store = m.world.store.extend parent bindings :=
    congrArg (·.extend parent bindings) hw
  refine ⟨(w.extend parent bindings).2, hstore, fun name => ?_, ?_, by rw [hrun]⟩
  · rw [hstore, Store.own?_extend, if_pos rfl]
  · rw [hstore, Store.extend, Store.link?_add, if_pos rfl]
    rfl

theorem bind_endsInBody {vs : List Value} {p : Except EvalError Value × Machine σ}
    (h : Visit.each (eval bridge) frame (bindings.map Prod.snd) m = (.ok vs, m₁))
    (hp : p = (SpecialForm.bind bindings body).run (eval bridge) frame m) :
    EndsInBody bridge body frame ((bindings.map Prod.fst).zip vs) m₁ (p.1, p.2.leave) :=
  endsInBody_of_inFrame rfl (hp.trans (bind_ok h))

theorem callWith_endsInBody {vs : List Value} {p : Except EvalError Value × Machine σ} {addr : Nat}
    (h : Visit.each (eval bridge) frame (bindings.map Prod.snd) m = (.ok vs, m₁))
    (hp : p = callWith bridge (.closure addr (bindings.map Prod.fst) body frame) frame
      (bindings.map Prod.snd) m) :
    EndsInBody bridge body frame ((bindings.map Prod.fst).zip vs) m₁ (p.1, p.2.leave) := by
  have hn : (bindings.map Prod.fst).length = vs.length := by
    rw [length_of_each (congrArg Prod.fst h), List.length_map, List.length_map]
  let closure : Value := .closure addr (bindings.map Prod.fst) body frame
  refine endsInBody_of_inFrame (w := m₁.world.record (.apply closure vs)) rfl ?_
  rw [hp]
  refine (bind_ok h).trans ?_
  simp only [applyWith, hn, if_true]
  exact bind_ok rfl

end forms

/-! ## The whole -/

/-- **`let` is an immediately applied `lambda`.** In any frame of any store evaluate
`(let ((x e) ...) body)`, and `((lambda (x ...) body) e ...)`, with identities in all of it that
were given out, over host callables that make no difference between values that are alike. If the
guard refuses neither, they end with the same value or the same error, the same scopes and the same
state of the host, and made the same calls into the host, up to a renaming that moves all identities
given out later by one; the application took one operation more. Once the operands are evaluated,
both evaluate the body in a new frame inside the same one, where the last binding of a name
counts. -/
theorem let_as_application (k : Keeping σ τ) {bridge : Bridge σ}
    (huniform : bridge.Offers (HostFunction.Uniform k)) {w : World σ}
    (hstore : w.store.Holds (Value.GivenOut w.next))
    (hhost : ∀ v ∈ k.values w.host, v.GivenOut w.next) {code callee body : Value}
    {bindings : List (String × Value)} (hcode : code.Says (.bind bindings body))
    (hcallee : callee.Says (.lambda (bindings.map Prod.fst) body))
    (hinits : ∀ b ∈ bindings, b.2.GivenOut w.next) (hbody : body.GivenOut w.next)
    (addr depth frame : Nat) (g : Guard) :
    let m : Machine σ := ⟨g, w⟩
    let inits := bindings.map Prod.snd
    let call := .list addr depth (callee :: inits)
    let p := eval bridge code frame m
    let p' := eval bridge call frame m
    let ρ := Renaming.later w.next 1
    ¬ Refused p.1 → ¬ Refused p'.1 →
      ResultAlike ρ (Value.Alike ρ) p.1 p'.1 ∧
      (upTo k ρ).Stores p.2.world.store p'.2.world.store ∧
      k.Alike ρ p.2.world.host p'.2.world.host ∧
      (∃ es es', p.2.world.journal = es ++ w.journal ∧ p'.2.world.journal = es' ++ w.journal ∧
        List.Forall₂ (CallAlike ρ) (hostCalls es) (hostCalls es')) ∧
      p'.2.guard.operations = p.2.guard.operations + 1 ∧
      (∀ vs m₁, Visit.each (eval bridge) frame inits (m.enter code frame) = (.ok vs, m₁) →
        EndsInBody bridge body frame ((bindings.map Prod.fst).zip vs) m₁ p) ∧
      ∀ vs m₁, Visit.each (eval bridge) frame inits
          (eval bridge callee frame (m.enter call frame)).2 = (.ok vs, m₁) →
        EndsInBody bridge body frame ((bindings.map Prod.fst).zip vs) m₁ p' := by
  intro m inits call p p' ρ hp hp'
  let form := (SpecialForm.bind bindings body).run (eval bridge) frame
  let run := callWith bridge (.closure w.next (bindings.map Prod.fst) body frame) frame inits
  let start := m.enter code frame
  let behind := m.enterCall callee call frame
  have hform : p = ((form start).1, (form start).2.leave) :=
    eval_special hcode (admitted_of_not_refused hp)
  have hcall : p' = ((run behind).1, (run behind).2.leave) := eval_call hcallee hp'
  -- the call under the guard of the form, beside the form
  have haccords : Accords k ρ (Value.Alike ρ) start ⟨start.guard, behind.world⟩ (form start)
      (run ⟨start.guard, behind.world⟩) :=
    bind_inAccord huniform rfl (List.forall₂_same.2 fun b hb => ⟨rfl, (hinits b hb).alike_later 1⟩)
      (hbody.alike_later 1) w.next _ _ rfl (Correspondence.worlds_later hstore hhost 1 _ _)
  obtain ⟨hresult, hguard, hworlds, es, es', hes, hes', hcalls⟩ := haccords
  -- the call under its own guard
  have hrun := callWith_stepwise bridge (.closure w.next (bindings.map Prod.fst) body frame) frame
    inits
  have hbehind : ¬ Refused (run behind).1 := by rw [hcall] at hp'; exact hp'
  have hbeside : ¬ Refused (run ⟨start.guard, behind.world⟩).1 := by
    rw [hform] at hp
    exact fun hr => hp (refused_of_alike hresult hr)
  obtain ⟨hsame, hworld⟩ := hrun.coincide (eval_coincide bridge) start.guard behind.guard
    behind.world hbeside hbehind
  have hops : _ + behind.guard.operations = _ + start.guard.operations :=
    hrun.operations_eq hbeside hbehind
  rw [hsame] at hresult
  rw [hworld] at hworlds hes'
  refine ⟨?_, ?_, ?_, ⟨.leave :: (es ++ [.enter, .visit code frame]), .leave :: (es' ++
    [.leave, .enter, .visit callee frame, .enter, .visit call frame]), ?_, ?_, ?_⟩, ?_,
    fun vs m₁ h => ?_, fun vs m₁ h => ?_⟩
  · rw [hform, hcall]; exact hresult
  · rw [hform, hcall]; exact hworlds.store
  · rw [hform, hcall]; exact hworlds.host
  · rw [hform]
    change Event.leave :: (form start).2.world.journal = _
    rw [hes]
    simp [start, m, Machine.enter, World.record]
  · rw [hcall]
    change Event.leave :: (run behind).2.world.journal = _
    rw [hes']
    simp [behind, m, Machine.enterCall]
  · rw [hostCalls_visit rfl, hostCalls_visit rfl]
    exact hcalls
  · rw [hform, hcall]
    change (run behind).2.guard.operations = (form start).2.guard.operations + 1
    rw [hguard]
    change (run ⟨start.guard, behind.world⟩).2.guard.operations + (g.operations + 2) =
      (run behind).2.guard.operations + (g.operations + 1) at hops
    omega
  · rw [hform]
    exact bind_endsInBody h rfl
  · rw [eval_head hcallee hp'] at h
    rw [hcall]
    exact callWith_endsInBody h rfl

/-- `(let ((a (call-js "greet")) (a (list))) a)`, where the host greets. -/
theorem let_as_application_repeated :
    let greet : HostFunction Unit := fun _ => return .value (.string "hello")
    let i := (Interpreter.new .standard .nominal ()).registerFunction "greet" greet
    let n := i.machine.world.next
    let m : Machine Unit := ⟨i.machine.guard, { i.machine.world with next := n + 8 }⟩
    let asked : Value := .list n 1 [.symbol "call-js", .string "greet"]
    let made : Value := .list (n + 1) 1 [.symbol "list"]
    let code : Value := .list (n + 5) 4 [.symbol "let", .list (n + 4) 3
      [.list (n + 2) 2 [.symbol "a", asked], .list (n + 3) 2 [.symbol "a", made]], .symbol "a"]
    let callee : Value := .list (n + 7) 2 [.symbol "lambda",
      .list (n + 6) 1 [.symbol "a", .symbol "a"], .symbol "a"]
    let p := eval i.bridge code 0 m
    let p' := eval i.bridge (.list 0 3 [callee, asked, made]) 0 m
    ResultAlike (.later (n + 8) 1) (Value.Alike (.later (n + 8) 1)) p.1 p'.1 ∧
      p'.2.guard.operations = p.2.guard.operations + 1 ∧ resultText p.1 = "()" := by
  intro greet i n m asked made code callee p p'
  have huniform : greet.Uniform (⟨fun _ => [], id⟩ : Keeping Unit Unit) :=
    fun _ _ _ _ _ _ _ _ hhost hn => ⟨.value (.string "hello"), hhost, hn⟩
  have hreached : Reached (fun _ _ => False) (fun _ => False) i.machine.world :=
    (Reached.start fun _ hv => hv.elim).globals
  have hstore : m.world.store.Holds (Value.GivenOut m.world.next) :=
    hreached.givenOut.1.imp fun _ hv addr ha => Nat.lt_add_right 8 (hv addr ha)
  have hcode : code.Says (.bind [("a", asked), ("a", made)] (.symbol "a")) :=
    @Value.Says.intro .bind _ _ _ _ (.bind (.cons ⟨_, _, rfl⟩ (.cons ⟨_, _, rfl⟩ .nil)))
  have hcallee : callee.Says (.lambda ["a", "a"] (.symbol "a")) :=
    @Value.Says.intro .lambda _ _ _ _ (.lambda _ _ ["a", "a"] _)
  have not_refused {r : Except EvalError Value} (hr : r.toBool = true) : ¬ Refused r := by
    rintro ⟨why, rfl⟩
    cases hr
  obtain ⟨hresult, -, -, -, hops, -⟩ := let_as_application ⟨fun _ => [], id⟩
    (Bridge.Offers.empty.registerFunction "greet" huniform) hstore (fun _ hv => by cases hv) hcode
    hcallee (by decide) (by decide) 0 3 0 i.machine.guard (not_refused (by decide +kernel))
    (not_refused (by decide +kernel))
  exact ⟨hresult, hops, by decide +kernel⟩

end GuardedLisp
