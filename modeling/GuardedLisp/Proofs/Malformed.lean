import GuardedLisp.Interpreter
import GuardedLisp.Proofs.Positions
import GuardedLisp.Proofs.Scenes

/-!
# Malformed forms

A special form is checked as a whole before anything in it runs. If its operands do
not have its shape (`Keyword.Shaped`), a visit of it is counted, fails and does nothing
else. If they have, the form has no fault of its own: a syntax failure that comes out
is that of a malformed form which was visited last, inside. This one stands in an
evaluated position of the form, or of the body of a closure that was called on the way
(`TracedTo`).

What is traced is passed on by sequencing (`Traces.bind`), so there is one rule for
each thing that a step consists of, and evaluation traces its syntax failures by
induction on its room (`evalWithin_traces`).
-/

namespace GuardedLisp

open EvalM

variable {σ α β : Type}

/-! ## Shapes -/

/-- The form can have these operands. -/
def Keyword.Shaped : Keyword → List Value → Prop
  | .quote, operands => operands.length = 1
  | .branch, operands => operands.length = 2 ∨ operands.length = 3
  | .define, operands | .assign, operands => ∃ name e, operands = [.symbol name, e]
  | .lambda, operands => ∃ addr depth params body,
    operands = [.list addr depth params, body] ∧ ∀ p ∈ params, p.IsSymbol
  | .bind, operands => ∃ addr depth pairs body,
    operands = [.list addr depth pairs, body] ∧ ∀ pair ∈ pairs, ∃ b, pair.Binds b
  | .sequence, operands => operands ≠ []

namespace SpecialForm

theorem exists_map_symbol {vs : List Value} (h : ∀ v ∈ vs, v.IsSymbol) :
    ∃ ps : List String, vs = ps.map .symbol := by
  rcases symbols_or_first_fault vs with hps | ⟨ps, got, rest, hgot, rfl⟩
  · exact hps
  · exact absurd (h got (by simp)) hgot

theorem exists_bindings {vs : List Value} (h : ∀ v ∈ vs, ∃ b, v.Binds b) :
    ∃ bs, List.Forall₂ Value.Binds vs bs := by
  rcases bindings_or_first_fault vs with hbs | ⟨pairs, bs, got, rest, -, hgot, rfl⟩
  · exact hbs
  · exact absurd (h got (by simp)) hgot

/-- Operands spell a form if they have its shape. -/
theorem shaped_iff {form : Keyword} {operands : List Value} :
    form.Shaped operands ↔ ∃ f, Spells form operands f := by
  constructor
  · intro h
    cases form with
    | quote =>
      obtain ⟨datum, rfl⟩ := List.length_eq_one_iff.1 h
      exact ⟨_, .quote datum⟩
    | branch =>
      rcases h with h | h
      · obtain ⟨condition, consequent, rfl⟩ := List.length_eq_two.1 h
        exact ⟨_, .branch condition consequent⟩
      · obtain ⟨condition, consequent, alternative, rfl⟩ := List.length_eq_three.1 h
        exact ⟨_, .branchElse condition consequent alternative⟩
    | define => obtain ⟨name, e, rfl⟩ := h; exact ⟨_, .define name e⟩
    | assign => obtain ⟨name, e, rfl⟩ := h; exact ⟨_, .assign name e⟩
    | lambda =>
      obtain ⟨addr, depth, params, body, rfl, hparams⟩ := h
      obtain ⟨ps, rfl⟩ := exists_map_symbol hparams
      exact ⟨_, .lambda addr depth ps body⟩
    | bind =>
      obtain ⟨addr, depth, pairs, body, rfl, hpairs⟩ := h
      obtain ⟨bs, hbs⟩ := exists_bindings hpairs
      exact ⟨_, .bind hbs⟩
    | sequence =>
      obtain ⟨first, rest, rfl⟩ := List.exists_cons_of_ne_nil h
      exact ⟨_, .sequence first rest⟩
  · rintro ⟨f, h⟩
    cases h with
    | quote => rfl
    | branch => exact .inl rfl
    | branchElse => exact .inr rfl
    | define name e | assign name e => exact ⟨name, e, rfl⟩
    | lambda addr depth params body =>
      refine ⟨addr, depth, _, body, rfl, fun p hp => ?_⟩
      obtain ⟨name, -, rfl⟩ := List.mem_map.1 hp
      exact ⟨name, rfl⟩
    | @bind addr depth pairs bindings body hpairs =>
      refine ⟨addr, depth, pairs, body, rfl, fun pair hpair => ?_⟩
      obtain ⟨b, -, hb⟩ := forall₂_mem_left hpairs hpair
      exact ⟨b, hb⟩
    | sequence first rest => exact List.cons_ne_nil first rest

theorem not_shaped_iff {form : Keyword} {operands : List Value} :
    ¬ form.Shaped operands ↔ ∃ fault, Faulty form operands fault := by
  rw [shaped_iff]
  rcases spells_or_faulty form operands with ⟨f, hf⟩ | ⟨fault, hfault⟩
  · refine ⟨fun h => absurd ⟨f, hf⟩ h, fun ⟨fault, hfault⟩ => ?_⟩
    have := hf.check_eq.symm.trans hfault.check_eq
    cases this
  · refine ⟨fun _ => ⟨fault, hfault⟩, fun _ ⟨f, hf⟩ => ?_⟩
    have := hf.check_eq.symm.trans hfault.check_eq
    cases this

end SpecialForm

/-- The expression is a special form with this fault. -/
inductive Value.Malformed : Value → SyntaxFault → Prop where
  | intro {form : Keyword} {operands : List Value} {fault : SyntaxFault} (addr depth : Nat)
    (h : SpecialForm.Faulty form operands fault) :
    Malformed (.list addr depth (.symbol form.name :: operands)) fault

/-! ## Traces -/

/-- May be run behind these events: it could be run before, or it is the body of a closure that was
called. -/
def Opened (roots : Value → Prop) (es : List Event) (root : Value) : Prop :=
  roots root ∨ ∃ addr params frame args, .apply (.closure addr params root frame) args ∈ es

/-- The last of the events is that visits end one inside the other, the innermost one that of an
expression with this fault, inside what could be run. -/
def TracedTo (roots : Value → Prop) (es : List Event) (fault : SyntaxFault) : Prop :=
  ∃ (n : Nat) (code : Value) (frame : Nat) (past : List Event) (root : Value),
    es = List.replicate (n + 1) .leave ++ .enter :: .visit code frame :: past ∧
    code.Malformed fault ∧ Opened roots past root ∧ root.Occurs code

/-- Every syntax failure of the computation is traced, by the events it makes, to what could be
run. -/
def Traces (roots : Value → Prop) (x : EvalM σ α) : Prop := ∀ m, ∃ es,
  (x m).2.world.journal = es ++ m.world.journal ∧
  ∀ fault, (x m).1 = .error (.malformed fault) → TracedTo roots es fault

section rules

variable {roots roots' : Value → Prop} {es past : List Event} {fault : SyntaxFault}

theorem Opened.mono (h : ∀ root, roots root → Opened roots' past root) {root : Value}
    (hroot : Opened roots es root) : Opened roots' (es ++ past) root := by
  rcases hroot with hroot | ⟨addr, params, frame, args, hmem⟩
  · rcases h root hroot with hroot | ⟨addr, params, frame, args, hmem⟩
    · exact .inl hroot
    · exact .inr ⟨addr, params, frame, args, List.mem_append_right _ hmem⟩
  · exact .inr ⟨addr, params, frame, args, List.mem_append_left _ hmem⟩

/-- What is behind the events in which it opened can be taken in. -/
theorem TracedTo.mono (h : TracedTo roots es fault)
    (hroots : ∀ root, roots root → Opened roots' past root) : TracedTo roots' (es ++ past) fault := by
  obtain ⟨n, code, frame, past', root, rfl, hcode, hroot, hocc⟩ := h
  exact ⟨n, code, frame, past' ++ past, root, by simp, hcode, hroot.mono hroots, hocc⟩

namespace Traces

variable {x : EvalM σ α}

theorem mono (h : Traces roots x) (hroots : ∀ root, roots root → roots' root) :
    Traces roots' x := by
  have hopened (root : Value) (hroot : roots root) : Opened roots' [] root :=
    .inl (hroots root hroot)
  intro m
  obtain ⟨es, hes, htraced⟩ := h m
  refine ⟨es, hes, fun fault hfault => ?_⟩
  have hmono := (htraced fault hfault).mono hopened
  rwa [List.append_nil] at hmono

/-- An action that has no syntax failures. -/
theorem act {f : World σ → Except EvalError α × World σ}
    (hjournal : ∀ w, ∃ es, (f w).2.journal = es ++ w.journal)
    (h : ∀ w fault, (f w).1 ≠ .error (.malformed fault)) : Traces roots (tryOnWorld f) := by
  intro m
  obtain ⟨es, hes⟩ := hjournal m.world
  exact ⟨es, hes, fun fault hfault => absurd hfault (h m.world fault)⟩

theorem quiet {f : World σ → Except EvalError α × World σ} (hf : Quiet f)
    (h : ∀ w fault, (f w).1 ≠ .error (.malformed fault)) : Traces roots (tryOnWorld f) :=
  act (fun w => (hf.journal w).imp fun _ hes => hes.1.journal) h

theorem pure (a : α) : Traces roots (pure a : EvalM σ α) :=
  quiet (.ofResult (.ok a)) fun _ _ h => by cases h

theorem throw {e : EvalError} (he : ∀ fault, e ≠ .malformed fault) :
    Traces roots (throw e : EvalM σ α) :=
  act (f := fun w => (.error e, w)) (fun _ => ⟨[], rfl⟩) fun _ fault h =>
    he fault (Except.error.inj h)

theorem bind {f : α → EvalM σ β} (hx : Traces roots x) (hf : ∀ a, Traces roots (f a)) :
    Traces roots (x >>= f) := by
  intro m
  obtain ⟨es, hes, htraced⟩ := hx m
  refine bind_cases (P := fun p => ∃ es, p.2.world.journal = es ++ m.world.journal ∧
    ∀ fault, p.1 = .error (.malformed fault) → TracedTo roots es fault)
    (fun e m' he => ?_) (fun a m' ha => ?_)
  · rw [he] at hes htraced
    exact ⟨es, hes, fun fault hfault => htraced fault (by cases hfault; rfl)⟩
  · rw [ha] at hes
    obtain ⟨es', hes', htraced'⟩ := hf a m'
    refine ⟨es' ++ es, by rw [hes', hes, List.append_assoc], fun fault hfault => ?_⟩
    exact (htraced' fault hfault).mono fun root hroot => .inl hroot

/-- A call opens the body of a closure. -/
theorem call {callee : Value} {args : List Value} {x : EvalM σ α}
    (hx : Traces (Opened roots [.apply callee args]) x) :
    Traces roots (EvalM.note (.apply callee args) >>= fun _ => x) := by
  intro m
  obtain ⟨es, hes, htraced⟩ := hx ⟨m.guard, m.world.record (.apply callee args)⟩
  have hrun : (EvalM.note (.apply callee args) >>= fun _ => x) m =
      x ⟨m.guard, m.world.record (.apply callee args)⟩ := bind_ok rfl
  rw [hrun]
  refine ⟨es ++ [.apply callee args], hes.trans (by simp [World.record]), fun fault hfault => ?_⟩
  exact (htraced fault hfault).mono fun root hroot => hroot

end Traces

end rules

/-! ## Steps -/

section steps

variable {visit : Visit σ} (hvisit : ∀ code frame, Traces (· = code) (visit code frame))
  {roots : Value → Prop} {frame : Nat}

include hvisit

theorem Traces.visiting {e : Value} (he : roots e) (frame : Nat) : Traces roots (visit e frame) :=
  (hvisit e frame).mono fun _ h => h ▸ he

theorem Traces.each {es : List Value} (hes : ∀ e ∈ es, roots e) :
    Traces roots (visit.each frame es) := by
  induction es with
  | nil => exact .pure []
  | cons e es ih =>
    rw [List.forall_mem_cons] at hes
    exact .bind (.visiting hvisit hes.1 frame) fun v => .bind (ih hes.2) fun vs => .pure (v :: vs)

theorem Traces.last {e : Value} {es : List Value} (hes : ∀ e' ∈ e :: es, roots e') :
    Traces roots (visit.last frame e es) := by
  induction es generalizing e with
  | nil => exact .visiting hvisit (hes e List.mem_cons_self) frame
  | cons e' es ih =>
    rw [List.forall_mem_cons] at hes
    exact .bind (.visiting hvisit hes.1 frame) fun _ => ih hes.2

theorem Traces.inFrame {body : Value} (hbody : roots body) (parent : Nat)
    (bindings : List (String × Value)) : Traces roots (visit.inFrame parent bindings body) :=
  .bind (.quiet (.ofExtend parent bindings) fun _ _ h => by cases h)
    fun frame => .visiting hvisit hbody frame

theorem Traces.form {f : SpecialForm} (hf : ∀ e, f.Holds e → roots e) :
    Traces roots (f.run visit frame) := by
  cases f with
  | quote datum => exact .pure datum
  | branch condition consequent alternative =>
    refine .bind (.visiting hvisit (hf _ (.condition ..)) frame) fun v => ?_
    split
    · exact .visiting hvisit (hf _ (.consequent ..)) frame
    · cases alternative with
      | none => exact .pure Value.nil
      | some e => exact .visiting hvisit (hf _ (.alternative ..)) frame
  | define name e =>
    exact .bind (.visiting hvisit (hf _ (.defined ..)) frame) fun v =>
      .quiet (.ofDefine frame name v) fun _ _ h => by cases h
  | assign name e =>
    refine .bind (.visiting hvisit (hf _ (.assigned ..)) frame) fun v => .bind ?_ fun _ => .pure v
    refine .quiet (.ofAssign frame name v) fun w fault h => ?_
    unfold World.assign at h
    split at h <;> cases h
  | lambda params body =>
    exact .bind (.quiet (.ofAlloc (x := do return .ok (← fresh)) fun _ => .ok _)
      fun _ _ h => by cases h) fun addr => .pure _
  | bind bindings body =>
    refine .bind (.each hvisit fun e he => ?_) fun vs =>
      .inFrame hvisit (hf _ (.bindBody ..)) frame _
    obtain ⟨b, hb, rfl⟩ := List.mem_map.1 he
    exact hf _ (.init hb body)
  | sequence first rest => exact .last hvisit fun e he => hf _ (.item he)

omit hvisit in
theorem traces_applyBridge (bridge : Bridge σ) (addr : Nat) (call : BridgeCall)
    (args : List Value) : Traces roots (tryOnWorld (World.applyBridge bridge addr call args)) := by
  refine .act (fun w => ?_) fun w fault h => ?_
  · obtain ⟨es, hes, -⟩ := World.applyBridge_journal bridge addr call args w
    exact ⟨es, hes.journal⟩
  · unfold World.applyBridge at h
    cases ht : call.target args with
    | error e =>
      rw [ht] at h
      cases h
      exact failsOwn_target call args _ ht
    | ok asked =>
      rw [ht] at h
      dsimp only at h
      cases hr : ((w.record (.apply (.bridge addr call) args)).callHost bridge asked.1 asked.2).1 <;>
        rw [hr] at h <;> cases h

theorem Traces.apply (bridge : Bridge σ) (callee : Value) (args : List Value) :
    Traces roots (applyWith bridge visit callee args) := by
  cases callee with
  | bridge addr call =>
    rw [applyWith_bridge]
    exact traces_applyBridge bridge addr call args
  | builtin addr p =>
    refine .call (.quiet (.ofAlloc (p.failsInternally_apply args)) fun w fault h => ?_)
    exact Primitive.failsOwn_apply args w.next p _ h
  | closure addr params body frame =>
    by_cases hn : params.length = args.length
    · simp only [applyWith, hn, if_true]
      exact .call (.inFrame hvisit (.inr ⟨addr, params, frame, args, List.mem_cons_self⟩) frame _)
    · simp only [applyWith, hn, if_false]
      exact .call (.throw nofun)
  | _ => exact .call (.throw nofun)

/-- What a well-formed expression does is traced to its subforms. -/
theorem Traces.step (bridge : Bridge σ) {code : Value} (hcode : ∀ fault, ¬ code.Malformed fault) :
    Traces code.Subform (evalStep bridge visit code frame) := by
  rcases code.code_cases with hconst | ⟨name, rfl⟩ | ⟨addr, depth, form, operands, rfl⟩ |
    ⟨addr, depth, head, operands, hhead, rfl⟩
  · rw [evalStep_of_isConstant hconst]
    exact .pure code
  · refine .quiet (.ofLookup frame name) fun w fault h => ?_
    unfold World.lookup at h
    split at h <;> cases h
  · rcases SpecialForm.spells_or_faulty form operands with ⟨f, hf⟩ | ⟨fault, hfault⟩
    · rw [evalStep_of_spells hf]
      exact .form hvisit fun e he => .held (.intro addr depth hf) he
    · exact absurd (.intro addr depth hfault) (hcode fault)
  · rw [evalStep_of_not_isReserved hhead]
    have hitem {e : Value} (he : e ∈ head :: operands) :
        (Value.list addr depth (head :: operands)).Subform e := .item hhead he
    exact .bind (.visiting hvisit (hitem List.mem_cons_self) frame) fun callee =>
      .bind (.each hvisit fun e he => hitem (List.mem_cons_of_mem _ he)) fun args =>
        .apply hvisit bridge callee args

end steps

/-! ## Visits -/

/-- A malformed expression fails at once. -/
theorem Value.Malformed.evalStep_eq {code : Value} {fault : SyntaxFault} (h : code.Malformed fault)
    (bridge : Bridge σ) (visit : Visit σ) (frame : Nat) :
    evalStep bridge visit code frame = throw (.malformed fault) := by
  obtain ⟨addr, depth, h⟩ := h
  exact evalStep_of_faulty h addr depth

section visits

variable {code : Value} {frame : Nat} {es : List Event} {fault : SyntaxFault}

/-- A failure inside a visit is one of the visit. -/
theorem TracedTo.leave (h : TracedTo code.Subform es fault) :
    TracedTo (· = code) (.leave :: (es ++ [.enter, .visit code frame])) fault := by
  obtain ⟨n, inner, frame', past, root, rfl, hinner, hroot, hocc⟩ := h
  have hes : Event.leave :: (List.replicate (n + 1) .leave ++ .enter :: .visit inner frame' :: past ++
      [.enter, .visit code frame]) = List.replicate (n + 1 + 1) .leave ++
        .enter :: .visit inner frame' :: (past ++ [.enter, .visit code frame]) := by
    simp [List.replicate_succ]
  rcases hroot with hroot | ⟨addr, params, f, args, hmem⟩
  · exact ⟨n + 1, inner, frame', _, code, hes, hinner, .inl rfl, .head hroot hocc⟩
  · exact ⟨n + 1, inner, frame', _, root, hes, hinner,
      .inr ⟨addr, params, f, args, List.mem_append_left _ hmem⟩, hocc⟩

theorem TracedTo.ofMalformed (h : code.Malformed fault) :
    TracedTo (· = code) [.leave, .enter, .visit code frame] fault :=
  ⟨0, code, frame, [], code, rfl, h, .inl rfl, .refl⟩

theorem traces_guarded {step : EvalM σ Value}
    (h : Traces code.Subform step ∨ ∃ fault, code.Malformed fault ∧ step = throw (.malformed fault)) :
    Traces (· = code) (guarded code frame step) := by
  intro m
  cases hr : m.guard.refusal? with
  | some why =>
    rw [guarded_of_refusal hr]
    exact ⟨[.visit code frame], rfl, fun fault h => by cases h⟩
  | none =>
    rw [guarded_of_admission hr]
    rcases h with h | ⟨fault, hmalformed, rfl⟩
    · obtain ⟨es, hes, htraced⟩ := h (m.enter code frame)
      refine ⟨.leave :: (es ++ [.enter, .visit code frame]), ?_,
        fun fault hfault => (htraced fault hfault).leave⟩
      change Event.leave :: (step (m.enter code frame)).2.world.journal = _
      rw [hes]
      simp [Machine.enter, World.record]
    · refine ⟨[.leave, .enter, .visit code frame], rfl, fun fault' h => ?_⟩
      cases h
      exact .ofMalformed hmalformed

/-- **Evaluations trace their syntax failures.** -/
theorem evalWithin_traces (bridge : Bridge σ) (room : Nat) (code : Value) (frame : Nat) :
    Traces (· = code) (evalWithin bridge room code frame) := by
  induction room generalizing code frame with
  | zero =>
    exact traces_guarded (.inl (.throw nofun))
  | succ room ih =>
    refine traces_guarded ?_
    by_cases h : ∃ fault, code.Malformed fault
    · obtain ⟨fault, h⟩ := h
      exact .inr ⟨fault, h, h.evalStep_eq bridge _ frame⟩
    · exact .inl (.step ih bridge (not_exists.1 h))

theorem eval_traces (bridge : Bridge σ) (code : Value) (frame : Nat) :
    Traces (· = code) (eval bridge code frame) :=
  fun m => evalWithin_traces bridge m.guard.room code frame m

/-- **Special forms are checked as a whole before anything runs.** Of an admitted visit of a special
form: if its operands do not have the shape, the form fails with a fault of theirs, and nothing
happened but the visit; if they have, then a syntax failure is that of a malformed expression which
was visited last, inside. It occurs in the form, or in the body of a closure called meanwhile. -/
theorem special_form_checked_whole (bridge : Bridge σ) (addr depth : Nat) (form : Keyword)
    (operands : List Value) (frame : Nat) (m : Machine σ) (hm : m.guard.refusal? = none) :
    let code := .list addr depth (.symbol form.name :: operands)
    (¬ form.Shaped operands → ∃ fault, SpecialForm.Faulty form operands fault ∧
      eval bridge code frame m = (.error (.malformed fault),
        ⟨{ m.guard with operations := m.guard.operations + 1 },
          { m.world with
            journal := .leave :: .enter :: .visit code frame :: m.world.journal }⟩)) ∧
    (form.Shaped operands → ∀ fault, (eval bridge code frame m).1 = .error (.malformed fault) →
      ∃ (n : Nat) (inner : Value) (frame' : Nat) (past : List Event),
        (eval bridge code frame m).2.world.journal =
          List.replicate (n + 2) .leave ++ .enter :: .visit inner frame' ::
            (past ++ .enter :: .visit code frame :: m.world.journal) ∧
        inner.Malformed fault ∧
        (Relation.TransGen Value.Subform code inner ∨ ∃ addr params body frame args,
          .apply (.closure addr params body frame) args ∈ past ∧ body.Occurs inner)) := by
  intro code
  have hrun := (eval_eq bridge code frame m).trans (guarded_of_admission hm)
  refine ⟨fun hshaped => ?_, fun hshaped fault hfault => ?_⟩
  · obtain ⟨fault, hfaulty⟩ := SpecialForm.not_shaped_iff.1 hshaped
    refine ⟨fault, hfaulty, ?_⟩
    rw [hrun, evalStep_of_faulty hfaulty]
    rfl
  · obtain ⟨f, hf⟩ := SpecialForm.shaped_iff.1 hshaped
    have hstep : Traces code.Subform (evalStep bridge (eval bridge) code frame) := by
      rw [evalStep_of_spells hf]
      exact .form (eval_traces bridge) fun e he => .held (.intro addr depth hf) he
    obtain ⟨es, hes, htraced⟩ := hstep (m.enter code frame)
    rw [hrun] at hfault ⊢
    obtain ⟨n, inner, frame', past, root, rfl, hinner, hroot, hocc⟩ := htraced fault hfault
    refine ⟨n, inner, frame', past, ?_, hinner, ?_⟩
    · change Event.leave :: _ = _
      rw [hes]
      simp [Machine.enter, World.record, List.replicate_succ]
    · rcases hroot with hroot | ⟨addr, params, f, args, hmem⟩
      · exact .inl (.head' hroot hocc)
      · exact .inr ⟨addr, params, root, f, args, hmem, hocc⟩

/-- The second binding of `(let ((a (f)) b) a)` is none, so `(f)` is never visited. In
`(begin (if))`, the failure is that of `(if)`. -/
theorem special_form_checked_whole_nested :
    let m := (Interpreter.new .standard .nominal ()).machine
    let pairs : Value := .list 10 3 [.list 11 2 [.symbol "a", .list 12 1 [.symbol "f"]], .symbol "b"]
    let late : Value := .list 13 4 [.symbol "let", pairs, .symbol "a"]
    let inside : Value := .list 14 2 [.symbol "begin", .list 15 1 [.symbol "if"]]
    m.guard.refusal? = none ∧
    (∃ fault, eval .empty late 0 m = (.error (.malformed fault),
      ⟨{ m.guard with operations := 1 },
        { m.world with journal := [.leave, .enter, .visit late 0] }⟩)) ∧
    ∃ (n : Nat) (inner : Value) (frame : Nat) (past : List Event),
      (eval .empty inside 0 m).2.world.journal = List.replicate (n + 2) .leave ++
        .enter :: .visit inner frame :: (past ++ [.enter, .visit inside 0]) ∧
      inner.Malformed (.shape .branch) := by
  intro m pairs late inside
  have hm : m.guard.refusal? = none := by decide
  have hlate : ¬ Keyword.bind.Shaped [pairs, .symbol "a"] :=
    SpecialForm.not_shaped_iff.2 ⟨.binding (.symbol "b"),
      SpecialForm.check_eq_error_iff.1 rfl⟩
  have hinside : Keyword.sequence.Shaped [.list 15 1 [.symbol "if"]] := List.cons_ne_nil _ _
  have hfails : (eval .empty inside 0 m).1 = .error (.malformed (.shape .branch)) := rfl
  obtain ⟨fault, -, hfault⟩ := (special_form_checked_whole .empty 13 4 .bind _ 0 m hm).1 hlate
  obtain ⟨n, inner, frame, past, hjournal, hinner, -⟩ :=
    (special_form_checked_whole .empty 14 2 .sequence _ 0 m hm).2 hinside _ hfails
  exact ⟨hm, ⟨fault, hfault⟩, n, inner, frame, past, hjournal, hinner⟩

end visits

end GuardedLisp
