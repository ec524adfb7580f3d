import GuardedLisp.Proofs.Scenes

/-!
# The guard changes no result

An evaluation that the guard lets through ends as the rules of the language say,
and whatever the rules derive is what an evaluation comes to whose guard has the
operations and the levels that the derivation costs. Each direction goes through
the parts of a step in order: `Attains` carries a derivation along a run,
`Explained` finds the derivation behind one.
-/

namespace GuardedLisp

open EvalM

variable {σ α β : Type}

/-! ## Budgets -/

namespace Guard

variable {g : Guard} {c c' : Cost} {room : Nat}

/-- The count after an evaluation of this cost. -/
def spend (g : Guard) (c : Cost) : Guard := { g with operations := g.operations + c.visits }

/-- Neither the count nor the depth will pass its limit. -/
def Affords (g : Guard) (c : Cost) : Prop :=
  g.operations + c.visits ≤ g.limits.maxOperations ∧ g.depth + c.height ≤ g.limits.maxDepth

/-- Time does not run out. -/
def Timely (g : Guard) : Prop := ∀ visit, g.clock visit ≤ g.limits.timeout

theorem affords_seq_iff : g.Affords (c.seq c') ↔ g.Affords c ∧ (g.spend c).Affords c' := by
  simp only [Affords, spend, Cost.seq]
  omega

theorem spend_seq (g : Guard) (c c' : Cost) : g.spend (c.seq c') = (g.spend c).spend c' := by
  simp only [spend, Cost.seq, Nat.add_assoc]

/-- Fit to go on, with this many levels left. -/
structure Ready (room : Nat) (g : Guard) : Prop where
  room : g.room = room
  timely : g.Timely
  affords : g.Affords .none

theorem Ready.spend (h : g.Ready room) (hc : g.Affords c) : (g.spend c).Ready room :=
  ⟨h.room, h.timely, hc.1, h.affords.2⟩

end Guard

theorem Machine.guard_leave_of_spend {m m' : Machine σ} {code : Value} {frame : Nat} {c : Cost}
    (h : m'.guard = (m.enter code frame).guard.spend c) :
    m'.leave.guard = m.guard.spend c.nest := by
  change m'.guard.leave = _
  rw [h]
  simp only [Guard.leave, Guard.spend, Machine.enter, Cost.nest, Nat.add_sub_cancel,
    Nat.add_assoc, Nat.add_comm 1]

/-! ## From derivations to runs -/

/-- From `m`, `x` comes to this end at this cost, if the guard can afford it. -/
def Attains (x : EvalM σ α) (m : Machine σ) (r : Except EvalError α) (s : Scene σ) (c : Cost) :
    Prop :=
  m.guard.Affords c →
    (x m).1 = r ∧ (x m).2.world.scene = s ∧ (x m).2.guard = m.guard.spend c

namespace Attains

variable {x : EvalM σ α} {k : α → EvalM σ β} {m : Machine σ} {a : α} {s s₁ : Scene σ} {c c' : Cost}

theorem act {f : World σ → Except EvalError α × World σ} {r : Except EvalError α}
    (hr : (f m.world).1 = r) (hs : (f m.world).2.scene = s) : Attains (tryOnWorld f) m r s .none :=
  fun _ => ⟨hr, hs, rfl⟩

theorem pure (hs : m.world.scene = s) : Attains (pure a) m (.ok a) s .none :=
  act (f := fun w => (.ok a, w)) rfl hs

theorem throw {e : EvalError} (hs : m.world.scene = s) :
    Attains (throw e : EvalM σ α) m (.error e) s .none :=
  act (f := fun w => (.error e, w)) rfl hs

theorem bind_error {e : EvalError} (h : Attains x m (.error e) s c) :
    Attains (x >>= k) m (.error e) s c := by
  intro hc
  obtain ⟨hr, hs, hg⟩ := h hc
  rw [EvalM.bind_error (Prod.ext hr rfl)]
  exact ⟨rfl, hs, hg⟩

theorem bind_ok {r : Except EvalError β} (ht : m.guard.Timely) (h : Attains x m (.ok a) s₁ c)
    (hk : ∀ m₁, m₁.world.scene = s₁ → m₁.guard.Timely → Attains (k a) m₁ r s c') :
    Attains (x >>= k) m r s (c.seq c') := by
  intro hc
  rw [Guard.affords_seq_iff] at hc
  obtain ⟨hr, hs, hg⟩ := h hc.1
  rw [EvalM.bind_ok (Prod.ext hr rfl), Guard.spend_seq, ← hg]
  exact hk (x m).2 hs (hg ▸ ht) (hg ▸ hc.2)

/-- A last action costs nothing. -/
theorem bind_act {f : α → World σ → Except EvalError β × World σ} {r : Except EvalError β}
    (ht : m.guard.Timely) (h : Attains x m (.ok a) s₁ c)
    (hf : ∀ w, w.scene = s₁ → (f a w).1 = r ∧ (f a w).2.scene = s) :
    Attains (x >>= fun a => tryOnWorld (f a)) m r s c := by
  rw [← Cost.seq_none c]
  exact bind_ok ht h fun m₁ hs₁ _ => act (hf m₁.world hs₁).1 (hf m₁.world hs₁).2

/-- A first action costs nothing. -/
theorem act_bind {f : World σ → Except EvalError α × World σ} {r : Except EvalError β}
    (ht : m.guard.Timely) (ha : (f m.world).1 = .ok a) (hs : (f m.world).2.scene = s₁)
    (hk : ∀ m₁, m₁.world.scene = s₁ → m₁.guard.Timely → Attains (k a) m₁ r s c) :
    Attains (tryOnWorld f >>= k) m r s c := by
  rw [← Cost.none_seq c]
  exact bind_ok ht (act ha hs) hk

theorem guarded {code : Value} {frame : Nat} {step : EvalM σ Value} {r : Except EvalError Value}
    (ht : m.guard.Timely)
    (hstep : ∀ m₁, m₁.world.scene = m.world.scene → m₁.guard.Timely → Attains step m₁ r s c) :
    Attains (guarded code frame step) m r s c.nest := by
  intro hc
  obtain ⟨hops, hdepth⟩ := hc
  simp only [Cost.nest] at hops hdepth
  have hadmitted : m.guard.refusal? = none :=
    Guard.refusal?_eq_none_iff.2 ⟨by omega, ht _, by omega⟩
  have hinner : (m.enter code frame).guard.Affords c := by
    simp only [Guard.Affords, Machine.enter]
    omega
  obtain ⟨hr, hs, hg⟩ := hstep _ (m.scene_enter code frame) ht hinner
  rw [guarded_of_admission hadmitted]
  exact ⟨hr, (Machine.scene_leave _).trans hs, Machine.guard_leave_of_spend hg⟩

theorem visit {bridge : Bridge σ} {code : Value} {frame : Nat} {r : Except EvalError Value}
    (ht : m.guard.Timely)
    (hstep : ∀ m₁, m₁.world.scene = m.world.scene → m₁.guard.Timely →
      Attains (evalStep bridge (eval bridge) code frame) m₁ r s c) :
    Attains (eval bridge code frame) m r s c.nest := by
  unfold Attains
  rw [eval_eq]
  exact Attains.guarded ht hstep

end Attains

theorem Attains.inFrame {visit : Visit σ} {m : Machine σ} {s s' : Scene σ} {parent : Nat}
    {bindings : List (String × Value)} {body : Value} {r : Except EvalError Value} {c : Cost}
    (hs : m.world.scene = s) (ht : m.guard.Timely)
    (h : ∀ m₁, m₁.world.scene = s.extend parent bindings → m₁.guard.Timely →
      Attains (visit body s.store.nextFrame) m₁ r s' c) :
    Attains (visit.inFrame parent bindings body) m r s' c := by
  have hframe : (m.world.extend parent bindings).1 = s.store.nextFrame := by subst hs; rfl
  refine act_bind (f := fun w => (.ok (w.extend parent bindings).1, (w.extend parent bindings).2))
    ht (congrArg Except.ok hframe) (World.scene_extend hs parent bindings) h

mutual

-- By recursion on the derivation: the premises of a rule are the parts of the run, in their order.
theorem Evaluates.attains {bridge : Bridge σ} {code : Value} {frame : Nat} {s s' : Scene σ}
    {r : Except EvalError Value} {c : Cost} (h : Evaluates bridge code frame s r s' c)
    (m : Machine σ) (hs : m.world.scene = s) (ht : m.guard.Timely) :
    Attains (eval bridge code frame) m r s' c := by
  match h with
  | .constant h =>
    refine .visit ht fun m₁ hs₁ _ => ?_
    rw [evalStep_of_isConstant h]
    exact .pure (hs₁.trans hs)
  | .bound h =>
    refine .visit ht fun m₁ hs₁ _ => ?_
    exact .act (World.lookup_of_bound (hs₁.trans hs) h) (hs₁.trans hs)
  | .unbound h =>
    refine .visit ht fun m₁ hs₁ _ => ?_
    exact .act (World.lookup_of_unbound (hs₁.trans hs) h) (hs₁.trans hs)
  | .malformed h =>
    refine .visit ht fun m₁ hs₁ _ => ?_
    rw [evalStep_of_faulty h]
    exact .throw (hs₁.trans hs)
  | .special h hf =>
    refine .visit ht fun m₁ hs₁ ht₁ => ?_
    rw [evalStep_of_spells h]
    exact hf.attains m₁ (hs₁.trans hs) ht₁
  | .headFails h hhead =>
    refine .visit ht fun m₁ hs₁ ht₁ => ?_
    rw [evalStep_of_not_isReserved h]
    exact .bind_error (hhead.attains m₁ (hs₁.trans hs) ht₁)
  | .argumentFails h hhead hargs =>
    refine .visit ht fun m₁ hs₁ ht₁ => ?_
    rw [evalStep_of_not_isReserved h]
    refine .bind_ok ht₁ (hhead.attains m₁ (hs₁.trans hs) ht₁) fun m₂ hs₂ ht₂ => ?_
    exact .bind_error (hargs.attains m₂ hs₂ ht₂)
  | .application h hhead hargs hcall =>
    refine .visit ht fun m₁ hs₁ ht₁ => ?_
    rw [evalStep_of_not_isReserved h]
    refine .bind_ok ht₁ (hhead.attains m₁ (hs₁.trans hs) ht₁) fun m₂ hs₂ ht₂ => ?_
    refine .bind_ok ht₂ (hargs.attains m₂ hs₂ ht₂) fun m₃ hs₃ ht₃ => ?_
    exact hcall.attains m₃ hs₃ ht₃

theorem EvaluatesEach.attains {bridge : Bridge σ} {es : List Value} {frame : Nat}
    {s s' : Scene σ} {r : Except EvalError (List Value)} {c : Cost}
    (h : EvaluatesEach bridge es frame s r s' c) (m : Machine σ) (hs : m.world.scene = s)
    (ht : m.guard.Timely) : Attains (Visit.each (eval bridge) frame es) m r s' c := by
  match h with
  | .nil => exact .pure hs
  | .firstFails h => exact .bind_error (h.attains m hs ht)
  | .restFails h hes =>
    refine .bind_ok ht (h.attains m hs ht) fun m₁ hs₁ ht₁ => ?_
    exact .bind_error (hes.attains m₁ hs₁ ht₁)
  | .cons (v := v) h hes =>
    refine .bind_ok ht (h.attains m hs ht) fun m₁ hs₁ ht₁ => ?_
    exact .bind_act (f := fun vs w => (.ok (v :: vs), w)) ht₁ (hes.attains m₁ hs₁ ht₁)
      fun w hw => ⟨rfl, hw⟩

theorem RunsForm.attains {bridge : Bridge σ} {f : SpecialForm} {frame : Nat} {s s' : Scene σ}
    {r : Except EvalError Value} {c : Cost} (h : RunsForm bridge f frame s r s' c)
    (m : Machine σ) (hs : m.world.scene = s) (ht : m.guard.Timely) :
    Attains (f.run (eval bridge) frame) m r s' c := by
  match h with
  | .quote => exact .pure hs
  | .conditionFails h | .definitionFails h | .assignmentFails h =>
    exact .bind_error (h.attains m hs ht)
  | .consequent h hv hconsequent =>
    refine .bind_ok ht (h.attains m hs ht) fun m₁ hs₁ ht₁ => ?_
    rw [if_pos hv]
    exact hconsequent.attains m₁ hs₁ ht₁
  | .alternative h hv halternative =>
    refine .bind_ok ht (h.attains m hs ht) fun m₁ hs₁ ht₁ => ?_
    rw [if_neg (by simp [hv])]
    exact halternative.attains m₁ hs₁ ht₁
  | .noAlternative h hv =>
    rw [← Cost.seq_none c]
    refine .bind_ok ht (h.attains m hs ht) fun m₁ hs₁ ht₁ => ?_
    rw [if_neg (by simp [hv])]
    exact .pure hs₁
  | .define h =>
    exact .bind_act (f := fun v w => (.ok v, w.define frame _ v)) ht (h.attains m hs ht)
      fun w hw => ⟨rfl, World.scene_define hw ..⟩
  | .assignUnbound (v := v) h hname =>
    rw [← Cost.seq_none c]
    refine .bind_ok ht (h.attains m hs ht) fun m₁ hs₁ ht₁ => ?_
    obtain ⟨hr, hs'⟩ := World.assign_of_unbound hs₁ hname v
    exact .bind_error (.act hr hs')
  | .assign (v := v) h hname =>
    rw [← Cost.seq_none c]
    refine .bind_ok ht (h.attains m hs ht) fun m₁ hs₁ ht₁ => ?_
    obtain ⟨hr, hs'⟩ := World.assign_of_bound hs₁ hname v
    exact .act_bind ht₁ hr hs' fun m₂ hs₂ _ => .pure hs₂
  | .lambda =>
    obtain ⟨hr, hs'⟩ := World.scene_alloc (x := do return .ok (← fresh)) hs rfl
    exact .act_bind (f := (·.alloc _)) ht hr hs' fun m₁ hs₁ _ => .pure hs₁
  | .bindingFails h => exact .bind_error (h.attains m hs ht)
  | .bind h hbody =>
    refine .bind_ok ht (h.attains m hs ht) fun m₁ hs₁ ht₁ => ?_
    exact .inFrame hs₁ ht₁ fun m₂ hs₂ ht₂ => hbody.attains m₂ hs₂ ht₂
  | .only h => exact h.attains m hs ht
  | .firstFails h => exact .bind_error (h.attains m hs ht)
  | .next h hrest =>
    refine .bind_ok ht (h.attains m hs ht) fun m₁ hs₁ ht₁ => ?_
    exact hrest.attains m₁ hs₁ ht₁

theorem Calls.attains {bridge : Bridge σ} {callee : Value} {args : List Value} {s s' : Scene σ}
    {r : Except EvalError Value} {c : Cost} (h : Calls bridge callee args s r s' c)
    (m : Machine σ) (hs : m.world.scene = s) (ht : m.guard.Timely) :
    Attains (applyWith bridge (eval bridge) callee args) m r s' c := by
  have hnote : (m.world.record (.apply callee args)).scene = s := (World.scene_record rfl).trans hs
  match h with
  | .builtin h =>
    refine .act_bind (f := fun w => (.ok (), w.record _)) ht rfl hnote fun m₁ hs₁ _ => ?_
    obtain ⟨hr, hs'⟩ := World.scene_alloc hs₁ h
    exact .act hr hs'
  | .wrongCount h =>
    refine .act_bind (f := fun w => (.ok (), w.record _)) ht rfl hnote fun m₁ hs₁ _ => ?_
    dsimp only
    rw [if_neg h]
    exact .throw hs₁
  | .closure h hbody =>
    refine .act_bind (f := fun w => (.ok (), w.record _)) ht rfl hnote fun m₁ hs₁ ht₁ => ?_
    dsimp only
    rw [if_pos h]
    exact .inFrame hs₁ ht₁ fun m₂ hs₂ ht₂ => hbody.attains m₂ hs₂ ht₂
  | .unnamed h =>
    rw [applyWith_bridge]
    refine .act ?_ ?_ <;> rw [World.applyBridge_of_target_error h]
    exact hnote
  | .unresolved h hf =>
    rw [applyWith_bridge]
    refine .act ?_ ?_ <;> rw [World.applyBridge_of_resolve_error h hf]
    exact hnote
  | .host h hf hreply =>
    rw [applyWith_bridge]
    exact .act (World.scene_callHost hs h hf hreply).1 (World.scene_callHost hs h hf hreply).2
  | .notCallable h =>
    refine .act_bind (f := fun w => (.ok (), w.record _)) ht rfl hnote fun m₁ hs₁ _ => ?_
    cases callee <;> first | exact .throw hs₁ | exact absurd rfl h

end

/-- The rules leave no choice: they derive one result, in one scene, after one number of visits. -/
theorem Evaluates.deterministic {bridge : Bridge σ} {code : Value} {frame : Nat}
    {s s₁ s₂ : Scene σ} {r₁ r₂ : Except EvalError Value} {c₁ c₂ : Cost}
    (h₁ : Evaluates bridge code frame s r₁ s₁ c₁) (h₂ : Evaluates bridge code frame s r₂ s₂ c₂) :
    r₁ = r₂ ∧ s₁ = s₂ ∧ c₁.visits = c₂.visits := by
  -- both derivations carry over to the same run, if its limits are wide enough for either
  let limits : Limits := ⟨c₁.visits + c₂.visits, 0, c₁.height + c₂.height⟩
  let m : Machine σ := ⟨.start limits fun _ => 0, s.world⟩
  have ht : m.guard.Timely := fun _ => Nat.le_refl 0
  have hc₁ : m.guard.Affords c₁ := by
    simp only [Guard.Affords, m, Guard.start, limits]; omega
  have hc₂ : m.guard.Affords c₂ := by
    simp only [Guard.Affords, m, Guard.start, limits]; omega
  obtain ⟨hr₁, hs₁, hg₁⟩ := h₁.attains m s.scene_world ht hc₁
  obtain ⟨hr₂, hs₂, hg₂⟩ := h₂.attains m s.scene_world ht hc₂
  have hvisits : 0 + c₁.visits = 0 + c₂.visits := congrArg Guard.operations (hg₁.symm.trans hg₂)
  exact ⟨hr₁.symm.trans hr₂, hs₁.symm.trans hs₂, by omega⟩

/-! ## From runs to derivations -/

/-- Unless the guard refuses, `x` ends as `R` says, at a cost that the guard can afford. -/
def Explained (R : Except EvalError α → Scene σ → Cost → Prop) (x : EvalM σ α) (m : Machine σ) :
    Prop :=
  ¬ Refused (x m).1 → ∃ c, R (x m).1 (x m).2.world.scene c ∧ m.guard.Affords c ∧
    (x m).2.guard = m.guard.spend c

namespace Explained

variable {R : Except EvalError α → Scene σ → Cost → Prop}
  {T : Except EvalError β → Scene σ → Cost → Prop} {x : EvalM σ α} {k : α → EvalM σ β}
  {m : Machine σ} {room : Nat}

theorem mono {R' : Except EvalError α → Scene σ → Cost → Prop} (h : Explained R x m)
    (hR : ∀ r s c, R r s c → R' r s c) : Explained R' x m := by
  intro hx
  obtain ⟨c, hc, ha, hg⟩ := h hx
  exact ⟨c, hR _ _ c hc, ha, hg⟩

theorem act {f : World σ → Except EvalError α × World σ} (hm : m.guard.Ready room)
    (h : R (f m.world).1 (f m.world).2.scene .none) : Explained R (tryOnWorld f) m :=
  fun _ => ⟨.none, h, hm.affords, rfl⟩

theorem pure {a : α} (hm : m.guard.Ready room) (h : R (.ok a) m.world.scene .none) :
    Explained R (pure a) m := act (f := fun w => (.ok a, w)) hm h

theorem throw {e : EvalError} (hm : m.guard.Ready room) (h : R (.error e) m.world.scene .none) :
    Explained R (throw e) m := act (f := fun w => (.error e, w)) hm h

theorem bind (hm : m.guard.Ready room) (hx : Explained R x m)
    (herror : ∀ e s c, R (.error e) s c → T (.error e) s c)
    (hok : ∀ a m₁ c, m₁.guard.Ready room → R (.ok a) m₁.world.scene c →
      Explained (fun r s c' => T r s (c.seq c')) (k a) m₁) : Explained T (x >>= k) m := by
  intro h
  rcases hr : x m with ⟨r, m₁⟩
  cases r with
  | error e =>
    rw [EvalM.bind_error hr] at h ⊢
    have hx := hx (by rw [hr]; exact fun hr => h hr.error)
    rw [hr] at hx
    obtain ⟨c, hc, ha, hg⟩ := hx
    exact ⟨c, herror e _ c hc, ha, hg⟩
  | ok a =>
    rw [EvalM.bind_ok hr] at h ⊢
    have hx := hx (by rw [hr]; exact not_refused_ok a)
    rw [hr] at hx
    obtain ⟨c, hc, ha, hg⟩ := hx
    obtain ⟨c', hc', ha', hg'⟩ := hok a m₁ c (hg ▸ hm.spend ha) hc h
    refine ⟨c.seq c', hc', Guard.affords_seq_iff.2 ⟨ha, hg ▸ ha'⟩, ?_⟩
    rw [hg', hg, Guard.spend_seq]

theorem bind_act {f : α → World σ → Except EvalError β × World σ} (hm : m.guard.Ready room)
    (hx : Explained R x m) (herror : ∀ e s c, R (.error e) s c → T (.error e) s c)
    (hok : ∀ a w c, R (.ok a) w.scene c → T (f a w).1 (f a w).2.scene c) :
    Explained T (x >>= fun a => tryOnWorld (f a)) m := by
  refine bind hm hx herror fun a m₁ c hm₁ h => act hm₁ ?_
  rw [Cost.seq_none]
  exact hok a m₁.world c h

theorem act_bind {f : World σ → Except EvalError α × World σ} (hm : m.guard.Ready room)
    (herror : ∀ e, (f m.world).1 = .error e → T (.error e) (f m.world).2.scene .none)
    (hok : ∀ a, (f m.world).1 = .ok a → Explained T (k a) ⟨m.guard, (f m.world).2⟩) :
    Explained T (tryOnWorld f >>= k) m := by
  intro h
  cases hf : (f m.world).1 with
  | error e =>
    have hrun : tryOnWorld f m = (.error e, ⟨m.guard, (f m.world).2⟩) := Prod.ext hf rfl
    rw [EvalM.bind_error hrun]
    exact ⟨.none, herror e hf, hm.affords, rfl⟩
  | ok a =>
    have hrun : tryOnWorld f m = (.ok a, ⟨m.guard, (f m.world).2⟩) := Prod.ext hf rfl
    rw [EvalM.bind_ok hrun] at h ⊢
    exact hok a hf h

theorem guarded {R : Except EvalError Value → Scene σ → Cost → Prop} {step : EvalM σ Value}
    {code : Value} {frame : Nat} (ht : m.guard.Timely)
    (hstep : ∀ m₁ : Machine σ, m₁.guard.room + 1 = m.guard.room →
      m₁.guard.Ready m₁.guard.room → m₁.world.scene = m.world.scene →
      Explained (fun r s c => R r s c.nest) step m₁) : Explained R (guarded code frame step) m := by
  intro h
  cases hr : m.guard.refusal? with
  | some why =>
    rw [guarded_of_refusal hr] at h
    exact absurd ⟨why, rfl⟩ h
  | none =>
    obtain ⟨hops, -, hdepth⟩ := Guard.refusal?_eq_none_iff.1 hr
    rw [guarded_of_admission hr] at h ⊢
    obtain ⟨c, hc, ⟨hvisits, hheight⟩, hg⟩ :=
      hstep (m.enter code frame) (room_enter code frame hr) ⟨rfl, ht, hops, hdepth⟩
        (m.scene_enter code frame) h
    simp only [Machine.enter] at hvisits hheight
    refine ⟨c.nest, ?_, ⟨?_, ?_⟩, ?_⟩
    · rw [Machine.scene_leave]; exact hc
    · simp only [Cost.nest]; omega
    · simp only [Cost.nest]; omega
    · rw [Machine.guard_leave_of_spend hg]

end Explained

section steps

variable {bridge : Bridge σ} {room : Nat}
  (hvisit : ∀ code frame (m : Machine σ), m.guard.Ready room →
    Explained (Evaluates bridge code frame m.world.scene) (eval bridge code frame) m)

include hvisit

theorem each_explained (frame : Nat) (es : List Value) (m : Machine σ)
    (hm : m.guard.Ready room) :
    Explained (EvaluatesEach bridge es frame m.world.scene) (Visit.each (eval bridge) frame es)
      m := by
  induction es generalizing m with
  | nil => exact .pure hm .nil
  | cons e es ih =>
    refine .bind hm (hvisit e frame m hm) (fun _ _ _ h => .firstFails h) fun v m₁ c hm₁ h => ?_
    exact .bind_act (f := fun vs w => (.ok (v :: vs), w)) hm₁ (ih m₁ hm₁)
      (fun _ _ _ hes => .restFails h hes) fun vs w c' hes => .cons h hes

theorem inFrame_explained (parent : Nat) (bindings : List (String × Value)) (body : Value)
    (m : Machine σ) (hm : m.guard.Ready room) :
    Explained (Evaluates bridge body m.world.store.nextFrame
      (m.world.scene.extend parent bindings)) (Visit.inFrame (eval bridge) parent bindings body)
      m := by
  refine .act_bind
    (f := fun w => (.ok (w.extend parent bindings).1, (w.extend parent bindings).2)) hm
    (fun e h => by cases h) fun frame h => ?_
  obtain rfl : m.world.store.nextFrame = frame := Except.ok.inj h
  have hbody := hvisit body m.world.store.nextFrame
    ⟨m.guard, (m.world.extend parent bindings).2⟩ hm
  rwa [World.scene_extend rfl] at hbody

theorem last_explained (frame : Nat) (first : Value) (rest : List Value) (m : Machine σ)
    (hm : m.guard.Ready room) :
    Explained (RunsForm bridge (.sequence first rest) frame m.world.scene)
      (Visit.last (eval bridge) frame first rest) m := by
  induction rest generalizing first m with
  | nil => exact (hvisit first frame m hm).mono fun _ _ _ h => .only h
  | cons e es ih =>
    refine .bind hm (hvisit first frame m hm) (fun _ _ _ h => .firstFails h)
      fun v m₁ c hm₁ h => ?_
    exact (ih e m₁ hm₁).mono fun _ _ _ h' => .next h h'

theorem form_explained (frame : Nat) (f : SpecialForm) (m : Machine σ)
    (hm : m.guard.Ready room) :
    Explained (RunsForm bridge f frame m.world.scene) (f.run (eval bridge) frame) m := by
  cases f with
  | quote datum => exact .pure hm .quote
  | branch condition consequent alternative =>
    refine .bind hm (hvisit condition frame m hm) (fun _ _ _ h => .conditionFails h)
      fun v m₁ c hm₁ h => ?_
    cases hv : v.truthy with
    | true =>
      rw [if_pos rfl]
      exact (hvisit consequent frame m₁ hm₁).mono fun _ _ _ h' => .consequent h hv h'
    | false =>
      rw [if_neg (by simp)]
      cases alternative with
      | some e => exact (hvisit e frame m₁ hm₁).mono fun _ _ _ h' => .alternative h hv h'
      | none =>
        refine .pure hm₁ ?_
        rw [Cost.seq_none]
        exact .noAlternative h hv
  | define name e =>
    refine .bind_act (f := fun v w => (.ok v, w.define frame name v)) hm (hvisit e frame m hm)
      (fun _ _ _ h => .definitionFails h) fun v w c h => ?_
    rw [World.scene_define rfl]
    exact .define h
  | assign name e =>
    refine .bind hm (hvisit e frame m hm) (fun _ _ _ h => .assignmentFails h)
      fun v m₁ c hm₁ h => ?_
    cases hname : m₁.world.store.get? frame name with
    | none =>
      obtain ⟨hr, hs⟩ := World.assign_of_unbound rfl hname v
      refine .act_bind hm₁ (fun e he => ?_) fun a ha => ?_
      · rw [hr] at he
        cases he
        rw [hs, Cost.seq_none]
        exact .assignUnbound h hname
      · rw [hr] at ha; cases ha
    | some old =>
      obtain ⟨hr, hs⟩ := World.assign_of_bound rfl hname v
      refine .act_bind hm₁ (fun e he => ?_) fun a ha => ?_
      · rw [hr] at he; cases he
      · refine .pure hm₁ ?_
        rw [hs, Cost.seq_none]
        exact .assign h hname
  | lambda params body =>
    refine .act_bind (f := (·.alloc (do return .ok (← fresh)))) hm (fun e h => by cases h)
      fun addr h => ?_
    obtain rfl : m.world.next = addr := Except.ok.inj h
    exact .pure hm .lambda
  | bind bindings body =>
    refine .bind hm (each_explained hvisit frame _ m hm) (fun _ _ _ h => .bindingFails h)
      fun vs m₁ c hm₁ h => ?_
    exact (inFrame_explained hvisit frame _ body m₁ hm₁).mono fun _ _ _ h' => .bind h h'
  | sequence first rest => exact last_explained hvisit frame first rest m hm

theorem apply_explained (callee : Value) (args : List Value) (m : Machine σ)
    (hm : m.guard.Ready room) :
    Explained (Calls bridge callee args m.world.scene) (applyWith bridge (eval bridge) callee args)
      m := by
  let m₁ : Machine σ := ⟨m.guard, m.world.record (.apply callee args)⟩
  have hs : m₁.world.scene = m.world.scene := World.scene_record rfl
  rw [← hs]
  cases callee with
  | bridge addr call =>
    rw [applyWith_bridge]
    refine .act hm ?_
    cases h : call.target args with
    | error e => rw [World.applyBridge_of_target_error h]; exact .unnamed h
    | ok asked =>
      cases hf : bridge.resolve asked.1 with
      | error e => rw [World.applyBridge_of_resolve_error h hf]; exact .unresolved h hf
      | ok f =>
        rw [(World.scene_callHost rfl h hf rfl).1, (World.scene_callHost rfl h hf rfl).2, hs]
        exact .host h hf rfl
  | builtin addr p =>
    refine .act_bind (f := fun w => (.ok (), w.record _)) hm (fun e h => by cases h) fun _ _ => ?_
    refine .act (m := m₁) hm ?_
    have halloc := World.scene_alloc (x := p.apply args) (w := m₁.world) rfl rfl
    rw [halloc.1, halloc.2]
    exact .builtin rfl
  | closure addr params body frame =>
    refine .act_bind (f := fun w => (.ok (), w.record _)) hm (fun e h => by cases h) fun _ _ => ?_
    dsimp only
    split
    · next h =>
      exact (inFrame_explained hvisit frame _ body m₁ hm).mono fun _ _ _ h' => .closure h h'
    · next h => exact .throw (m := m₁) hm (.wrongCount h)
  | _ =>
    refine .act_bind (f := fun w => (.ok (), w.record _)) hm (fun e h => by cases h) fun _ _ => ?_
    exact .throw (m := m₁) hm (.notCallable (by simp [Value.typeName]))

theorem step_explained (code : Value) (frame : Nat) (m : Machine σ) (hm : m.guard.Ready room) :
    Explained (fun r s c => Evaluates bridge code frame m.world.scene r s c.nest)
      (evalStep bridge (eval bridge) code frame) m := by
  rcases code.code_cases with h | ⟨name, rfl⟩ | ⟨addr, depth, form, operands, rfl⟩ |
    ⟨addr, depth, head, operands, h, rfl⟩
  · rw [evalStep_of_isConstant h]
    exact .pure hm (.constant h)
  · refine .act (f := fun w => (w.lookup frame name, w)) hm ?_
    cases hname : m.world.store.get? frame name with
    | none => rw [World.lookup_of_unbound rfl hname]; exact .unbound hname
    | some v => rw [World.lookup_of_bound rfl hname]; exact .bound hname
  · rcases SpecialForm.spells_or_faulty form operands with ⟨f, hf⟩ | ⟨fault, hfault⟩
    · rw [evalStep_of_spells hf]
      exact (form_explained hvisit frame f m hm).mono fun _ _ _ h => .special hf h
    · rw [evalStep_of_faulty hfault]
      exact .throw hm (.malformed hfault)
  · rw [evalStep_of_not_isReserved h]
    refine .bind hm (hvisit head frame m hm) (fun _ _ _ hhead => .headFails h hhead)
      fun callee m₁ c hm₁ hhead => ?_
    refine .bind hm₁ (each_explained hvisit frame operands m₁ hm₁)
      (fun _ _ _ hargs => .argumentFails h hhead hargs) fun args m₂ c' hm₂ hargs => ?_
    exact (apply_explained hvisit callee args m₂ hm₂).mono fun _ _ _ hcall =>
      .application h hhead hargs hcall

end steps

/-- By induction on the room: what a visit runs has less of it. -/
theorem eval_explained (bridge : Bridge σ) (code : Value) (frame : Nat) (m : Machine σ)
    (ht : m.guard.Timely) :
    Explained (Evaluates bridge code frame m.world.scene) (eval bridge code frame) m := by
  induction hroom : m.guard.room using Nat.strongRecOn generalizing code frame m with
  | ind room ih =>
    unfold Explained
    rw [eval_eq]
    refine Explained.guarded ht fun m₁ hlt hm₁ hs => ?_
    rw [← hs]
    refine step_explained (fun code frame m hm => ?_) code frame m₁ hm₁
    exact ih _ (by omega) code frame m hm.timely hm.room

/-! ## What the rules derive -/

theorem not_refused_of_target_error {call : BridgeCall} {args : List Value} {e : EvalError}
    (h : call.target args = .error e) : ¬ Refused (.error e : Except EvalError α) :=
  fun hr => not_refused_target call args (h ▸ hr.error)

theorem Primitive.not_refused_of_run {p : Primitive} {args : List Value} {next next' : Nat}
    {r : Except EvalError Value} (h : (p.apply args).run next = (r, next')) : ¬ Refused r := by
  obtain rfl : ((p.apply args).run next).1 = r := congrArg Prod.fst h
  exact (p.failsInternally_apply args next).not_refused

theorem Bridge.not_refused_outcome (target : HostTarget) (reply : HostReply) :
    ¬ Refused ((Bridge.outcome target reply).mapError EvalError.bridge) := by
  rintro ⟨why, h⟩
  cases reply <;> cases h

mutual

/-- No rule has a refusal for a result. -/
theorem Evaluates.not_refused {bridge : Bridge σ} {code : Value} {frame : Nat} {s s' : Scene σ}
    {r : Except EvalError Value} {c : Cost} (h : Evaluates bridge code frame s r s' c) :
    ¬ Refused r := by
  match h with
  | .constant _ | .bound _ => exact not_refused_ok _
  | .unbound _ | .malformed _ => rintro ⟨why, h⟩; cases h
  | .special _ hf => exact hf.not_refused
  | .headFails _ hhead => exact hhead.not_refused
  | .argumentFails _ _ hargs => exact fun h => hargs.not_refused h.error
  | .application _ _ _ hcall => exact hcall.not_refused

theorem EvaluatesEach.not_refused {bridge : Bridge σ} {es : List Value} {frame : Nat}
    {s s' : Scene σ} {r : Except EvalError (List Value)} {c : Cost}
    (h : EvaluatesEach bridge es frame s r s' c) : ¬ Refused r := by
  match h with
  | .nil | .cons .. => exact not_refused_ok _
  | .firstFails h => exact fun hr => h.not_refused hr.error
  | .restFails _ hes => exact hes.not_refused

theorem RunsForm.not_refused {bridge : Bridge σ} {f : SpecialForm} {frame : Nat} {s s' : Scene σ}
    {r : Except EvalError Value} {c : Cost} (h : RunsForm bridge f frame s r s' c) :
    ¬ Refused r := by
  match h with
  | .quote | .noAlternative .. | .define _ | .assign .. | .lambda => exact not_refused_ok _
  | .conditionFails h | .definitionFails h | .assignmentFails h | .firstFails h | .only h =>
    exact h.not_refused
  | .consequent _ _ h | .alternative _ _ h | .bind _ h => exact h.not_refused
  | .assignUnbound .. => rintro ⟨why, h⟩; cases h
  | .bindingFails h => exact fun hr => h.not_refused hr.error
  | .next _ hrest => exact hrest.not_refused

theorem Calls.not_refused {bridge : Bridge σ} {callee : Value} {args : List Value} {s s' : Scene σ}
    {r : Except EvalError Value} {c : Cost} (h : Calls bridge callee args s r s' c) :
    ¬ Refused r := by
  match h with
  | .builtin h => exact Primitive.not_refused_of_run h
  | .wrongCount _ | .unresolved .. | .notCallable _ => rintro ⟨why, h⟩; cases h
  | .closure _ hbody => exact hbody.not_refused
  | .unnamed h => exact not_refused_of_target_error h
  | .host .. => exact Bridge.not_refused_outcome _ _

end

/-! ## Adequacy -/

/-- **The guard changes no result.** Where time does not run out, an evaluation ends unrefused with
this result in this scene exactly if the rules derive it at a cost that stays within what is left of
both limits. Such an evaluation adds what it visits to the count and is back at its depth. -/
theorem eval_adequate (bridge : Bridge σ) (code : Value) (frame : Nat) (m : Machine σ)
    (hclock : ∀ visit, m.guard.clock visit ≤ m.guard.limits.timeout)
    (r : Except EvalError Value) (s : Scene σ) :
    (((eval bridge code frame m).1 = r ∧ (eval bridge code frame m).2.world.scene = s ∧
        ¬ Refused r) ↔
      ∃ c, Evaluates bridge code frame m.world.scene r s c ∧
        m.guard.operations + c.visits ≤ m.guard.limits.maxOperations ∧
        m.guard.depth + c.height ≤ m.guard.limits.maxDepth) ∧
    ∀ c, Evaluates bridge code frame m.world.scene r s c →
      m.guard.operations + c.visits ≤ m.guard.limits.maxOperations →
      m.guard.depth + c.height ≤ m.guard.limits.maxDepth →
      (eval bridge code frame m).2.guard =
        { m.guard with operations := m.guard.operations + c.visits } := by
  refine ⟨⟨?_, ?_⟩, ?_⟩
  · rintro ⟨rfl, rfl, hr⟩
    obtain ⟨c, hc, ha, -⟩ := eval_explained bridge code frame m hclock hr
    exact ⟨c, hc, ha.1, ha.2⟩
  · rintro ⟨c, hc, hops, hdepth⟩
    obtain ⟨hr, hs, -⟩ := hc.attains m rfl hclock ⟨hops, hdepth⟩
    exact ⟨hr, hs, hc.not_refused⟩
  · intro c hc hops hdepth
    exact (hc.attains m rfl hclock ⟨hops, hdepth⟩).2.2

/-- `(begin (def a "x") (quote b))` takes four operations and three levels. -/
theorem eval_adequate_define_then_quote :
    let code : Value := .list 2 2
      [.symbol "begin", .list 0 1 [.symbol "def", .symbol "a", .string "x"],
        .list 1 1 [.symbol "quote", .symbol "b"]]
    let m (operations depth : Nat) : Machine Unit :=
      ⟨.start ⟨operations, 0, depth⟩ fun _ => 0, ⟨Store.empty.addRoot [], 0, (), []⟩⟩
    (∃ c, Evaluates .empty code 0 (m 4 3).world.scene (.ok (.symbol "b"))
        (eval .empty code 0 (m 4 3)).2.world.scene c ∧ 0 + c.visits ≤ 4 ∧ 0 + c.height ≤ 3) ∧
      (eval .empty code 0 (m 3 3)).1 = .error (.refused .operations) ∧
      (eval .empty code 0 (m 4 2)).1 = .error (.refused .depth) := by
  refine ⟨?_, rfl, rfl⟩
  exact (eval_adequate .empty _ 0 _ (fun _ => Nat.le_refl 0) _ _).1.1
    ⟨rfl, rfl, not_refused_ok _⟩

end GuardedLisp
