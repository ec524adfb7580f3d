import GuardedLisp.Proofs.Discipline.Basic
import GuardedLisp.Proofs.Discipline.Primitive

/-!
# Evaluations keep disciplines

The rules follow the syntax: an action on the world, a call of the host, a visit,
and what is made of them. A whole evaluation, a call and a program keep every
discipline that the host functions within reach keep (`Discipline.eval_visits`).
-/

namespace GuardedLisp

open EvalM

variable {σ α β : Type}

namespace Discipline

variable {D : Discipline σ} {i : D.Stage}

/-! ## Actions on the world -/

section actions

variable {frame : Nat} {name : String} {v : Value} {bindings : List (String × Value)}

theorem keeps_lookup (name : String) :
    D.Keeps i (tryOnWorld fun w => (w.lookup frame name, w)) D.value := by
  refine .ofResult fun w hw v hv => ?_
  unfold World.lookup at hv
  split at hv
  · next hget => cases hv; exact hw.store.get? hget
  · cases hv

theorem keeps_extend {parent : Nat} (hparent : D.frame i parent)
    (hb : ∀ b ∈ bindings, D.value i b.2) :
    D.Keeps i (onWorld (·.extend parent bindings)) D.frame := by
  refine Keeps.act (f := fun w => (.ok (w.extend parent bindings).1, (w.extend parent bindings).2))
    fun w hw => ?_
  obtain ⟨j, hij, hrest, hframe⟩ := D.extend hw.rest hparent hb
  refine ⟨j, hij, ⟨?_, hrest⟩, fun _ h => by cases h; exact hframe⟩
  exact (hw.store.extend hb parent).imp fun _ => D.value_after hij

theorem keeps_define {c e : Value} (hf : D.frame i frame) (hv : D.value i v)
    (hc : D.visited i c frame) (hs : c.Says (.define name e)) :
    D.Keeps i (onWorld fun w => (v, w.define frame name v)) D.value :=
  Keeps.act (f := fun w => (.ok v, w.define frame name v)) fun w hw =>
    ⟨i, D.refl i, ⟨hw.store.define hv frame name, D.define hw.rest hf hv hc hs⟩,
      fun _ h => by cases h; exact hv⟩

theorem keeps_assign (hf : D.frame i frame) (hv : D.value i v) (name : String) :
    D.Keeps i (tryOnWorld (·.assign frame name v)) fun _ _ => True := by
  refine Keeps.act fun w hw => ⟨i, D.refl i, ?_, fun _ _ => trivial⟩
  by_cases hbound : w.store.contains frame name = true
  · refine ⟨?_, D.assign hw.rest hf hv hbound⟩
    rw [World.assign, if_pos hbound]
    exact hw.store.set hv frame name
  · rw [World.assign, if_neg hbound]
    exact hw

/-- A new value, made as it takes the next identity. -/
theorem keeps_make (make : Nat → Value)
    (h : ∀ n, (make n).NewAt n (D.value i) (D.code i) (D.frame i)) :
    D.Keeps i (tryOnWorld fun w => (.ok (make w.next), { w with next := w.next + 1 })) D.value := by
  refine Keeps.act fun w hw => ?_
  obtain ⟨j, hij, hrest, hv⟩ := D.make hw.rest (h w.next)
  exact ⟨j, hij, hw.after hij rfl hrest, fun _ h => by cases h; exact hv⟩

theorem value_of_drawn {args : List Value} (hargs : ∀ v ∈ args, D.value i v)
    (h : Primitive.Drawn args v) : D.value i v := by
  cases h with
  | atom h _ => exact D.atom h
  | arg h => exact hargs v h
  | item h hv => exact D.item (hargs _ h) v hv

theorem keeps_builtin (p : Primitive) {args : List Value} (hargs : ∀ v ∈ args, D.value i v) :
    D.Keeps i (tryOnWorld (·.alloc (p.apply args))) D.value := by
  refine Keeps.act fun w hw => ?_
  have hyields := p.apply_yields args w.next
  have halloc : w.alloc (p.apply args) =
      (((p.apply args).run w.next).1, { w with next := ((p.apply args).run w.next).2 }) := rfl
  rw [halloc]
  generalize (p.apply args).run w.next = r at hyields ⊢
  cases hyields with
  | error e => exact ⟨i, D.refl i, ⟨hw.store, hw.rest⟩, fun _ h => by cases h⟩
  | given hv =>
    exact ⟨i, D.refl i, ⟨hw.store, hw.rest⟩, fun _ h => by cases h; exact value_of_drawn hargs hv⟩
  | list hitems =>
    obtain ⟨j, hij, hrest, hv⟩ := D.make hw.rest
      (.list fun v hv => value_of_drawn hargs (hitems v hv))
    exact ⟨j, hij, hw.after hij rfl hrest, fun _ h => by cases h; exact hv⟩

end actions

/-! ## Calls into the host -/

section host

variable {bridge : Bridge σ} {args : List Value}

theorem keeps_applyBridge (hbridge : D.Bridges bridge) (addr : Nat) (call : BridgeCall)
    (hargs : ∀ v ∈ args, D.value i v) :
    D.Keeps i (tryOnWorld (World.applyBridge bridge addr call args)) D.value := by
  refine Keeps.act fun w hw => ?_
  have hnoted : D.World i (w.record (.apply (.bridge addr call) args)) :=
    ⟨hw.store, D.idle hw.rest trivial⟩
  cases ht : call.target args with
  | error e =>
    rw [World.applyBridge_of_target_error ht]
    exact ⟨i, D.refl i, hnoted, fun _ h => by cases h⟩
  | ok asked =>
    obtain ⟨target, rest⟩ := asked
    cases hr : bridge.resolve target with
    | error e =>
      rw [World.applyBridge_of_resolve_error ht hr]
      exact ⟨i, D.refl i, hnoted, fun _ h => by cases h⟩
    | ok f =>
      rw [World.applyBridge_of_resolve_ok ht hr]
      obtain ⟨j, hij, hrest, hreply⟩ := hbridge target f hr i _ rest hnoted.rest
        fun v hv => hargs v (BridgeCall.mem_args_of_target ht v hv)
      refine ⟨j, hij, hw.after hij rfl hrest, fun v hv => hreply v ?_⟩
      dsimp only [World.record] at hv ⊢
      cases hout : (((f rest).run w.host).run w.next).1.1 with
      | value u => rw [hout] at hv; cases hv; rfl
      | failure message => rw [hout] at hv; cases hv
      | crash message => rw [hout] at hv; cases hv
      | raise report => rw [hout] at hv; cases hv

end host

/-! ## Steps -/

variable (D) in
/-- An evaluator that keeps the discipline, over a bridge that does. -/
structure Visits (bridge : Bridge σ) (visit : Visit σ) : Prop where
  bridge : D.Bridges bridge
  visit : ∀ i c f, D.code i c → D.frame i f → D.Keeps i (visit c f) D.value

namespace Visits

variable {bridge : Bridge σ} {visit : Visit σ} {frame : Nat} {e body : Value}
  {es args : List Value} {bindings : List (String × Value)}

theorem each (h : D.Visits bridge visit) (hf : D.frame i frame) (hes : ∀ e ∈ es, D.code i e) :
    D.Keeps i (visit.each frame es) fun j vs => ∀ v ∈ vs, D.value j v := by
  induction es generalizing i with
  | nil => exact .pure (by simp)
  | cons e es ih =>
    refine .bind (h.visit i e frame (hes e List.mem_cons_self) hf) fun j hij v hv => ?_
    refine .bind (ih (D.frame_after hij hf) fun e he =>
      D.code_after hij (hes e (List.mem_cons_of_mem _ he))) fun k hjk vs hvs => ?_
    exact .pure (List.forall_mem_cons.2 ⟨D.value_after hjk hv, hvs⟩)

theorem last (h : D.Visits bridge visit) (hf : D.frame i frame)
    (hes : ∀ e' ∈ e :: es, D.code i e') : D.Keeps i (visit.last frame e es) D.value := by
  induction es generalizing i e with
  | nil => exact h.visit i e frame (hes e List.mem_cons_self) hf
  | cons e' es ih =>
    refine .bind (h.visit i e frame (hes e List.mem_cons_self) hf) fun j hij _ _ => ?_
    exact ih (D.frame_after hij hf) fun e he => D.code_after hij (hes e (List.mem_cons_of_mem _ he))

theorem inFrame (h : D.Visits bridge visit) (hf : D.frame i frame)
    (hb : ∀ b ∈ bindings, D.value i b.2) (hbody : D.code i body) :
    D.Keeps i (visit.inFrame frame bindings body) D.value :=
  .bind (keeps_extend hf hb) fun j hij new hnew => h.visit j body new (D.code_after hij hbody) hnew

theorem values_zip {names : List String} {vs : List Value} (hvs : ∀ v ∈ vs, D.value i v) :
    ∀ b ∈ names.zip vs, D.value i b.2 := fun _ hb => hvs _ (List.of_mem_zip hb).2

theorem apply (h : D.Visits bridge visit) (he : D.value i e) (hargs : ∀ v ∈ args, D.value i v) :
    D.Keeps i (applyWith bridge visit e args) D.value := by
  have hnote {x : EvalM σ Value} (hx : ∀ j, D.After i j → D.Keeps j x D.value) :
      D.Keeps i (EvalM.note (.apply e args) >>= fun _ => x) D.value :=
    .bind (.note trivial) fun j hij _ _ => hx j hij
  cases e with
  | bridge addr call =>
    rw [applyWith_bridge]
    exact keeps_applyBridge h.bridge addr call hargs
  | builtin addr p =>
    exact hnote fun j hij => keeps_builtin p fun v hv => D.value_after hij (hargs v hv)
  | closure addr params body frame =>
    obtain ⟨hbody, hframe⟩ := D.body he
    by_cases hn : params.length = args.length
    · simp only [applyWith, hn, if_true]
      exact hnote fun j hij => h.inFrame (D.frame_after hij hframe)
        (values_zip fun v hv => D.value_after hij (hargs v hv)) (D.code_after hij hbody)
    · simp only [applyWith, hn, if_false]
      exact hnote fun j _ => .throw _
  | _ => exact hnote fun j _ => .throw _

/-- A form that was visited in the frame. -/
theorem form (h : D.Visits bridge visit) {c : Value} {f : SpecialForm} (hc : D.code i c)
    (hvisited : D.visited i c frame) (hf : D.frame i frame) (hs : c.Says f) :
    D.Keeps i (f.run visit frame) D.value := by
  have hcode {e : Value} (he : f.Holds e) : D.code i e := D.subform hc (.held hs he)
  cases f with
  | quote datum =>
    obtain ⟨addr, depth, items, rfl, hdatum⟩ := hs.quoted
    exact .pure (D.item (D.data hc) datum hdatum)
  | branch condition consequent alternative =>
    refine .bind (h.visit i _ frame (hcode (.condition ..)) hf) fun j hij v hv => ?_
    have hf := D.frame_after hij hf
    split
    · exact h.visit j _ frame (D.code_after hij (hcode (.consequent ..))) hf
    · cases alternative with
      | none => exact .pure (D.atom trivial)
      | some e => exact h.visit j e frame (D.code_after hij (hcode (.alternative ..))) hf
  | define name e =>
    refine .bind (h.visit i e frame (hcode (.defined ..)) hf) fun j hij v hv => ?_
    exact keeps_define (D.frame_after hij hf) hv (D.visited_after hij hvisited) hs
  | assign name e =>
    refine .bind (h.visit i e frame (hcode (.assigned ..)) hf) fun j hij v hv => ?_
    refine .bind (keeps_assign (D.frame_after hij hf) hv name) fun k hjk _ _ => ?_
    exact .pure (D.value_after hjk hv)
  | lambda params body =>
    exact keeps_make (.closure · params body frame) fun n =>
      .closure params (hcode (.body ..)) hf
  | bind bindings body =>
    have hinits (e : Value) (he : e ∈ bindings.map Prod.snd) : D.code i e := by
      obtain ⟨b, hb, rfl⟩ := List.mem_map.1 he
      exact hcode (.init hb body)
    refine .bind (h.each hf hinits) fun j hij vs hvs => ?_
    exact h.inFrame (D.frame_after hij hf) (values_zip hvs)
      (D.code_after hij (hcode (.bindBody ..)))
  | sequence first rest => exact h.last hf fun e he => hcode (.item he)

theorem step (h : D.Visits bridge visit) {c : Value} (hc : D.code i c)
    (hvisited : D.visited i c frame) (hf : D.frame i frame) :
    D.Keeps i (evalStep bridge visit c frame) D.value := by
  rcases c.code_cases with hconst | ⟨name, rfl⟩ | ⟨addr, depth, form, operands, rfl⟩ |
    ⟨addr, depth, head, operands, hhead, rfl⟩
  · rw [evalStep_of_isConstant hconst]
    exact .pure (D.data hc)
  · exact keeps_lookup name
  · rcases SpecialForm.spells_or_faulty form operands with ⟨f, hspells⟩ | ⟨fault, hfaulty⟩
    · rw [evalStep_of_spells hspells]
      exact h.form hc hvisited hf (.intro addr depth hspells)
    · rw [evalStep_of_faulty hfaulty]
      exact .throw _
  · rw [evalStep_of_not_isReserved hhead]
    have hitem {e : Value} (he : e ∈ head :: operands) : D.code i e :=
      D.subform hc (.item hhead he)
    refine .bind (h.visit i head frame (hitem List.mem_cons_self) hf) fun j hij callee hcallee => ?_
    refine .bind (h.each (D.frame_after hij hf) fun e he =>
      D.code_after hij (hitem (List.mem_cons_of_mem _ he))) fun k hjk args hargs => ?_
    exact h.apply (D.value_after hjk hcallee) hargs

end Visits

/-! ## Visits -/

section visits

variable {bridge : Bridge σ} {c : Value} {frame : Nat}

theorem keeps_guarded {step : EvalM σ Value} (hc : D.code i c) (hf : D.frame i frame)
    (hstep : ∀ j, D.After i j → D.visited j c frame → D.Keeps j step D.value) :
    D.Keeps i (guarded c frame step) D.value := by
  intro m hw
  obtain ⟨j, hij, hrest, hvisited⟩ := D.visit hw.rest hc hf
  have hnoted : D.World j (m.world.record (.visit c frame)) := hw.after hij rfl hrest
  cases hr : m.guard.refusal? with
  | some why =>
    rw [guarded_of_refusal hr]
    exact ⟨j, hij, hnoted, fun _ h => by cases h⟩
  | none =>
    rw [guarded_of_admission hr]
    have hentered : D.World j (m.enter c frame).world := ⟨hnoted.store, D.idle hnoted.rest trivial⟩
    obtain ⟨k, hjk, hw', hresult⟩ := hstep j hij hvisited (m.enter c frame) hentered
    exact ⟨k, D.trans hij hjk, ⟨hw'.store, D.idle hw'.rest trivial⟩, hresult⟩

theorem evalWithin_visits (hbridge : D.Bridges bridge) (room : Nat) :
    D.Visits bridge (evalWithin bridge room) := by
  induction room with
  | zero => exact ⟨hbridge, fun i c f hc hf => keeps_guarded hc hf fun _ _ _ => .throw _⟩
  | succ room ih =>
    exact ⟨hbridge, fun i c f hc hf => keeps_guarded hc hf fun j hij hvisited =>
      ih.step (D.code_after hij hc) hvisited (D.frame_after hij hf)⟩

/-- **Evaluations keep every discipline.** -/
theorem eval_visits (hbridge : D.Bridges bridge) : D.Visits bridge (eval bridge) :=
  ⟨hbridge, fun i c f hc hf m => (evalWithin_visits hbridge m.guard.room).visit i c f hc hf m⟩

theorem keeps_apply (hbridge : D.Bridges bridge) {callee : Value} {args : List Value}
    (hcallee : D.value i callee) (hargs : ∀ v ∈ args, D.value i v) :
    D.Keeps i (apply bridge callee args) D.value :=
  fun m => (evalWithin_visits hbridge m.guard.room).apply hcallee hargs m

theorem keeps_evalProgram (hbridge : D.Bridges bridge) (hf : D.frame i frame)
    {program : List Value} (hprogram : ∀ e ∈ program, D.code i e) :
    D.Keeps i (evalProgram bridge frame program) D.value := by
  cases program with
  | nil => exact .pure (D.atom trivial)
  | cons e es => exact (eval_visits hbridge).last hf hprogram

end visits

end Discipline

end GuardedLisp
