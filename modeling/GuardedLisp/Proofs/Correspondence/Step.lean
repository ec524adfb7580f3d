import GuardedLisp.Proofs.Correspondence.Form
import GuardedLisp.Proofs.Correspondence.Primitive
import GuardedLisp.Proofs.Correspondence.Store
import GuardedLisp.Proofs.Reading
import GuardedLisp.Proofs.Visit

/-!
# Evaluations in lockstep

Expressions that correspond, evaluated in worlds that do under one guard, come to
results that correspond, and leave the guards equal and the worlds in
correspondence. The events on the way correspond, and frames that stand for none
are left alone (`Ends`). The rules follow the syntax: an action on the world, a
visit, a sequence, and what is made of them. If the host breaks the correspondence
it stays broken, and nothing is said of the rest.
-/

namespace GuardedLisp

open EvalM

variable {σ σ' α β γ δ : Type}

/-- The same event, about related values and frames. -/
inductive Event.Kin (R : Value → Value → Prop) (F : Nat → Nat → Prop) : Event → Event → Prop where
  | visit {code code' : Value} {frame frame' : Nat} (hc : R code code') (hf : F frame frame') :
    Kin R F (.visit code frame) (.visit code' frame')
  | enter : Kin R F .enter .enter
  | leave : Kin R F .leave .leave
  | apply {callee callee' : Value} {args args' : List Value} (hc : R callee callee')
    (hargs : List.Forall₂ R args args') : Kin R F (.apply callee args) (.apply callee' args')
  | extend {parent parent' : Nat} {bindings bindings' : List (String × Value)}
    (hp : F parent parent') (hb : List.Forall₂ (BindingKin R) bindings bindings') :
    Kin R F (.extend parent bindings) (.extend parent' bindings')
  | define {frame frame' : Nat} {name : String} {v v' : Value} (hf : F frame frame')
    (hv : R v v') : Kin R F (.define frame name v) (.define frame' name v')
  | assign {frame frame' : Nat} {name : String} {v v' : Value} (hf : F frame frame')
    (hv : R v v') : Kin R F (.assign frame name v) (.assign frame' name v')
  | callHost {target : HostTarget} {args args' : List Value} (hargs : List.Forall₂ R args args') :
    Kin R F (.callHost target args) (.callHost target args')

namespace Correspondence

/-! ## Worlds -/

/-- Worlds at the same point. -/
structure Worlds (C : Correspondence σ σ') (w : World σ) (w' : World σ') : Prop where
  store : C.Stores w.store w'.store
  supply : C.supply w.next w'.next
  host : C.host w.host w'.host

/-- From `w` and `w'` two evaluations came, by events that correspond, to worlds `k` and `k'` that
correspond. -/
structure Passage (C : Correspondence σ σ') (w : World σ) (w' : World σ') (k : World σ)
    (k' : World σ') : Prop where
  worlds : C.Worlds k k'
  events : ∃ es es', k.journal = es ++ w.journal ∧ k'.journal = es' ++ w'.journal ∧
    List.Forall₂ (Event.Kin C.value C.frame) es es'
  untouched : C.Untouched w.store k.store

variable {C : Correspondence σ σ'}

namespace Passage

variable {w k l : World σ} {w' k' l' : World σ'}

theorem trans (h : C.Passage w w' k k') (h' : C.Passage k k' l l') : C.Passage w w' l l' := by
  obtain ⟨es, es', hes, hes', hevents⟩ := h.events
  obtain ⟨fs, fs', hfs, hfs', hevents'⟩ := h'.events
  refine ⟨h'.worlds, ⟨fs ++ es, fs' ++ es', ?_, ?_, List.rel_append hevents' hevents⟩,
    h.untouched.trans h'.untouched⟩
  · rw [hfs, hes, List.append_assoc]
  · rw [hfs', hes', List.append_assoc]

end Passage

theorem Worlds.refl_passage {w : World σ} {w' : World σ'} (h : C.Worlds w w') :
    C.Passage w w' w w' := ⟨h, ⟨[], [], rfl, rfl, .nil⟩, .refl _⟩

/-- One event, and what it did to the scopes. -/
theorem Worlds.passage {w : World σ} {w' : World σ'} {e e' : Event} {s : Store} {s' : Store}
    {n n' : Nat} {host : σ} {host' : σ'} (he : e.Kin C.value C.frame e') (hs : C.Stores s s')
    (hn : C.supply n n') (hh : C.host host host') (hu : C.Untouched w.store s) :
    C.Passage w w' ⟨s, n, host, e :: w.journal⟩ ⟨s', n', host', e' :: w'.journal⟩ :=
  ⟨⟨hs, hn, hh⟩, ⟨[e], [e'], rfl, rfl, .cons he .nil⟩, hu⟩

theorem Worlds.record {w : World σ} {w' : World σ'} (h : C.Worlds w w') {e e' : Event}
    (he : e.Kin C.value C.frame e') : C.Passage w w' (w.record e) (w'.record e') :=
  passage he h.store h.supply h.host (.refl _)

/-! ## Computations -/

variable (C) in
/-- How two evaluations end that ran in lockstep. -/
structure Ends (R : α → β → Prop) (m : Machine σ) (m' : Machine σ')
    (p : Except EvalError α × Machine σ) (p' : Except EvalError β × Machine σ') : Prop where
  result : C.Results R p.1 p'.1
  guard : p.2.guard = p'.2.guard
  passage : C.Passage m.world m'.world p.2.world p'.2.world

variable (C) in
/-- Under one guard, in worlds that correspond, `x` and `x'` run in lockstep. -/
def Lockstep (R : α → β → Prop) (x : EvalM σ α) (x' : EvalM σ' β) : Prop :=
  ∀ m m', m.guard = m'.guard → C.Worlds m.world m'.world →
    C.broken (x' m').2.world.host ∨ C.Ends R m m' (x m) (x' m')

variable (C) in
/-- What is broken stays broken. -/
def Keeps (x' : EvalM σ' β) : Prop :=
  ∀ m, C.broken m.world.host → C.broken (x' m).2.world.host

namespace Lockstep

variable {R : α → β → Prop} {S : γ → δ → Prop}

/-- An action that leaves the host alone. -/
theorem act {f : World σ → Except EvalError α × World σ}
    {g : World σ' → Except EvalError β × World σ'}
    (h : ∀ w w', C.Worlds w w' →
      C.Results R (f w).1 (g w').1 ∧ C.Passage w w' (f w).2 (g w').2) :
    C.Lockstep R (tryOnWorld f) (tryOnWorld g) := by
  intro m m' hg hw
  obtain ⟨hr, hp⟩ := h m.world m'.world hw
  exact .inr ⟨hr, hg, hp⟩

theorem ofResult {r : Except EvalError α} {r' : Except EvalError β} (h : C.Results R r r') :
    C.Lockstep R (tryOnWorld fun w => (r, w)) (tryOnWorld fun w => (r', w)) :=
  act fun _ _ hw => ⟨h, hw.refl_passage⟩

theorem pure {a : α} {b : β} (h : R a b) :
    C.Lockstep R (pure a : EvalM σ α) (pure b : EvalM σ' β) := ofResult (.ok h)

theorem throw {e e' : EvalError} (h : C.Errors e e') :
    C.Lockstep R (throw e : EvalM σ α) (throw e' : EvalM σ' β) := ofResult (.error h)

theorem alloc {x : AllocM (Except EvalError α)} {y : AllocM (Except EvalError β)}
    (h : C.Allocations (C.Results R) x y) :
    C.Lockstep R (tryOnWorld (·.alloc x)) (tryOnWorld (·.alloc y)) := by
  refine act fun w w' hw => ?_
  obtain ⟨hr, hn⟩ := h w.next w'.next hw.supply
  exact ⟨hr, ⟨hw.store, hn, hw.host⟩, ⟨[], [], rfl, rfl, .nil⟩, .refl _⟩

/-- The second part runs on results that correspond, unless the first part broke the
correspondence; then nothing is known of its results, and it has to be kept broken by any second
part. -/
theorem bind {x : EvalM σ α} {x' : EvalM σ' β} {f : α → EvalM σ γ} {f' : β → EvalM σ' δ}
    (hx : C.Lockstep R x x') (hf : ∀ a b, R a b → C.Lockstep S (f a) (f' b))
    (hk : ∀ b, C.Keeps (f' b)) : C.Lockstep S (x >>= f) (x' >>= f') := by
  intro m m' hg hw
  rcases hxm : x m with ⟨r, k⟩
  rcases hxm' : x' m' with ⟨r', k'⟩
  rcases hx m m' hg hw with hbroken | hends
  · left
    rw [hxm'] at hbroken
    cases r' with
    | error e => rw [bind_error hxm']; exact hbroken
    | ok b => rw [bind_ok hxm']; exact hk b k' hbroken
  · obtain ⟨hr, hg', hp⟩ := hends
    rw [hxm, hxm'] at hr hg' hp
    cases hr with
    | error he => rw [bind_error hxm, bind_error hxm']; exact .inr ⟨.error he, hg', hp⟩
    | ok hab =>
      rw [bind_ok hxm, bind_ok hxm']
      exact (hf _ _ hab k k' hg' hp.worlds).imp id fun hends =>
        ⟨hends.result, hends.guard, hp.trans hends.passage⟩

end Lockstep

/-! ## Actions on the world -/

section actions

variable {frame frame' : Nat} {name : String} {v v' : Value}

theorem note_alike {e e' : Event} (he : e.Kin C.value C.frame e') :
    C.Lockstep Eq (note e : EvalM σ Unit) (note e') :=
  Lockstep.act (f := fun w => (.ok (), w.record e)) (g := fun w => (.ok (), w.record e'))
    fun _ _ hw => ⟨.ok rfl, hw.record he⟩

theorem lookup_alike (hf : C.frame frame frame') (name : String) :
    C.Lockstep C.value (tryOnWorld fun w => (w.lookup frame name, w))
      (tryOnWorld fun w => (w.lookup frame' name, w)) := by
  refine Lockstep.act fun w w' hw => ⟨?_, hw.refl_passage⟩
  have hget := hw.store.get?_alike hf name
  unfold World.lookup
  generalize w.store.get? frame name = v at hget ⊢
  generalize w'.store.get? frame' name = v' at hget ⊢
  cases hget with
  | none => exact .error (.undefinedVariable name)
  | some hv => exact .ok hv

theorem extend_alike (hf : C.frame frame frame') {bindings bindings' : List (String × Value)}
    (hb : List.Forall₂ (BindingKin C.value) bindings bindings') :
    C.Lockstep C.frame (onWorld (·.extend frame bindings)) (onWorld (·.extend frame' bindings')) :=
  Lockstep.act (f := fun w => (.ok (w.extend frame bindings).1, (w.extend frame bindings).2))
    (g := fun w => (.ok (w.extend frame' bindings').1, (w.extend frame' bindings').2))
    fun _ _ hw => ⟨.ok hw.store.next, Worlds.passage (.extend hf hb) (hw.store.extend hf hb)
      hw.supply hw.host (.add hw.store _)⟩

theorem define_alike (hf : C.frame frame frame') (name : String) (hv : C.value v v') :
    C.Lockstep C.value (onWorld fun w => (v, w.define frame name v))
      (onWorld fun w => (v', w.define frame' name v')) :=
  Lockstep.act (f := fun w => (.ok v, w.define frame name v))
    (g := fun w => (.ok v', w.define frame' name v'))
    fun _ _ hw => ⟨.ok hv, Worlds.passage (.define hf hv) (hw.store.define hf name hv)
      hw.supply hw.host (.modify hf _)⟩

theorem assign_alike (hf : C.frame frame frame') (name : String) (hv : C.value v v') :
    C.Lockstep Eq (tryOnWorld (·.assign frame name v)) (tryOnWorld (·.assign frame' name v')) := by
  refine Lockstep.act fun w w' hw => ?_
  unfold World.assign
  rw [hw.store.contains_eq hf name]
  split
  · exact ⟨.ok rfl, Worlds.passage (.assign hf hv) (hw.store.set hf name hv) hw.supply hw.host
      (.set hw.store hf name v)⟩
  · exact ⟨.error (.undefinedVariable name), hw.refl_passage⟩

end actions

/-! ## Calls into the host -/

section host

variable {b : Bridge σ} {b' : Bridge σ'} {args args' : List Value}

theorem hostName_alike (call : BridgeCall) (what : HostName) {v v' : Option Value}
    (h : Option.Rel C.value v v') :
    C.Results Eq (hostName call what v) (hostName call what v') := by
  cases h with
  | none => exact .error (.arity _)
  | some hv =>
    cases C.kin hv with
    | string s => exact .ok rfl
    | _ => exact .error (.type (.hostName hv))

theorem getElem?_alike (h : C.Values args args') (i : Nat) :
    Option.Rel C.value args[i]? args'[i]? := by
  induction h generalizing i with
  | nil => simp
  | cons hv _ ih =>
    cases i with
    | zero => simpa using hv
    | succ i => simpa using ih i

/-- What is asked for, and the other arguments. -/
theorem target_alike (call : BridgeCall) (h : C.Values args args') :
    C.Results (fun a a' => a.1 = a'.1 ∧ C.Values a.2 a'.2) (call.target args)
      (call.target args') := by
  cases call with
  | function =>
    refine (hostName_alike _ _ (getElem?_alike h 0)).bind fun name _ hname => ?_
    subst hname
    exact .ok ⟨rfl, List.forall₂_drop 1 h⟩
  | member =>
    refine (hostName_alike _ _ (getElem?_alike h 0)).bind fun owner _ howner => ?_
    refine (hostName_alike _ _ (getElem?_alike h 1)).bind fun name _ hname => ?_
    subst howner hname
    exact .ok ⟨rfl, List.forall₂_drop 2 h⟩
  | custom => exact .ok ⟨rfl, h⟩

theorem outcome_alike (target : HostTarget) {r r' : HostReply} (h : r.Kin C.value r') :
    C.Results C.value ((Bridge.outcome target r).mapError .bridge)
      ((Bridge.outcome target r').mapError .bridge) := by
  cases h with
  | value hv => exact .ok hv
  | failure message => exact .error (.bridge _)
  | crash message => exact .error (.bridge _)
  | raise report => exact .error (.bridge _)

/-- A bridge procedure runs host functions that reply alike, or none in either evaluation. -/
theorem applyBridge_alike (hb : C.Bridges b b') (addr addr' : Nat) (call : BridgeCall)
    (hc : C.value (.bridge addr call) (.bridge addr' call)) (h : C.Values args args') :
    C.Lockstep C.value (tryOnWorld (World.applyBridge b addr call args))
      (tryOnWorld (World.applyBridge b' addr' call args')) := by
  intro m m' hg hw
  rw [tryOnWorld_apply, tryOnWorld_apply]
  have hnote := hw.record (.apply hc h)
  have htarget := target_alike call h
  cases ht : call.target args <;> cases ht' : call.target args' <;> rw [ht, ht'] at htarget <;>
    cases htarget
  · next he =>
    rw [World.applyBridge_of_target_error ht, World.applyBridge_of_target_error ht']
    exact .inr ⟨.error he, hg, hnote⟩
  · next asked asked' hasked =>
    obtain ⟨target, rest⟩ := asked
    obtain ⟨target', rest'⟩ := asked'
    obtain ⟨htarget, hrest⟩ := hasked
    cases htarget
    have hresolve := hb target
    cases hr : b.resolve target <;> cases hr' : b'.resolve target <;> rw [hr, hr'] at hresolve <;>
      cases hresolve
    · next he =>
      subst he
      rw [World.applyBridge_of_resolve_error ht hr, World.applyBridge_of_resolve_error ht' hr']
      exact .inr ⟨.error (.bridge _), hg, hnote⟩
    · next hfs =>
      rw [World.applyBridge_of_resolve_ok ht hr, World.applyBridge_of_resolve_ok ht' hr']
      refine (hfs.alike rest rest' _ _ _ _ hrest hw.host hw.supply).imp id
        fun ⟨hreply, hhost, hsupply⟩ => ⟨outcome_alike target hreply, hg, ?_⟩
      exact hnote.trans (Worlds.passage (.callHost hrest) hw.store hsupply hhost (.refl _))

/-! ## What is broken -/

theorem applyBridge_keeps (hb : C.Bridges b b') (addr : Nat) (call : BridgeCall)
    (args : List Value) : C.Keeps (tryOnWorld (World.applyBridge b' addr call args)) := by
  intro m hm
  rw [tryOnWorld_apply]
  cases ht : call.target args with
  | error e => rw [World.applyBridge_of_target_error ht]; exact hm
  | ok asked =>
    have hresolve := hb asked.1
    cases hr : b'.resolve asked.1 with
    | error e => rw [World.applyBridge_of_resolve_error ht hr]; exact hm
    | ok f =>
      rw [World.applyBridge_of_resolve_ok ht hr]
      rw [hr] at hresolve
      generalize b.resolve asked.1 = r at hresolve
      cases hresolve with
      | ok hfs => exact hfs.broken _ _ _ hm

/-- No step mends what is broken. -/
theorem stepwise_keeps (hb : C.Bridges b b') {visit visit' : Visit σ'} {x y : EvalM σ' β}
    (hvisit : ∀ code frame, C.Keeps (visit code frame)) (h : Stepwise b' visit visit' x y) :
    C.Keeps x := by
  induction h with
  | quiet hf => intro m hm; rw [tryOnWorld_apply, hf.host]; exact hm
  | call addr call args => exact applyBridge_keeps hb addr call args
  | visit code frame => exact hvisit code frame
  | bind _ _ ihx ihf =>
    intro m hm
    refine bind_cases (P := fun p => C.broken p.2.world.host) (fun e k he => ?_) (fun a k ha => ?_)
    · have := ihx m hm; rwa [he] at this
    · have := ihx m hm; rw [ha] at this
      exact ihf a k this

end host

/-! ## Steps -/

variable (C) in
/-- Evaluators that run in lockstep, over bridges that correspond. -/
structure Visits (b : Bridge σ) (b' : Bridge σ') (visit : Visit σ) (visit' : Visit σ') : Prop where
  bridges : C.Bridges b b'
  keeps : ∀ code frame, C.Keeps (visit' code frame)
  alike : ∀ code code' frame frame', C.value code code' → C.frame frame frame' →
    C.Lockstep C.value (visit code frame) (visit' code' frame')

namespace Visits

variable {b : Bridge σ} {b' : Bridge σ'} {visit : Visit σ} {visit' : Visit σ'} {frame frame' : Nat}
  {e e' : Value} {es es' args args' : List Value}

theorem stepwise_keeps (h : C.Visits b b' visit visit') {x y : EvalM σ' β}
    (hx : Stepwise b' visit' visit' x y) : C.Keeps x :=
  Correspondence.stepwise_keeps h.bridges h.keeps hx

theorem each (h : C.Visits b b' visit visit') (hf : C.frame frame frame')
    (hes : C.Values es es') :
    C.Lockstep C.Values (visit.each frame es) (visit'.each frame' es') := by
  induction hes with
  | nil => exact .pure .nil
  | cons he _ ih =>
    refine .bind (h.alike _ _ _ _ he hf) (fun v v' hv => ?_) fun v' =>
      h.stepwise_keeps (.bind (.each frame' _) fun vs => .pure (v' :: vs))
    exact .bind ih (fun _ _ hvs => .pure (.cons hv hvs)) fun _ => h.stepwise_keeps (.pure _)

theorem last (h : C.Visits b b' visit visit') (hf : C.frame frame frame') (he : C.value e e')
    (hes : C.Values es es') :
    C.Lockstep C.value (visit.last frame e es) (visit'.last frame' e' es') := by
  induction hes generalizing e e' with
  | nil => exact h.alike _ _ _ _ he hf
  | cons he' _ ih =>
    exact .bind (h.alike _ _ _ _ he hf) (fun _ _ _ => ih he') fun _ =>
      h.stepwise_keeps (.last frame' _ _)

theorem inFrame (h : C.Visits b b' visit visit') (hf : C.frame frame frame')
    {bindings bindings' : List (String × Value)}
    (hb : List.Forall₂ (BindingKin C.value) bindings bindings') (he : C.value e e') :
    C.Lockstep C.value (visit.inFrame frame bindings e) (visit'.inFrame frame' bindings' e') :=
  .bind (extend_alike hf hb) (fun _ _ hnew => h.alike _ _ _ _ he hnew) fun new => h.keeps e' new

theorem apply (h : C.Visits b b' visit visit') (he : C.value e e') (hargs : C.Values args args') :
    C.Lockstep C.value (applyWith b visit e args) (applyWith b' visit' e' args') := by
  have hnote {x : EvalM σ Value} {y : EvalM σ' Value} (hx : C.Lockstep C.value x y)
      (hk : C.Keeps y) : C.Lockstep C.value (EvalM.note (.apply e args) >>= fun _ => x)
        (EvalM.note (.apply e' args') >>= fun _ => y) :=
    .bind (note_alike (.apply he hargs)) (fun _ _ _ => hx) fun _ => hk
  have hthrow (fault : EvalError) : C.Keeps (throw fault : EvalM σ' Value) := fun _ hm => hm
  cases C.kin he with
  | bridge call =>
    rw [applyWith_bridge, applyWith_bridge]
    exact applyBridge_alike h.bridges _ _ call he hargs
  | builtin p =>
    have hquiet := Quiet.ofAlloc (σ := σ') (p.failsInternally_apply args')
    exact hnote (.alloc (apply_alike p hargs)) (h.stepwise_keeps (.quiet hquiet))
  | @closure _ _ f f' params body body' hbody hf =>
    by_cases hn : params.length = args'.length
    · simp only [applyWith, hargs.length_eq, hn, if_true]
      exact hnote (h.inFrame hf (BindingKin.zip hargs) hbody)
        (h.stepwise_keeps (.inFrame f' _ body'))
    · simp only [applyWith, hargs.length_eq, hn, if_false]
      exact hnote (.throw (.arity _)) (hthrow _)
  | _ => exact hnote (.throw (.type (.callable he))) (hthrow _)

theorem form (h : C.Visits b b' visit visit') (hf : C.frame frame frame') {f f' : SpecialForm}
    (hform : f.Kin C.value f') : C.Lockstep C.value (f.run visit frame) (f'.run visit' frame') := by
  cases hform with
  | quote hd => exact .pure hd
  | @branch _ _ _ consequent' _ alternative' hc ht ha =>
    refine .bind (h.alike _ _ _ _ hc hf) (fun v v' hv => ?_) fun v' => ?_
    · rw [truthy_eq hv]
      split
      · exact h.alike _ _ _ _ ht hf
      · cases ha with
        | none => exact .pure (C.atom trivial)
        | some ha => exact h.alike _ _ _ _ ha hf
    · split
      · exact h.keeps consequent' frame'
      · cases alternative' with
        | none => exact h.stepwise_keeps (.pure _)
        | some e => exact h.keeps e frame'
  | @define name _ _ he =>
    exact .bind (h.alike _ _ _ _ he hf) (fun _ _ hv => define_alike hf name hv) fun v' =>
      h.stepwise_keeps (.quiet (.ofDefine frame' name v'))
  | @assign name _ _ he =>
    refine .bind (h.alike _ _ _ _ he hf) (fun v v' hv => ?_) fun v' =>
      h.stepwise_keeps (.bind (.quiet (.ofAssign frame' name v')) fun _ => .pure v')
    exact .bind (assign_alike hf name hv) (fun _ _ _ => .pure hv) fun _ =>
      h.stepwise_keeps (.pure v')
  | @lambda params body body' hbody =>
    refine .bind (R := C.supply) ?_ (fun _ _ hn => .pure (C.closure hn hbody hf)) fun _ =>
      h.stepwise_keeps (.pure _)
    exact .alloc (x := do return .ok (← fresh)) (y := do return .ok (← fresh))
      fun n n' hn => ⟨.ok hn, C.succ hn⟩
  | bind hb hbody =>
    refine .bind (h.each hf (BindingKin.values hb)) (fun vs vs' hvs => ?_) fun vs' =>
      h.stepwise_keeps (.inFrame frame' _ _)
    rw [BindingKin.names_eq hb]
    exact h.inFrame hf (BindingKin.zip hvs) hbody
  | sequence he hes => exact h.last hf he hes

theorem ofExcept_alike {E : δ → δ → Prop} {R : α → β → Prop} {r : Except δ α} {r' : Except δ β}
    {wrap : δ → EvalError} (h : ExceptKin E R r r')
    (hw : ∀ e e', E e e' → C.Errors (wrap e) (wrap e')) :
    C.Lockstep R (ofExcept wrap r : EvalM σ α) (ofExcept wrap r' : EvalM σ' β) := by
  rw [ofExcept_eq, ofExcept_eq]
  exact .ofResult (h.mapError hw)

theorem step (h : C.Visits b b' visit visit') (hf : C.frame frame frame') (he : C.value e e') :
    C.Lockstep C.value (evalStep b visit e frame) (evalStep b' visit' e' frame') := by
  have hcode := code_alike he
  unfold evalStep
  generalize e.code = c at hcode ⊢
  generalize e'.code = c' at hcode ⊢
  cases hcode with
  | constant hv => exact .pure hv
  | «variable» name => exact lookup_alike hf name
  | @special form _ operands' hes =>
    exact .bind (ofExcept_alike (check_alike form hes) fun _ _ => .malformed)
      (fun _ _ hform => h.form hf hform) fun checked => h.stepwise_keeps (.form frame' checked)
  | @application _ _ _ operands' hc hes =>
    refine .bind (h.alike _ _ _ _ hc hf) (fun v v' hv => ?_) fun v' =>
      h.stepwise_keeps (.bind (.each frame' operands') fun args => .apply v' args)
    exact .bind (h.each hf hes) (fun _ _ hargs => h.apply hv hargs) fun args =>
      h.stepwise_keeps (.apply v' args)

end Visits

/-! ## Visits -/

section visits

variable {b : Bridge σ} {b' : Bridge σ'} {code code' : Value} {frame frame' : Nat}

/-- Under one guard both visits are admitted or neither is. -/
theorem guarded_alike {step : EvalM σ Value} {step' : EvalM σ' Value}
    (h : C.Lockstep C.value step step') (hc : C.value code code') (hf : C.frame frame frame') :
    C.Lockstep C.value (guarded code frame step) (guarded code' frame' step') := by
  intro m m' hg hw
  have hvisit := hw.record (.visit hc hf)
  cases hr : m.guard.refusal? with
  | some why =>
    rw [guarded_of_refusal hr, guarded_of_refusal (hg ▸ hr)]
    refine .inr ⟨.error (.refused why), ?_, hvisit⟩
    simp only [Machine.refuse, hg]
  | none =>
    rw [guarded_of_admission hr, guarded_of_admission (hg ▸ hr)]
    have henter := hvisit.trans (hvisit.worlds.record .enter)
    have hguard : (m.enter code frame).guard = (m'.enter code' frame').guard := by
      simp only [Machine.enter, hg]
    refine (h _ _ hguard henter.worlds).imp id fun hends => ⟨hends.result, ?_, ?_⟩
    · simp only [Machine.leave, hends.guard]
    · exact (henter.trans hends.passage).trans (hends.passage.worlds.record .leave)

theorem guarded_keeps {step' : EvalM σ' Value} (h : C.Keeps step') (code : Value) (frame : Nat) :
    C.Keeps (guarded code frame step') := by
  intro m hm
  cases hr : m.guard.refusal? with
  | some why => rw [guarded_of_refusal hr]; exact hm
  | none => rw [guarded_of_admission hr]; exact h (m.enter code frame) hm

theorem evalWithin_alike (hb : C.Bridges b b') (room : Nat) :
    C.Visits b b' (evalWithin b room) (evalWithin b' room) := by
  induction room with
  | zero =>
    refine ⟨hb, fun code frame => guarded_keeps (fun _ hm => hm) code frame,
      fun code code' frame frame' hc hf => ?_⟩
    exact guarded_alike (.throw (.refused .depth)) hc hf
  | succ room ih =>
    exact ⟨hb, fun code frame => guarded_keeps (ih.stepwise_keeps
      (evalStep_stepwise b' _ (evalWithin b' room) code frame)) code frame,
      fun code code' frame frame' hc hf => guarded_alike (ih.step hf hc) hc hf⟩

/-- **Evaluations of expressions that correspond run in lockstep.** -/
theorem eval_alike (hb : C.Bridges b b') : C.Visits b b' (eval b) (eval b') := by
  refine ⟨hb, fun code frame m => (evalWithin_alike hb m.guard.room).keeps code frame m,
    fun code code' frame frame' hc hf m m' hg hw => ?_⟩
  -- equal guards have the same room
  unfold eval
  rw [← hg]
  exact (evalWithin_alike hb m.guard.room).alike code code' frame frame' hc hf m m' hg hw

theorem evalProgram_alike (hb : C.Bridges b b') (hf : C.frame frame frame')
    {program program' : List Value} (h : C.Values program program') :
    C.Lockstep C.value (evalProgram b frame program) (evalProgram b' frame' program') := by
  cases h with
  | nil => exact .pure (C.atom trivial)
  | cons he hes => exact (eval_alike hb).last hf he hes

/-! ## Program texts -/

end visits

end Correspondence

end GuardedLisp
