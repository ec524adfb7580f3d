import GuardedLisp.Proofs.Visit

/-!
# Evaluations cut off by the guard

Two evaluations of one text, from one world, under limits of which the second
are at least the first: they do the same until the guard refuses the first one.
If it never does, they agree to the end. If it does, nothing undoes or adds an
effect on the way out, so the first evaluation has had a prefix of the effects of
the second (`Truncates`).
-/

namespace GuardedLisp

open EvalM

variable {σ α β : Type}

/-! ## Effects -/

/-- What outlasts an evaluation: frames, bindings, and calls into the host. -/
def Event.isEffect : Event → Bool
  | .extend .. | .define .. | .assign .. | .callHost .. => true
  | _ => false

/-- The effects that the journal notes, in their order. -/
def World.effects (w : World σ) : List Event := w.journal.reverse.filter Event.isEffect

/-- Effects that are no calls into the host change the scopes; nothing else does. -/
def Store.commits (s : Store) (es : List Event) : Store := es.foldl (fun s e => e.commit s) s

theorem Event.commit_of_not_isEffect {e : Event} (h : e.isEffect = false) (s : Store) :
    e.commit s = s := by
  cases e <;> first | rfl | cases h

/-- From an empty journal, the effects account for the scopes. -/
theorem World.store_eq_commits {w w' : World σ} {es : List Event} (hw : w.journal = [])
    (h : Grows w es w') : w'.store = w.store.commits w'.effects := by
  have hstep (s : Store) (e : Event) : (if e.isEffect then e.commit s else s) = e.commit s := by
    split
    · rfl
    · next hne => exact (Event.commit_of_not_isEffect (by simpa using hne) s).symm
  unfold Store.commits World.effects
  rw [h.store, h.journal, hw, List.append_nil, List.foldl_filter, List.foldr_eq_foldl_reverse]
  simp only [hstep]

theorem World.effects_grow {w w' : World σ} {es : List Event} (h : Grows w es w') :
    w.effects <+: w'.effects := by
  unfold World.effects
  rw [h.journal, List.reverse_append, List.filter_append]
  exact List.prefix_append ..

theorem World.effects_record {w : World σ} {e : Event} (h : e.isEffect = false) :
    (w.record e).effects = w.effects := by
  simp [World.effects, World.record, h]

theorem Balanced.effects_grow {m m' : Machine σ} (h : Balanced m m') :
    m.world.effects <+: m'.world.effects :=
  let ⟨_, hes, _⟩ := h.journal; World.effects_grow hes

/-! ## Two guards -/

/-- Two guards at the same point, `room` levels below the limit of the first; the second has at
least its limits, and the time of neither runs out. -/
structure Tighter (room : Nat) (g g' : Guard) : Prop where
  room : g.room = room
  operations : g'.operations = g.operations
  depth : g'.depth = g.depth
  maxOperations : g.limits.maxOperations ≤ g'.limits.maxOperations
  maxDepth : g.limits.maxDepth ≤ g'.limits.maxDepth
  clock : ∀ visit, g.clock visit ≤ g.limits.timeout
  clock' : ∀ visit, g'.clock visit ≤ g'.limits.timeout

/-- What the first guard admits, the second one does. -/
theorem Tighter.admission {room : Nat} {g g' : Guard} (h : Tighter room g g')
    (ha : g.refusal? = none) : g'.refusal? = none := by
  obtain ⟨hops, -, hdepth⟩ := Guard.refusal?_eq_none_iff.1 ha
  refine Guard.refusal?_eq_none_iff.2 ⟨?_, h.clock' _, ?_⟩
  · rw [h.operations]; exact Nat.le_trans hops h.maxOperations
  · rw [h.depth]; exact Nat.le_trans hdepth h.maxDepth

/-- How the end of the first of two evaluations relates to the end of the second. -/
inductive Truncates (room : Nat) (p p' : Except EvalError α × Machine σ) : Prop where
  /-- The first one was cut off. -/
  | cut (refused : Refused p.1) (effects : p.2.world.effects <+: p'.2.world.effects)
  /-- The first one came to its end, and so did the second. -/
  | same (unrefused : ¬ Refused p.1) (result : p'.1 = p.1) (world : p'.2.world = p.2.world)
    (guards : Tighter room p.2.guard p'.2.guard)

/-- What follows only adds to the effects. -/
theorem Stepwise.effects_grow_bind {bridge : Bridge σ} {visit visit' : Visit σ} {x : EvalM σ α}
    {f g : α → EvalM σ β} (hbalanced : ∀ code frame m, Balanced m (visit code frame m).2)
    (hf : ∀ a, Stepwise bridge visit visit' (f a) (g a)) (m : Machine σ) :
    (x m).2.world.effects <+: ((x >>= f) m).2.world.effects := by
  refine bind_cases (P := fun p => (x m).2.world.effects <+: p.2.world.effects)
    (fun e m' he => ?_) (fun a m' ha => ?_)
  · simp [he]
  · rw [ha]; exact ((hf a).balanced hbalanced m').effects_grow

/-- What visits keep where there is this much room, a step keeps there. -/
theorem Stepwise.truncates {bridge : Bridge σ} {visit visit' : Visit σ} {x y : EvalM σ α}
    {room : Nat} (hbalanced : ∀ code frame m, Balanced m (visit' code frame m).2)
    (hvisit : ∀ code frame g g' w, Tighter room g g' →
      Truncates room (visit code frame ⟨g, w⟩) (visit' code frame ⟨g', w⟩))
    (h : Stepwise bridge visit visit' x y) (g g' : Guard) (w : World σ) (hg : Tighter room g g') :
    Truncates room (x ⟨g, w⟩) (y ⟨g', w⟩) := by
  induction h generalizing g g' w with
  | quiet hf => exact .same (hf.unrefused w) rfl rfl hg
  | call addr call args =>
    exact .same (World.not_refused_applyBridge bridge addr call args w) rfl rfl hg
  | visit code frame => exact hvisit code frame g g' w hg
  | @bind _ _ x y f k _ hf ihx ihf =>
    rcases hx : x ⟨g, w⟩ with ⟨r, ⟨g₁, w₁⟩⟩
    rcases hy : y ⟨g', w⟩ with ⟨r', ⟨g₁', w₁'⟩⟩
    have hxy := ihx g g' w hg
    rw [hx] at hxy
    cases hxy with
    | cut refused effects =>
      obtain ⟨why, hwhy⟩ := refused
      cases hwhy
      rw [bind_error hx]
      refine .cut ⟨why, rfl⟩ (effects.trans ?_)
      exact effects_grow_bind hbalanced (fun a => (hf a).symm) ⟨g', w⟩
    | same unrefused result world guards =>
      rw [hy] at result world guards
      cases result
      cases world
      cases r with
      | error e => rw [bind_error hx, bind_error hy]; exact .same (unrefused ·.error) rfl rfl guards
      | ok a => rw [bind_ok hx, bind_ok hy]; exact ihf a g₁ g₁' w₁ guards

theorem guarded_truncates {step step' : EvalM σ Value} {room : Nat} {g g' : Guard} {w : World σ}
    (hbalanced : ∀ m, Balanced m (step m).2) (hbalanced' : ∀ m, Balanced m (step' m).2)
    (hstep : ∀ k k' w, k.room + 1 = room → Tighter k.room k k' →
      Truncates k.room (step ⟨k, w⟩) (step' ⟨k', w⟩))
    (hg : Tighter room g g') (code : Value) (frame : Nat) :
    Truncates room (guarded code frame step ⟨g, w⟩) (guarded code frame step' ⟨g', w⟩) := by
  cases h : g.refusal? with
  | some why =>
    rw [guarded_of_refusal (m := ⟨g, w⟩) h]
    refine .cut ⟨why, rfl⟩ ?_
    have := (guarded_balanced hbalanced' code frame ⟨g', w⟩).effects_grow
    rwa [show (Machine.refuse ⟨g, w⟩ code frame).world.effects = w.effects from
      World.effects_record rfl]
  | none =>
    have h' := hg.admission h
    rw [guarded_of_admission (m := ⟨g, w⟩) h, guarded_of_admission (m := ⟨g', w⟩) h']
    have hend := (guarded_balanced hbalanced code frame ⟨g, w⟩).room.trans hg.room
    rw [guarded_of_admission (m := ⟨g, w⟩) h] at hend
    have hinner : Tighter _ (Machine.enter ⟨g, w⟩ code frame).guard
        (Machine.enter ⟨g', w⟩ code frame).guard := { hg with
      room := rfl
      operations := by simp only [Machine.enter, hg.operations]
      depth := by simp only [Machine.enter, hg.depth] }
    have hroom := (room_enter (m := ⟨g, w⟩) code frame h).trans hg.room
    cases hstep _ _ ((w.record (.visit code frame)).record .enter) hroom hinner with
    | cut refused effects =>
      refine .cut refused ?_
      rwa [Machine.leave, Machine.leave, World.effects_record rfl, World.effects_record rfl]
    | same unrefused result world guards =>
      refine .same unrefused result ?_ { guards with
        room := hend
        depth := ?_ }
      · exact congrArg (·.record .leave) world
      · exact congrArg (· - 1) guards.depth

theorem eval_truncates (bridge : Bridge σ) (room : Nat) (code : Value) (frame : Nat)
    (g g' : Guard) (w : World σ) (hg : Tighter room g g') :
    Truncates room (eval bridge code frame ⟨g, w⟩) (eval bridge code frame ⟨g', w⟩) := by
  induction room using Nat.strongRecOn generalizing code frame g g' w with
  | ind room ih =>
    have hbalanced :=
      (evalStep_stepwise bridge _ (eval bridge) code frame).balanced (eval_balanced bridge)
    rw [eval_eq, eval_eq]
    refine guarded_truncates hbalanced hbalanced (fun k k' w hk hkk' => ?_) hg code frame
    exact (evalStep_stepwise bridge _ _ code frame).truncates (eval_balanced bridge)
      (ih k.room (by omega)) k k' w hkk'

/-! ## Programs -/

/-- **A refusal only cuts an evaluation short.** Of two evaluations of a text from one world, in
which time does not run out and the second has at least the limits of the first, the effects of
the first are a prefix of those of the second, and each leaves the scopes that its effects make. If
the guard did not refuse the first one, both have the same result, and leave the same world and the
same count. -/
theorem evalText_truncates (bridge : Bridge σ) (text : String) (frame : Nat) (g g' : Guard)
    (w : World σ) (hops : g.limits.maxOperations ≤ g'.limits.maxOperations)
    (hdepth : g.limits.maxDepth ≤ g'.limits.maxDepth)
    (hclock : ∀ visit, g.clock visit ≤ g.limits.timeout)
    (hclock' : ∀ visit, g'.clock visit ≤ g'.limits.timeout) :
    let p : Except EvalError Value × Machine σ := evalText bridge text frame ⟨g, w⟩
    let p' : Except EvalError Value × Machine σ := evalText bridge text frame ⟨g', w⟩
    p.2.world.effects <+: p'.2.world.effects ∧
      p.2.world.store = w.store.commits p.2.world.effects ∧
      p'.2.world.store = w.store.commits p'.2.world.effects ∧
      (¬ Refused p.1 → p'.1 = p.1 ∧ p'.2.world = p.2.world ∧
        p'.2.guard.operations = p.2.guard.operations) := by
  intro p p'
  obtain ⟨x, hx, hrun⟩ := evalText_stepwise bridge text frame
  have hstart : Tighter g.limits.maxDepth g.reset g'.reset :=
    ⟨rfl, rfl, rfl, hops, hdepth, hclock, hclock'⟩
  have h : Truncates g.limits.maxDepth p p' := by
    simp only [p, p', hrun]
    exact hx.truncates (eval_balanced bridge) (eval_truncates bridge _) g.reset g'.reset
      { w with journal := [] } hstart
  have hstore (g : Guard) : (evalText bridge text frame ⟨g, w⟩).2.world.store =
      w.store.commits (evalText bridge text frame ⟨g, w⟩).2.world.effects := by
    rw [hrun]
    obtain ⟨es, hes, -⟩ := (hx.balanced (eval_balanced bridge) (Machine.restart ⟨g, w⟩)).journal
    have hjournal : (Machine.restart ⟨g, w⟩).world.journal = [] := rfl
    rw [World.store_eq_commits hjournal hes]
    rfl
  cases h with
  | cut refused effects => exact ⟨effects, hstore g, hstore g', fun h => absurd refused h⟩
  | same unrefused result world guards =>
    refine ⟨?_, hstore g, hstore g', fun _ => ⟨result, world, guards.operations⟩⟩
    simp [world]

/-- One operation less than two definitions take: the second definition is missing. -/
theorem evalText_truncates_two_definitions :
    let p (operations : Nat) : Except EvalError Value × Machine Unit :=
      evalText .empty "(def a \"x\") (def b \"y\")" 0
        ⟨.start ⟨operations, 0, 2⟩ fun _ => 0, ⟨Store.empty.addRoot [], 0, (), []⟩⟩
    (p 3).2.world.effects <+: (p 4).2.world.effects ∧
      (p 3).2.world.store.names 0 = ["a"] ∧ (p 4).2.world.store.names 0 = ["a", "b"] := by
  refine ⟨?_, by decide +kernel, by decide +kernel⟩
  exact (evalText_truncates .empty _ 0 (.start ⟨3, 0, 2⟩ fun _ => 0) (.start ⟨4, 0, 2⟩ fun _ => 0) _
    (by decide) (Nat.le_refl 2) (fun _ => Nat.le_refl 0) fun _ => Nat.le_refl 0).1

end GuardedLisp
