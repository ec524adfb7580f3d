import GuardedLisp.Proofs.Visit

/-!
# The budget of an evaluation

Whatever a program does, its evaluation ends: the visits inside a visit have
less room than the visit itself, never more visits are under way than the depth
limit allows, and the guard is asked at most once more than the limit of
operations. The journal shows it: the visits under way after any part of it are
those that it notes as admitted and not as ended (`Nested`), and each request
to the guard is noted as a visit.
-/

namespace GuardedLisp

open EvalM

variable {σ α β : Type}

def Event.isEnter : Event → Bool
  | .enter => true
  | _ => false

def Event.isLeave : Event → Bool
  | .leave => true
  | _ => false

/-- Neither the begin nor the end of an admitted visit. -/
def Event.IsFlat (e : Event) : Prop := e.isEnter = false ∧ e.isLeave = false

/-! ## Nesting -/

/-- A journal, newest first, in which every admitted visit ends, and visits nest at most `depth`
levels. -/
inductive Nested : Nat → List Event → Prop where
  | nil (depth : Nat) : Nested depth []
  | flat {depth : Nat} {e : Event} {es : List Event} (he : e.IsFlat) (hes : Nested depth es) :
    Nested depth (e :: es)
  | visit {depth : Nat} {inner es : List Event} (hinner : Nested depth inner)
    (hes : Nested (depth + 1) es) : Nested (depth + 1) (.leave :: (inner ++ .enter :: es))

namespace Nested

theorem ofFlat {depth : Nat} : ∀ {es : List Event}, (∀ e ∈ es, e.IsFlat) → Nested depth es
  | [], _ => .nil depth
  | e :: _, h => .flat (h e List.mem_cons_self) (ofFlat fun e he => h e (List.mem_cons_of_mem _ he))

/-- What happens later comes in front. -/
theorem append {depth : Nat} {es es' : List Event} (h' : Nested depth es') (h : Nested depth es) :
    Nested depth (es' ++ es) := by
  induction h' with
  | nil => exact h
  | flat he _ ih => exact .flat he (ih h)
  | visit hinner _ _ ih =>
    have := Nested.visit hinner (ih h)
    simpa using this

theorem countP_eq {depth : Nat} {es : List Event} (h : Nested depth es) :
    es.countP Event.isEnter = es.countP Event.isLeave := by
  induction h with
  | nil => rfl
  | flat he _ ih => simp [he.1, he.2, ih]
  | visit _ _ ih ih' =>
    simp [List.countP_cons, List.countP_append, Event.isEnter, Event.isLeave]
    omega

/-- **At no moment are more visits under way than the depth.** -/
theorem countP_le {depth : Nat} {es past : List Event} (h : Nested depth es) (hp : past <:+ es) :
    past.countP Event.isEnter ≤ past.countP Event.isLeave + depth := by
  induction h generalizing past with
  | nil => simp [List.suffix_nil.1 hp]
  | flat he hes ih =>
    rcases List.suffix_cons_iff.1 hp with rfl | hp
    · have := (Nested.flat he hes).countP_eq; omega
    · exact ih hp
  | @visit depth inner es hinner hes ih ih' =>
    rcases List.suffix_cons_iff.1 hp with rfl | hp
    · have := (Nested.visit hinner hes).countP_eq; omega
    -- the past ends before this visit begins, or inside it
    have hsuffix : past <:+ .enter :: es ∨ ∃ mid, mid <:+ inner ∧ past = mid ++ .enter :: es := by
      have hwhole := List.suffix_append inner (.enter :: es)
      rcases List.suffix_or_suffix_of_suffix hp hwhole with h | ⟨mid, h⟩
      · exact .inl h
      · refine .inr ⟨mid, ?_, h.symm⟩
        rw [← h] at hp
        exact (List.suffix_append_self_iff).1 hp
    rcases hsuffix with hp | ⟨mid, hmid, rfl⟩
    · rcases List.suffix_cons_iff.1 hp with rfl | hp
      · have := hes.countP_eq
        simp [List.countP_cons, Event.isEnter, Event.isLeave]; omega
      · exact ih' hp
    · have h1 := ih hmid
      have h2 := hes.countP_eq
      simp [List.countP_append, List.countP_cons, Event.isEnter, Event.isLeave]
      omega

end Nested

theorem Event.IsAction.isFlat {e : Event} (h : e.IsAction) : e.IsFlat := by
  cases e <;> first | exact ⟨rfl, rfl⟩ | exact h.elim

/-- From `m` to `m'` the journal grew by visits that nest no deeper than there is room. -/
def Nests (m m' : Machine σ) : Prop :=
  ∃ es, Grows m.world es m'.world ∧ Nested m.guard.room es

/-- What visits keep where there is this much room, a step keeps there. -/
theorem Stepwise.nests {bridge : Bridge σ} {visit visit' : Visit σ} {x y : EvalM σ α} {room : Nat}
    (hbalanced : ∀ code frame m, Balanced m (visit code frame m).2)
    (hvisit : ∀ code frame (m : Machine σ), m.guard.room = room → Nests m (visit code frame m).2)
    (h : Stepwise bridge visit visit' x y) (m : Machine σ) (hm : m.guard.room = room) :
    Nests m (x m).2 := by
  induction h generalizing m with
  | quiet hf =>
    obtain ⟨es, hes, hquiet⟩ := hf.journal m.world
    exact ⟨es, hes, .ofFlat fun e he => (hquiet e he).isAction.isFlat⟩
  | call addr call args =>
    obtain ⟨es, hes, haction⟩ := World.applyBridge_journal bridge addr call args m.world
    exact ⟨es, hes, .ofFlat fun e he => (haction e he).isFlat⟩
  | visit code frame => exact hvisit code frame m hm
  | bind hx _ ihx ihf =>
    refine bind_cases (P := fun p => Nests m p.2) (fun e m' he => ?_) (fun a m' ha => ?_)
    · have := ihx m hm; rwa [he] at this
    · have hb := hx.balanced hbalanced m
      obtain ⟨es, hes, hnested⟩ := ihx m hm
      rw [ha] at hb hes
      obtain ⟨es', hes', hnested'⟩ := ihf a m' (hb.room.trans hm)
      rw [hb.room] at hnested'
      exact ⟨es' ++ es, hes.trans hes', hnested'.append hnested⟩

theorem guarded_nests {step : EvalM σ Value} {m : Machine σ}
    (hstep : ∀ k : Machine σ, k.guard.room + 1 = m.guard.room → Nests k (step k).2)
    (code : Value) (frame : Nat) : Nests m (guarded code frame step m).2 := by
  have hvisit : Nested m.guard.room [.visit code frame] :=
    .ofFlat (by simp [Event.IsFlat, Event.isEnter, Event.isLeave])
  cases h : m.guard.refusal? with
  | some why =>
    rw [guarded_of_refusal h]
    exact ⟨[.visit code frame], ⟨rfl, rfl⟩, hvisit⟩
  | none =>
    have hroom := room_enter code frame h
    rw [guarded_of_admission h]
    obtain ⟨es, hes, hnested⟩ := hstep _ hroom
    refine ⟨_, hes.leave, ?_⟩
    rw [← hroom] at hvisit ⊢
    exact .visit hnested hvisit

theorem eval_nests (bridge : Bridge σ) (code : Value) (frame : Nat) (m : Machine σ) :
    Nests m (eval bridge code frame m).2 := by
  induction hroom : m.guard.room using Nat.strongRecOn generalizing code frame m with
  | ind room ih =>
    rw [eval_eq]
    refine guarded_nests (fun k hk => ?_) code frame
    refine (evalStep_stepwise bridge _ (eval bridge) code frame).nests (eval_balanced bridge)
      (fun code frame k' hk' => ?_) k rfl
    exact ih _ (by omega) code frame k' hk'

/-! ## Operations -/

/-- The count stayed within its limit, or the evaluation was refused because it just passed it. -/
def Charged (m : Machine σ) (p : Except EvalError α × Machine σ) : Prop :=
  (p.1 = .error (.refused .operations) ∧
      p.2.guard.operations = m.guard.limits.maxOperations + 1) ∨
    (p.1 ≠ .error (.refused .operations) ∧ p.2.guard.operations ≤ m.guard.limits.maxOperations)

theorem Charged.ofUnrefused {m : Machine σ} {r : Except EvalError α} {w : World σ}
    (hr : ¬ Refused r) (hm : m.guard.operations ≤ m.guard.limits.maxOperations) :
    Charged m (r, ⟨m.guard, w⟩) :=
  .inr ⟨fun h => hr ⟨_, h⟩, hm⟩

theorem Stepwise.charged {bridge : Bridge σ} {visit visit' : Visit σ} {x y : EvalM σ α} {room : Nat}
    (hbalanced : ∀ code frame m, Balanced m (visit code frame m).2)
    (hvisit : ∀ code frame (m : Machine σ), m.guard.room = room →
      m.guard.operations ≤ m.guard.limits.maxOperations → Charged m (visit code frame m))
    (h : Stepwise bridge visit visit' x y) (m : Machine σ) (hm : m.guard.room = room)
    (hops : m.guard.operations ≤ m.guard.limits.maxOperations) : Charged m (x m) := by
  induction h generalizing m with
  | quiet hf => exact .ofUnrefused (hf.unrefused m.world) hops
  | call addr call args =>
    exact .ofUnrefused (World.not_refused_applyBridge bridge addr call args m.world) hops
  | visit code frame => exact hvisit code frame m hm hops
  | @bind _ _ x _ f _ hx _ ihx ihf =>
    have hxm := ihx m hm hops
    have hb := hx.balanced hbalanced m
    refine bind_cases (fun e m' he => ?_) (fun a m' ha => ?_)
    · rw [he] at hxm
      rcases hxm with ⟨h, hops⟩ | ⟨h, hops⟩
      · cases h; exact .inl ⟨rfl, hops⟩
      · exact .inr ⟨fun h' => h (by cases h'; rfl), hops⟩
    · rw [ha] at hxm hb
      rcases hxm with ⟨h, -⟩ | ⟨-, hops⟩
      · cases h
      · have hcharged := ihf a m' (hb.room.trans hm) (hb.limits ▸ hops)
        unfold Charged at hcharged ⊢
        rwa [hb.limits] at hcharged

theorem guarded_charged {step : EvalM σ Value} {m : Machine σ}
    (hops : m.guard.operations ≤ m.guard.limits.maxOperations)
    (hstep : ∀ k : Machine σ, k.guard.room + 1 = m.guard.room →
      k.guard.operations ≤ k.guard.limits.maxOperations → Charged k (step k))
    (code : Value) (frame : Nat) : Charged m (guarded code frame step m) := by
  cases h : m.guard.refusal? with
  | some why =>
    rw [guarded_of_refusal h]
    by_cases hwhy : why = .operations
    · subst hwhy
      have := Guard.refusal?_eq_operations_iff.1 h
      exact .inl ⟨rfl, by simp only [Machine.refuse]; omega⟩
    · have : ¬ m.guard.limits.maxOperations ≤ m.guard.operations := fun hle => by
        rw [Guard.refusal?_eq_operations_iff.2 hle] at h
        exact hwhy (Option.some.inj h).symm
      exact .inr ⟨fun h => hwhy (by cases h; rfl), by simp only [Machine.refuse]; omega⟩
  | none =>
    rw [guarded_of_admission h]
    exact hstep (m.enter code frame) (room_enter code frame h) (Guard.refusal?_eq_none_iff.1 h).1

theorem eval_charged (bridge : Bridge σ) (code : Value) (frame : Nat) (m : Machine σ)
    (hops : m.guard.operations ≤ m.guard.limits.maxOperations) :
    Charged m (eval bridge code frame m) := by
  induction hroom : m.guard.room using Nat.strongRecOn generalizing code frame m with
  | ind room ih =>
    rw [eval_eq]
    refine guarded_charged hops (fun k hk hops => ?_) code frame
    refine (evalStep_stepwise bridge _ (eval bridge) code frame).charged (eval_balanced bridge)
      (fun code frame k' hk' hops => ?_) k rfl hops
    exact ih _ (by omega) code frame k' hops hk'

/-! ## Programs -/

/-- **Every evaluation ends within its budget.** Evaluation recurs only where visits have less room
to nest; the evaluation of a text has a result; at no moment of it are more visits under way than
the depth limit allows; and the guard, which counts the visits, is asked for at most one more than
the limit of operations. -/
theorem evalText_within_budget (bridge : Bridge σ) (text : String) (frame : Nat) (m : Machine σ) :
    (∀ (code : Value) (frame : Nat) (k : Machine σ) (visit : Visit σ),
      (∀ part frame' k', k'.guard.room < k.guard.room →
        visit part frame' k' = eval bridge part frame' k') →
      eval bridge code frame k = guarded code frame (evalStep bridge visit code frame) k) ∧
    ∃ r m', evalText bridge text frame m = (r, m') ∧
      (∀ past, past <:+ m'.world.journal →
        past.countP Event.isEnter ≤ past.countP Event.isLeave + m.guard.limits.maxDepth) ∧
      m'.guard.operations = m'.world.journal.countP Event.isVisit ∧
      m'.guard.operations ≤ m.guard.limits.maxOperations + 1 := by
  obtain ⟨x, hx, hrun⟩ := evalText_stepwise bridge text frame
  have hroom : m.restart.guard.room = m.guard.limits.maxDepth := rfl
  refine ⟨fun code frame k visit h => eval_eq_of_agree h code frame, (x m.restart).1,
    (x m.restart).2, hrun m, ?_, ?_, ?_⟩
  · obtain ⟨es, hes, hnested⟩ := hx.nests (eval_balanced bridge)
      (fun code frame k _ => eval_nests bridge code frame k) m.restart hroom
    intro past hpast
    rw [hes.journal, show m.restart.world.journal = [] from rfl, List.append_nil] at hpast
    exact hnested.countP_le hpast
  · obtain ⟨es, hes, hops⟩ := (hx.balanced (eval_balanced bridge) m.restart).journal
    rw [hops, hes.journal]
    simp [Machine.restart, Guard.reset]
  · have := hx.charged (eval_balanced bridge)
      (fun code frame k _ => eval_charged bridge code frame k) m.restart hroom (Nat.zero_le _)
    rcases this with ⟨-, h⟩ | ⟨-, h⟩
    · exact Nat.le_of_eq h
    · exact Nat.le_succ_of_le h

end GuardedLisp
