import GuardedLisp.Proofs.Step

/-!
# Visits

A visit is refused, and then only counted and noted, or it is admitted, and then
what runs inside it runs one level deeper and comes back to the level it began
on. Whatever is evaluated, the guard's count grows by the visits that the
journal notes, and its depth ends where it began (`Balanced`). So the room in
which visits may nest shrinks with each visit inside another, and evaluation
obeys its own recursion: `eval` is one guarded step that evaluates the parts by
`eval` (`eval_eq`).
-/

namespace GuardedLisp

open EvalM

variable {σ α β : Type}

/-! ## One visit -/

namespace Machine

/-- A visit was refused. -/
def refuse (m : Machine σ) (code : Value) (frame : Nat) : Machine σ :=
  ⟨{ m.guard with operations := m.guard.operations + 1 }, m.world.record (.visit code frame)⟩

/-- A visit was admitted. -/
def enter (m : Machine σ) (code : Value) (frame : Nat) : Machine σ :=
  ⟨{ m.guard with operations := m.guard.operations + 1, depth := m.guard.depth + 1 },
    (m.world.record (.visit code frame)).record .enter⟩

/-- The innermost visit ended. -/
def leave (m : Machine σ) : Machine σ := ⟨m.guard.leave, m.world.record .leave⟩

end Machine

theorem Grows.leave {m m' : Machine σ} {code : Value} {frame : Nat} {es : List Event}
    (h : Grows (m.enter code frame).world es m'.world) :
    Grows m.world (.leave :: (es ++ [.enter, .visit code frame])) m'.leave.world := by
  refine ⟨?_, ?_⟩
  · change Event.leave :: m'.world.journal = _
    rw [h.journal]; simp [Machine.enter, World.record]
  · change m'.world.store = _
    rw [h.store]; simp [Machine.enter, World.record, Event.commit]

section guarded

variable {code : Value} {frame : Nat} {step : EvalM σ Value} {m : Machine σ}

theorem guarded_of_refusal {why : Refusal} (h : m.guard.refusal? = some why) :
    guarded code frame step m = (.error (.refused why), m.refuse code frame) := by
  unfold guarded Guard.enter
  rw [h]; rfl

theorem guarded_of_admission (h : m.guard.refusal? = none) :
    guarded code frame step m =
      ((step (m.enter code frame)).1, (step (m.enter code frame)).2.leave) := by
  unfold guarded Guard.enter
  rw [h]; rfl

end guarded

namespace Guard

theorem refusal?_eq_none_iff {g : Guard} : g.refusal? = none ↔
    g.operations + 1 ≤ g.limits.maxOperations ∧ g.clock (g.operations + 1) ≤ g.limits.timeout ∧
      g.depth + 1 ≤ g.limits.maxDepth := by
  unfold refusal?
  split
  · simp; omega
  · split
    · simp; omega
    · split
      · simp; omega
      · simp; omega

/-- The guard refuses for the count exactly when the count is at its limit. -/
theorem refusal?_eq_operations_iff {g : Guard} :
    g.refusal? = some .operations ↔ g.limits.maxOperations ≤ g.operations := by
  unfold refusal?
  split
  · simp; omega
  · split
    · simp; omega
    · split <;> simp <;> omega

end Guard

theorem room_enter {m : Machine σ} (code : Value) (frame : Nat) (h : m.guard.refusal? = none) :
    (m.enter code frame).guard.room + 1 = m.guard.room := by
  have := Guard.refusal?_eq_none_iff.1 h
  simp only [Machine.enter, Guard.room]
  omega

/-! ## What evaluation leaves as it was -/

def Event.isVisit : Event → Bool
  | .visit .. => true
  | _ => false

/-- From `m` to `m'` the journal grew, the count grew by its visits, and nothing else of the guard
changed. -/
structure Balanced (m m' : Machine σ) : Prop where
  limits : m'.guard.limits = m.guard.limits
  clock : m'.guard.clock = m.guard.clock
  depth : m'.guard.depth = m.guard.depth
  journal : ∃ es, Grows m.world es m'.world ∧
    m'.guard.operations = m.guard.operations + es.countP Event.isVisit

namespace Balanced

variable {m m' m'' : Machine σ}

theorem room (h : Balanced m m') : m'.guard.room = m.guard.room := by
  unfold Guard.room; rw [h.limits, h.depth]

theorem trans (h : Balanced m m') (h' : Balanced m' m'') : Balanced m m'' := by
  obtain ⟨es, hes, hops⟩ := h.journal
  obtain ⟨es', hes', hops'⟩ := h'.journal
  refine ⟨h'.limits.trans h.limits, h'.clock.trans h.clock, h'.depth.trans h.depth, es' ++ es,
    hes.trans hes', ?_⟩
  rw [hops', hops, List.countP_append]
  omega

/-- Events that are no visits leave the count alone. -/
theorem ofWorld {w : World σ} {es : List Event} (h : Grows m.world es w)
    (hes : ∀ e ∈ es, e.isVisit = false) : Balanced m ⟨m.guard, w⟩ := by
  refine ⟨rfl, rfl, rfl, es, h, ?_⟩
  rw [List.countP_eq_zero.2 (by simpa using hes)]
  rfl

theorem refuse (m : Machine σ) (code : Value) (frame : Nat) : Balanced m (m.refuse code frame) :=
  ⟨rfl, rfl, rfl, [.visit code frame], ⟨rfl, rfl⟩, rfl⟩

/-- What is balanced inside a visit is balanced around it. -/
theorem leave {code : Value} {frame : Nat} (h : Balanced (m.enter code frame) m') :
    Balanced m m'.leave := by
  obtain ⟨es, hes, hops⟩ := h.journal
  refine ⟨h.limits, h.clock, ?_, _, hes.leave, ?_⟩
  · change m'.guard.depth - 1 = _
    rw [h.depth]; rfl
  · change m'.guard.operations = _
    rw [hops]
    simp [Machine.enter, Event.isVisit, List.countP_cons]
    omega

end Balanced

theorem Event.IsAction.isVisit {e : Event} (h : e.IsAction) : e.isVisit = false := by
  cases e <;> first | rfl | exact h.elim

/-- What visits keep, a step keeps. -/
theorem Stepwise.balanced {bridge : Bridge σ} {visit visit' : Visit σ} {x y : EvalM σ α}
    (hvisit : ∀ code frame m, Balanced m (visit code frame m).2)
    (h : Stepwise bridge visit visit' x y) (m : Machine σ) : Balanced m (x m).2 := by
  induction h generalizing m with
  | quiet hf =>
    obtain ⟨es, hes, hquiet⟩ := hf.journal m.world
    exact .ofWorld hes fun e he => (hquiet e he).isAction.isVisit
  | call addr call args =>
    obtain ⟨es, hes, haction⟩ := World.applyBridge_journal bridge addr call args m.world
    exact .ofWorld hes fun e he => (haction e he).isVisit
  | visit code frame => exact hvisit code frame m
  | bind _ _ ihx ihf =>
    refine bind_cases (P := fun p => Balanced m p.2) (fun e m' he => ?_) (fun a m' ha => ?_)
    · have := ihx m; rwa [he] at this
    · have := ihx m; rw [ha] at this
      exact this.trans (ihf a m')

theorem guarded_balanced {step : EvalM σ Value} (hstep : ∀ m, Balanced m (step m).2)
    (code : Value) (frame : Nat) (m : Machine σ) : Balanced m (guarded code frame step m).2 := by
  cases h : m.guard.refusal? with
  | some why => rw [guarded_of_refusal h]; exact .refuse m code frame
  | none => rw [guarded_of_admission h]; exact (hstep _).leave

theorem evalWithin_balanced (bridge : Bridge σ) (room : Nat) (code : Value) (frame : Nat) :
    ∀ m, Balanced m (evalWithin bridge room code frame m).2 := by
  induction room generalizing code frame with
  | zero =>
    exact guarded_balanced (fun m => .ofWorld (.refl m.world) (by simp)) code frame
  | succ room ih =>
    exact guarded_balanced (fun m => (evalStep_stepwise bridge _ (evalWithin bridge room) code
      frame).balanced ih m) code frame

theorem eval_balanced (bridge : Bridge σ) (code : Value) (frame : Nat) (m : Machine σ) :
    Balanced m (eval bridge code frame m).2 := evalWithin_balanced bridge _ code frame m

/-! ## The recursion -/

/-- Two evaluators that agree where there is this much room make steps that agree there. -/
theorem Stepwise.agree {bridge : Bridge σ} {visit visit' : Visit σ} {x y : EvalM σ α} {room : Nat}
    (hbalanced : ∀ code frame m, Balanced m (visit code frame m).2)
    (hvisit : ∀ code frame m, m.guard.room = room → visit code frame m = visit' code frame m)
    (h : Stepwise bridge visit visit' x y) (m : Machine σ) (hm : m.guard.room = room) :
    x m = y m := by
  induction h generalizing m with
  | quiet | call => rfl
  | visit code frame => exact hvisit code frame m hm
  | bind hx _ ihx ihf =>
    have hxy := ihx m hm
    refine bind_cases (P := fun p => p = _) (fun e m' he => ?_) (fun a m' ha => ?_)
    · rw [bind_error (hxy ▸ he)]
    · have hb := hx.balanced hbalanced m
      rw [ha] at hb
      rw [bind_ok (hxy ▸ ha)]
      exact ihf a m' (hb.room.trans hm)

/-- Two steps that agree one level deeper agree as visits. -/
theorem guarded_congr {step step' : EvalM σ Value} {code : Value} {frame : Nat} {m : Machine σ}
    (h : ∀ k : Machine σ, k.guard.room + 1 = m.guard.room → step k = step' k) :
    guarded code frame step m = guarded code frame step' m := by
  cases hr : m.guard.refusal? with
  | some why => rw [guarded_of_refusal hr, guarded_of_refusal hr]
  | none =>
    rw [guarded_of_admission hr, guarded_of_admission hr, h _ (room_enter code frame hr)]

/-- **Evaluation recurs where there is less room**: what evaluates the parts need agree with `eval`
only there. -/
theorem eval_eq_of_agree {bridge : Bridge σ} {visit : Visit σ} {m : Machine σ}
    (h : ∀ code frame k, k.guard.room < m.guard.room →
      visit code frame k = eval bridge code frame k)
    (code : Value) (frame : Nat) :
    eval bridge code frame m = guarded code frame (evalStep bridge visit code frame) m := by
  unfold eval
  cases hroom : m.guard.room with
  | zero =>
    rw [evalWithin]
    exact guarded_congr fun k hk => absurd (hk.trans hroom) (Nat.succ_ne_zero _)
  | succ room =>
    rw [evalWithin]
    refine guarded_congr fun k hk => ?_
    refine (evalStep_stepwise bridge _ visit code frame).agree
      (fun code frame => evalWithin_balanced bridge room code frame)
      (fun code frame k (hk : k.guard.room = room) => ?_) k (by omega)
    rw [h code frame k (by omega), eval, hk]

theorem eval_eq (bridge : Bridge σ) (code : Value) (frame : Nat) (m : Machine σ) :
    eval bridge code frame m = guarded code frame (evalStep bridge (eval bridge) code frame) m :=
  eval_eq_of_agree (fun _ _ _ _ => rfl) code frame

/-! ## Programs -/

/-- The evaluation of a text is put together as a step is, of visits by `eval`. -/
theorem evalText_stepwise (bridge : Bridge σ) (text : String) (frame : Nat) :
    ∃ x : EvalM σ Value, Stepwise bridge (eval bridge) (eval bridge) x x ∧
      ∀ m, evalText bridge text frame m = x m.restart := by
  unfold evalText
  cases Source.Program.ofText text with
  | error e =>
    exact ⟨throw (.parse e), .ofResult (.error (e := .parse e) trivial), fun m => bind_ok rfl⟩
  | ok data =>
    refine ⟨_, ?_, fun m => bind_ok rfl⟩
    refine .bind (.quiet (.ofAlloc (x := do return .ok (← Value.ofData data))
      fun _ => .ok _)) fun program => ?_
    cases program with
    | nil => exact .pure Value.nil
    | cons e es => exact .last frame e es

end GuardedLisp
