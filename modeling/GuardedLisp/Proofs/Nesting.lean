import GuardedLisp.Proofs.Parts
import GuardedLisp.Proofs.Recording

/-!
# The nesting of lists

A list caches its nesting when it is built. As long as the host supplies only
lists nested at most `maxNesting` levels, every list in the state of an
interpreter, in its answers and in what it hands to host callables has its true
nesting cached, and this is at most `maxNesting` (`Value.Sound`): program texts are
no deeper, `list` and `cons` refuse to build a deeper list, and nothing else that a
program does adds a level. Bodies of closures count, since they are lists, too.
-/

namespace GuardedLisp

open EvalM
open Source (maxNesting)
open Interpreter (hosted returned)

variable {σ : Type}

namespace Value

/-! ## Nesting -/

mutual

/-- The number of lists around the innermost item. Atoms and procedures have no items. -/
def nesting : Value → Nat
  | list _ _ items => 1 + nestingOfItems items
  | _ => 0

/-- The deepest nesting among some items. -/
def nestingOfItems : List Value → Nat
  | [] => 0
  | v :: vs => max v.nesting (nestingOfItems vs)

end

/-- Every list in the value has its nesting cached, and this is at most `maxNesting`. The first holds
of every list that was built from its items, whoever built it; the second is what a host has to
keep. -/
def Sound (v : Value) : Prop :=
  ∀ addr depth items, v.Part True (.list addr depth items) →
    depth = (Value.list addr depth items).nesting ∧ depth ≤ maxNesting

namespace Sound

variable {v code : Value} {addr depth frame : Nat} {items : List Value} {params : List String}

theorem part {w : Value} (h : v.Sound) (hw : v.Part True w) : w.Sound :=
  fun addr depth items hpart => h addr depth items (hw.trans hpart)

theorem item (h : (Value.list addr depth items).Sound) : ∀ v ∈ items, v.Sound :=
  fun v hv => h.part (.item hv (.refl v))

theorem body (h : (Value.closure addr params code frame).Sound) : code.Sound :=
  h.part (.body trivial (.refl code))

theorem nesting_le (h : (Value.list addr depth items).Sound) :
    depth = 1 + nestingOfItems items ∧ depth ≤ maxNesting := by
  have := h addr depth items (.refl _)
  rwa [nesting] at this

theorem ofFlat (hlist : ∀ addr depth items, v ≠ .list addr depth items)
    (hclosure : ∀ addr params body frame, v ≠ .closure addr params body frame) : v.Sound :=
  fun addr depth items h => (hlist addr depth items (h.eq_of_flat hlist hclosure).symm).elim

theorem ofAtom (h : v.IsAtom) : v.Sound :=
  ofFlat (by rintro _ _ _ rfl; exact h) (by rintro _ _ _ _ rfl; exact h)

theorem ofList (addr : Nat) (h : ∀ v ∈ items, v.Sound) (hdepth : depth = 1 + nestingOfItems items)
    (hle : depth ≤ maxNesting) : (Value.list addr depth items).Sound := by
  intro a d vs hpart
  cases hpart with
  | refl => rw [nesting]; exact ⟨hdepth, hle⟩
  | item hv hpart => exact h _ hv a d vs hpart

theorem ofClosure (addr : Nat) (params : List String) (frame : Nat) (h : code.Sound) :
    (Value.closure addr params code frame).Sound := by
  intro a d vs hpart
  cases hpart with
  | body _ hpart => exact h a d vs hpart

theorem depth_eq (h : v.Sound) : v.depth = v.nesting := by
  cases v with
  | list addr depth items => rw [nesting]; exact h.nesting_le.1
  | _ => rfl

end Sound

theorem deepest_eq {items : List Value} (h : ∀ v ∈ items, v.depth = v.nesting) :
    deepest items = nestingOfItems items := by
  induction items with
  | nil => rfl
  | cons v vs ih =>
    rw [deepest_cons, nestingOfItems, h v List.mem_cons_self,
      ih fun w hw => h w (List.mem_cons_of_mem _ hw)]

/-- The depth cached in a new list is its nesting. -/
theorem depthOver_eq {items : List Value} (h : ∀ v ∈ items, v.Sound) :
    depthOver items = 1 + nestingOfItems items := by
  rw [depthOver, deepest_eq fun v hv => (h v hv).depth_eq]

theorem nesting_le_nestingOfItems {v : Value} {vs : List Value} (h : v ∈ vs) :
    v.nesting ≤ nestingOfItems vs := by
  induction h with
  | head => exact Nat.le_max_left _ _
  | tail _ _ ih => exact Nat.le_trans ih (Nat.le_max_right _ _)

theorem nestingOfItems_drop_one_le (items : List Value) :
    nestingOfItems (items.drop 1) ≤ nestingOfItems items := by
  cases items with
  | nil => exact Nat.le_refl _
  | cons v vs => exact Nat.le_max_right _ _

/-- Programs build only sound values from sound ones. -/
theorem hereditary_sound : Hereditary Sound where
  atom := .ofAtom
  item := Sound.item
  body := Sound.body
  list addr h hdepth := .ofList addr h (depthOver_eq h) hdepth
  tail {_ _ items} addr h := by
    have hitems : ∀ v ∈ items.drop 1, v.Sound := fun v hv => h.item v (List.mem_of_mem_drop hv)
    refine .ofList addr hitems (depthOver_eq hitems) ?_
    have hle := nestingOfItems_drop_one_le items
    have hdepth := h.nesting_le
    rw [depthOver_eq hitems]
    omega
  closure addr params frame h := .ofClosure addr params frame h
  builtin _ _ := .ofFlat (by simp) (by simp)
  bridge _ _ := .ofFlat (by simp) (by simp)

/-! ## Deciding soundness -/

mutual

/-- Looks at every list in the value. -/
def checkSound : Value → Bool
  | list _ depth items =>
    depth == 1 + nestingOfItems items && decide (depth ≤ maxNesting) && checkSoundItems items
  | closure _ _ body _ => checkSound body
  | _ => true

def checkSoundItems : List Value → Bool
  | [] => true
  | v :: vs => checkSound v && checkSoundItems vs

end

mutual

theorem checkSound_iff (v : Value) : v.checkSound = true ↔ v.Sound := by
  match v with
  | .list addr depth items =>
    rw [checkSound, Bool.and_eq_true, Bool.and_eq_true, beq_iff_eq, decide_eq_true_iff,
      checkSoundItems_iff items]
    exact ⟨fun ⟨⟨hdepth, hle⟩, h⟩ => .ofList addr h hdepth hle,
      fun h => ⟨h.nesting_le, h.item⟩⟩
  | .closure addr params body frame =>
    rw [checkSound, checkSound_iff body]
    exact ⟨.ofClosure addr params frame, Sound.body⟩
  | .nil | .bool _ | .number _ | .string _ | .symbol _ =>
    exact ⟨fun _ => .ofAtom trivial, fun _ => rfl⟩
  | .builtin .. | .bridge .. => exact ⟨fun _ => .ofFlat (by simp) (by simp), fun _ => rfl⟩

theorem checkSoundItems_iff (vs : List Value) :
    checkSoundItems vs = true ↔ ∀ v ∈ vs, v.Sound := by
  match vs with
  | [] => simp [checkSoundItems]
  | v :: vs =>
    rw [checkSoundItems, Bool.and_eq_true, checkSound_iff v, checkSoundItems_iff vs,
      List.forall_mem_cons]

end

instance (v : Value) : Decidable v.Sound := decidable_of_iff _ (checkSound_iff v)

end Value

open Value (nestingOfItems)

/-! ## New lists -/

/-- What `list` and `cons` do: they build every list within the limit and fail for any other; the
scopes stay as they are. -/
theorem apply_boundedList (bridge : Bridge σ) (addr : Nat) {p : Primitive} {args items : List Value}
    (m : Machine σ) (hp : p.apply args = Primitive.boundedList items)
    (h : ∀ v ∈ items, v.Sound) :
    (apply bridge (.builtin addr p) args m).1 =
        (if 1 + nestingOfItems items ≤ maxNesting then
          .ok (.list m.world.next (1 + nestingOfItems items) items) else .error .listTooDeep) ∧
      (apply bridge (.builtin addr p) args m).2.world.store = m.world.store := by
  have hrun : apply bridge (.builtin addr p) args m = tryOnWorld (·.alloc (p.apply args))
      ⟨m.guard, m.world.record (.apply (.builtin addr p) args)⟩ := bind_ok rfl
  rw [hrun, tryOnWorld_apply, hp]
  refine ⟨?_, rfl⟩
  unfold Primitive.boundedList
  rw [Value.depthOver_eq h]
  by_cases hle : 1 + nestingOfItems items ≤ maxNesting
  · rw [if_neg (Nat.not_lt.2 hle), if_pos hle, ← Value.depthOver_eq h]
    rfl
  · rw [if_pos (Nat.lt_of_not_le hle), if_neg hle]
    rfl

/-- A form whose value fails binds nothing. -/
theorem run_of_value_error {visit : Visit σ} {frame : Nat} {e : Value} {m m' : Machine σ}
    {err : EvalError} (h : visit e frame m = (.error err, m')) (name : String) :
    (SpecialForm.define name e).run visit frame m = (.error err, m') ∧
      (SpecialForm.assign name e).run visit frame m = (.error err, m') :=
  ⟨bind_error h, bind_error h⟩

theorem run_of_values_error {visit : Visit σ} {frame : Nat} {bindings : List (String × Value)}
    {m m' : Machine σ} {err : EvalError}
    (h : visit.each frame (bindings.map Prod.snd) m = (.error err, m')) (body : Value) :
    (SpecialForm.bind bindings body).run visit frame m = (.error err, m') := bind_error h

/-! ## Histories -/

section histories

variable {limits : Limits} {clock : Clock} {host : σ} {history : List (Request σ)}

theorem sound_of_twins {i : Interpreter σ} {i' : Interpreter (σ × List Value)}
    (h : (recording Value.Sound Value.hereditary_sound).Twins i i') {frame : Nat} {name : String}
    {v : Value} (hv : i.machine.world.store.own? frame name = some v) : v.Sound := by
  have hown := h.worlds.store.own?_alike (f := frame) rfl name
  rw [hv] at hown
  obtain ⟨v', -, -, hsound⟩ := hown.some_left
  exact hsound

theorem sound_of_callHost {es es' : List Event}
    (h : List.Forall₂
      (Event.Kin (recording (σ := σ) Value.Sound Value.hereditary_sound).value Eq) es es')
    {target : HostTarget} {args : List Value} (hmem : .callHost target args ∈ es) :
    ∀ v ∈ args, v.Sound := by
  induction h with
  | nil => cases hmem
  | cons he _ ih =>
    rcases List.mem_cons.1 hmem with rfl | hmem
    · cases he with
      | callHost hargs => exact (forall₂_eq_and.1 hargs).2
    · exact ih hmem

/-- **Lists are nested as deeply as they say, and never too deeply.** Take any history of a new
interpreter in which the values that the host defines, and those that host callables return, are
sound. Then at every moment of it every binding of every frame is sound, and so is whatever an
evaluation answers or hands to a host callable. `list` and `cons` build from sound values every list
within the limit; they fail for any other, and then nothing is bound. -/
theorem nesting_bounded (limits : Limits) (clock : Clock) (host : σ) (history : List (Request σ))
    (hdefined : ∀ name v, .define name v ∈ history → v.Sound)
    (hreturned : ∀ v ∈ returned limits clock host history, v.Sound) :
    (∀ past, past <+: history → ∀ frame name v,
      (hosted limits clock host past).machine.world.store.own? frame name = some v → v.Sound) ∧
    (∀ past text, past ++ [.eval text] <+: history →
      let p := (hosted limits clock host past).eval text
      (∀ v, p.1 = .ok v → v.Sound) ∧
      ∀ target args, .callHost target args ∈ p.2.machine.world.journal → ∀ v ∈ args, v.Sound) ∧
    (∀ (bridge : Bridge σ) addr args m, (∀ v ∈ args, v.Sound) →
      let p : Except EvalError Value × Machine σ := apply bridge (.builtin addr .list) args m
      p.1 = (if 1 + nestingOfItems args ≤ maxNesting then
        .ok (.list m.world.next (1 + nestingOfItems args) args) else .error .listTooDeep) ∧
      p.2.world.store = m.world.store) ∧
    (∀ (bridge : Bridge σ) addr v tail depth items m,
      v.Sound → (Value.list tail depth items).Sound →
      let p : Except EvalError Value × Machine σ :=
        apply bridge (.builtin addr .cons) [v, .list tail depth items] m
      p.1 = (if 1 + nestingOfItems (v :: items) ≤ maxNesting then
        .ok (.list m.world.next (1 + nestingOfItems (v :: items)) (v :: items))
        else .error .listTooDeep) ∧
      p.2.world.store = m.world.store) ∧
    (∀ (visit : Visit σ) frame e m err m', visit e frame m = (.error err, m') → ∀ name,
      (SpecialForm.define name e).run visit frame m = (.error err, m') ∧
      (SpecialForm.assign name e).run visit frame m = (.error err, m')) ∧
    ∀ (visit : Visit σ) frame bindings m err m',
      visit.each frame (bindings.map Prod.snd) m = (.error err, m') → ∀ body,
      (SpecialForm.bind bindings body).run visit frame m = (.error err, m') := by
  -- what was returned by then is among what was returned in the end
  have hgood (past : List (Request σ)) (h : past <+: history) :
      ¬ ∃ v ∈ returned limits clock host past, ¬ v.Sound := by
    intro hbad
    obtain ⟨rest, rfl⟩ := h
    obtain ⟨v, hv, hunsound⟩ :=
      broken_append Value.hereditary_sound limits clock host past rest hbad
    exact hunsound (hreturned v hv)
  refine ⟨fun past hpast frame name v hv => ?_, fun past text hpast => ?_,
    fun bridge addr args m h => apply_boundedList bridge addr m rfl h,
    fun bridge addr v tail depth items m hv htail =>
      apply_boundedList bridge addr m rfl (List.forall_mem_cons.2 ⟨hv, htail.item⟩),
    fun visit frame e m err m' h name => run_of_value_error h name,
    fun visit frame bindings m err m' h body => run_of_values_error h body⟩
  · rcases recorded_twins Value.hereditary_sound limits clock host past
      (fun name v h => hdefined name v (hpast.subset h)) with hbad | htwins
    · exact absurd hbad (hgood past hpast)
    · exact sound_of_twins htwins hv
  · have hbefore : past <+: history := (List.prefix_append past _).trans hpast
    rcases recorded_eval Value.hereditary_sound limits clock host past
      (fun name v h => hdefined name v (hbefore.subset h)) text with hbad | ⟨hresult, hevents⟩
    · exact absurd hbad (hgood _ hpast)
    · refine ⟨fun v hv => ?_, fun target args hmem => sound_of_callHost hevents hmem⟩
      rw [hv] at hresult
      generalize ((Interpreter.recorded limits clock host past).eval text).1 = r at hresult
      cases hresult with
      | ok h => exact h.2

/-- The host defines a list, a callable returns it in another one, and a program binds that. -/
theorem nesting_bounded_wrapped :
    let wrap : HostFunction Unit := fun args => do return .value (← Value.ofItems args)
    let history : List (Request Unit) := [.registerFunction "wrap" wrap,
      .define "a" (.list 90 1 [.nil]), .eval "(def b (call-js \"wrap\" a))"]
    let i := hosted .standard .nominal () history
    (∀ v ∈ returned .standard .nominal () history, v.Sound) ∧
      (i.machine.world.store.own? 0 "b").map Value.nesting = some 2 ∧
      ∀ v, i.machine.world.store.own? 0 "b" = some v → v.Sound := by
  intro wrap history i
  have hreturned : ∀ v ∈ returned .standard .nominal () history, v.Sound := by decide +kernel
  have hdefined : ∀ name v, .define name v ∈ history → v.Sound := by
    intro name v h
    obtain ⟨-, rfl⟩ : name = "a" ∧ v = .list 90 1 [.nil] := by simpa [history] using h
    decide
  refine ⟨hreturned, by decide +kernel, fun v hv => ?_⟩
  exact (nesting_bounded .standard .nominal () history hdefined hreturned).1 history
    (List.prefix_refl history) 0 "b" v hv

end histories

end GuardedLisp
