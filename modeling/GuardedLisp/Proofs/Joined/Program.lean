import GuardedLisp.Proofs.Adequacy
import GuardedLisp.Proofs.Loading

/-!
# Programs in two parts

A program runs its first forms as they run by themselves, and if these succeed, the
others go on from there (`evalProgram_append_error`, `evalProgram_append_ok`). What
was counted before makes no difference to forms that the guard lets through, apart
from the count (`evalProgram_recount`).
-/

namespace GuardedLisp

open EvalM
open Source (Datum)

variable {σ : Type}

/-! ## Reading -/

theorem Value.run_ofData_append (ds es : List Datum) (n : Nat) :
    (ofData (ds ++ es)).run n =
      (((ofData ds).run n).1 ++ ((ofData es).run ((ofData ds).run n).2).1,
        ((ofData es).run ((ofData ds).run n).2).2) := by
  induction ds generalizing n with
  | nil => rw [ofData]; rfl
  | cons d ds ih => rw [List.cons_append, run_ofData_cons, run_ofData_cons, ih, List.cons_append]

theorem Machine.program_append (m : Machine σ) (ds es : List Datum) :
    m.program (ds ++ es) = m.program ds ++ (m.load ds).program es :=
  congrArg Prod.fst (Value.run_ofData_append ds es m.world.next)

/-- Reading more takes more identities. -/
theorem Machine.load_append (m : Machine σ) (ds es : List Datum) :
    m.load (ds ++ es) = { m.load ds with
      world := { (m.load ds).world with
        next := ((Value.ofData es).run (m.load ds).world.next).2 } } := by
  simp only [load, Value.run_ofData_append]

/-! ## Running -/

/-- Runs these data as a program. -/
def Machine.execute (bridge : Bridge σ) (f : Nat) (m : Machine σ) (data : List Datum) :
    Except EvalError Value × Machine σ := evalProgram bridge f (m.program data) (m.load data)

section run

variable {bridge : Bridge σ} {f : Nat} {m m' : Machine σ} {program : List Value}

theorem Visit.last_append (visit : Visit σ) (e e' : Value) (es es' : List Value) :
    visit.last f e (es ++ e' :: es') = visit.last f e es >>= fun _ => visit.last f e' es' := by
  induction es generalizing e with
  | nil => rfl
  | cons d ds ih =>
    rw [List.cons_append, last, last, bind_assoc]
    exact congrArg _ (funext fun _ => ih d)

theorem evalProgram_append_error {e : EvalError}
    (h : evalProgram bridge f program m = (.error e, m')) (later : List Value) :
    evalProgram bridge f (program ++ later) m = (.error e, m') := by
  cases program with
  | nil => cases h
  | cons form forms =>
    cases later with
    | nil => rw [List.append_nil, h]
    | cons next rest =>
      change Visit.last (eval bridge) f form (forms ++ next :: rest) m = _
      rw [Visit.last_append]
      exact EvalM.bind_error h

/-- The value of the first forms counts if there are no others. -/
theorem evalProgram_append_ok {v : Value}
    (h : evalProgram bridge f program m = (.ok v, m')) (later : List Value) :
    evalProgram bridge f (program ++ later) m =
      (if later = [] then .ok v else (evalProgram bridge f later m').1,
        (evalProgram bridge f later m').2) := by
  cases later with
  | nil => rw [List.append_nil, h]; rfl
  | cons next rest =>
    rw [if_neg (List.cons_ne_nil _ _)]
    cases program with
    | nil => cases h; rfl
    | cons form forms =>
      change Visit.last (eval bridge) f form (forms ++ next :: rest) m = _
      rw [Visit.last_append]
      exact EvalM.bind_ok h

/-- Forms that are not refused run as they do where fewer operations were counted before, and add as
many to the count. -/
theorem evalProgram_recount (m' : Machine σ) {c : Cost} (ht : m.guard.Timely)
    (ha : m.guard.Affords .none) (hg : m.guard = m'.guard.spend c)
    (hs : m'.world.scene = m.world.scene)
    (h : ¬ Refused (evalProgram bridge f program m).1) :
    ∃ c', m.guard.Affords c' ∧ (evalProgram bridge f program m).2.guard = m.guard.spend c' ∧
      (evalProgram bridge f program m').2.guard = m'.guard.spend c' ∧
      (evalProgram bridge f program m').1 = (evalProgram bridge f program m).1 ∧
      (evalProgram bridge f program m').2.world.scene =
        (evalProgram bridge f program m).2.world.scene := by
  cases program with
  | nil => exact ⟨.none, ha, rfl, rfl, rfl, hs⟩
  | cons e es =>
    have hvisit (code : Value) (frame : Nat) (k : Machine σ) (hk : k.guard.Ready m.guard.room) :
        Explained (Evaluates bridge code frame k.world.scene) (eval bridge code frame) k :=
      eval_explained bridge code frame k hk.timely
    -- the rules count the same from wherever the count begins
    obtain ⟨c', hc', ha', hg'⟩ := last_explained hvisit f e es m ⟨rfl, ht, ha⟩ h
    have ht' : m'.guard.Timely := by rw [hg] at ht; exact ht
    have hafford : m'.guard.Affords c' := by
      rw [hg] at ha'
      simp only [Guard.Affords, Guard.spend] at ha' ⊢
      omega
    obtain ⟨hr, hscene, hguard⟩ := hc'.attains m' hs ht' hafford
    exact ⟨c', ha', hg', hguard, hr, hscene⟩

end run

end GuardedLisp
