import GuardedLisp.Interpreter
import GuardedLisp.Proofs.Discipline.Basic
import GuardedLisp.Proofs.Printing.Equality

/-!
# Values made between evaluations

A table of globals and the program of a text are made one value after the other,
each with the next identity, from atoms and from what was made before. So they keep
every discipline.
-/

namespace GuardedLisp

open Source (Datum)

variable {σ α β γ : Type}

namespace Discipline

variable (D : Discipline σ)

/-- The computation makes what `R` holds of at a later stage. -/
def Supplies (i : D.Stage) (x : AllocM α) (R : D.Stage → α → Prop) : Prop :=
  ∀ w, D.rest i w → ∃ j, D.After i j ∧ D.rest j { w with next := (x.run w.next).2 } ∧
    R j (x.run w.next).1

variable {D} {i : D.Stage}

namespace Supplies

variable {x : AllocM α} {R : D.Stage → α → Prop} {S : D.Stage → β → Prop} {a : α}

theorem pure (h : R i a) : D.Supplies i (pure a) R := fun _ hw => ⟨i, D.refl i, hw, h⟩

theorem bind {f : α → AllocM β} (hx : D.Supplies i x R)
    (hf : ∀ j, D.After i j → ∀ a, R j a → D.Supplies j (f a) S) : D.Supplies i (x >>= f) S := by
  intro w hw
  obtain ⟨j, hij, hrest, ha⟩ := hx w hw
  obtain ⟨k, hjk, hrest, hb⟩ := hf j hij _ ha _ hrest
  exact ⟨k, D.trans hij hjk, hrest, hb⟩

theorem make (make : Nat → Value)
    (h : ∀ n, (make n).NewAt n (D.value i) (D.code i) (D.frame i)) :
    D.Supplies i (do return make (← fresh)) D.value :=
  fun w hw => D.make hw (h w.next)

end Supplies

/-! ## Globals -/

/-- Names of values that may be at hand. -/
abbrev Bound (D : Discipline σ) (i : D.Stage) (bindings : List (String × Value)) : Prop :=
  ∀ b ∈ bindings, D.value i b.2

theorem supplies_named (name : γ → String) {procedure : Nat → γ → Value}
    (h : ∀ (i : D.Stage) n c, (procedure n c).NewAt n (D.value i) (D.code i) (D.frame i))
    (cs : List γ) : D.Supplies i (Globals.named name procedure cs) D.Bound := by
  induction cs generalizing i with
  | nil => exact .pure (by simp)
  | cons c cs ih =>
    have hhead : D.Supplies i (do return procedure (← fresh) c) D.value :=
      .make (procedure · c) fun n => h i n c
    have hsplit : Globals.named name procedure (c :: cs) =
        (do return procedure (← fresh) c) >>= fun v => Globals.named name procedure cs >>= fun bs =>
          return (name c, v) :: bs := rfl
    rw [hsplit]
    refine hhead.bind fun j _ v hv => ih.bind fun k hjk bs hbs => .pure ?_
    exact List.forall_mem_cons.2 ⟨D.value_after hjk hv, hbs⟩

theorem supplies_table : D.Supplies i Globals.table D.Bound := by
  refine (supplies_named _ (fun _ _ p => .builtin p) _).bind fun j _ primitives hp => ?_
  refine (supplies_named _ (fun _ _ call => .bridge call) _).bind fun k hjk calls hc => .pure ?_
  intro b hb
  rcases List.mem_append.1 hb with hb | hb
  · rcases List.mem_append.1 hb with hb | hb
    · exact D.value_after hjk (hp b hb)
    · exact hc b hb
  · refine D.atom ?_
    simp only [Globals.constants, List.mem_cons, List.not_mem_nil, or_false] at hb
    rcases hb with rfl | rfl | rfl <;> trivial

/-! ## Programs -/

mutual

theorem supplies_ofDatum (i : D.Stage) (d : Datum) : D.Supplies i (Value.ofDatum d) D.value := by
  match d with
  | .number x => rw [Value.ofDatum]; exact .pure (D.atom trivial)
  | .string s => rw [Value.ofDatum]; exact .pure (D.atom trivial)
  | .symbol name => rw [Value.ofDatum]; exact .pure (D.atom trivial)
  | .list items =>
    rw [Value.ofDatum]
    refine (supplies_ofData i items).bind fun j _ vs hvs => ?_
    exact .make (.list · (Value.depthOver vs) vs) fun n => .list hvs

theorem supplies_ofData (i : D.Stage) (ds : List Datum) :
    D.Supplies i (Value.ofData ds) fun j vs => ∀ v ∈ vs, D.value j v := by
  match ds with
  | [] => rw [Value.ofData]; exact .pure (by simp)
  | d :: ds =>
    rw [Value.ofData]
    refine (supplies_ofDatum i d).bind fun j _ v hv => ?_
    refine (supplies_ofData j ds).bind fun k hjk vs hvs => ?_
    exact .pure (List.forall_mem_cons.2 ⟨D.value_after hjk hv, hvs⟩)

end

end Discipline

end GuardedLisp
