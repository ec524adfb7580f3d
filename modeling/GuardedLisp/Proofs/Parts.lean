import GuardedLisp.Proofs.Correspondence.Basic
import Mathlib.Tactic.Common

/-!
# Values within values

A value has parts: itself, the parts of the items of a list, and, seen as code,
the parts of the body of a closure (`Value.Part`). It captures the frames of the
closures among its parts (`Value.Captures`).
-/

namespace GuardedLisp

theorem forall₂_mem_left {α β : Type} {R : α → β → Prop} {as : List α} {bs : List β}
    (h : List.Forall₂ R as bs) {a : α} (ha : a ∈ as) : ∃ b ∈ bs, R a b := by
  induction h with
  | nil => cases ha
  | cons hab _ ih =>
    rcases List.mem_cons.1 ha with rfl | ha
    · exact ⟨_, List.mem_cons_self, hab⟩
    · obtain ⟨b, hb, hab⟩ := ih ha
      exact ⟨b, List.mem_cons_of_mem _ hb, hab⟩

namespace Value

/-- The identity of the allocation. -/
def addr? : Value → Option Nat
  | .list addr _ _ | .builtin addr _ | .closure addr _ _ _ | .bridge addr _ => some addr
  | _ => none

/-- The first value has the second one as a part. Bodies of closures count if `bodies` holds. -/
inductive Part (bodies : Prop) : Value → Value → Prop where
  | refl (v : Value) : Part bodies v v
  | item {addr depth : Nat} {items : List Value} {v w : Value} (hv : v ∈ items)
    (h : Part bodies v w) : Part bodies (.list addr depth items) w
  | body {addr frame : Nat} {params : List String} {body w : Value} (hb : bodies)
    (h : Part bodies body w) : Part bodies (.closure addr params body frame) w

/-- Some closure in the value was made in the frame. -/
def Captures (bodies : Prop) (v : Value) (f : Nat) : Prop :=
  ∃ addr params body, v.Part bodies (.closure addr params body f)

variable {bodies : Prop} {u v w : Value}

theorem Part.trans (h : Part bodies u v) (h' : Part bodies v w) : Part bodies u w := by
  induction h with
  | refl => exact h'
  | item hv _ ih => exact .item hv (ih h')
  | body hb _ ih => exact .body hb (ih h')

/-- A value that is no list and no closure is its only part. -/
theorem Part.eq_of_flat (h : Part bodies v w)
    (hlist : ∀ addr depth items, v ≠ .list addr depth items)
    (hclosure : ∀ addr params body frame, v ≠ .closure addr params body frame) : w = v := by
  cases h with
  | refl => rfl
  | item => exact (hlist _ _ _ rfl).elim
  | body => exact (hclosure _ _ _ _ rfl).elim

theorem Captures.item {addr depth f : Nat} {items : List Value} (hv : v ∈ items)
    (h : v.Captures bodies f) : (Value.list addr depth items).Captures bodies f := by
  obtain ⟨a, params, body, hpart⟩ := h
  exact ⟨a, params, body, .item hv hpart⟩

theorem Captures.body {addr f g : Nat} {params : List String} {code : Value}
    (h : code.Captures True f) : (Value.closure addr params code g).Captures True f := by
  obtain ⟨a, params, body, hpart⟩ := h
  exact ⟨a, params, body, .body trivial hpart⟩

theorem captures_frame (addr : Nat) (params : List String) (code : Value) (f : Nat) :
    (Value.closure addr params code f).Captures bodies f := ⟨addr, params, code, .refl _⟩

theorem not_captures_of_isAtom (h : v.IsAtom) (f : Nat) : ¬ v.Captures bodies f := by
  rintro ⟨addr, params, body, hpart⟩
  have heq := hpart.eq_of_flat (by rintro _ _ _ rfl; exact h) (by rintro _ _ _ _ rfl; exact h)
  subst heq
  exact h

end Value

end GuardedLisp
