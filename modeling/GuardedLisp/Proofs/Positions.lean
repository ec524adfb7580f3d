import GuardedLisp.Proofs.Parts
import GuardedLisp.Proofs.Spelling
import GuardedLisp.Proofs.Rules
import Mathlib.Logic.Relation

/-!
# Evaluated positions

The parts of an expression that its evaluation may visit. An application has them
in all its items. A special form has them where it holds expressions: nothing in
the argument of `quote`, in a parameter list or in the place of a name is one.
-/

namespace GuardedLisp

/-- The form holds this expression. -/
inductive SpecialForm.Holds : SpecialForm → Value → Prop where
  | condition (condition consequent : Value) (alternative : Option Value) :
    Holds (.branch condition consequent alternative) condition
  | consequent (condition consequent : Value) (alternative : Option Value) :
    Holds (.branch condition consequent alternative) consequent
  | alternative (condition consequent alternative : Value) :
    Holds (.branch condition consequent (some alternative)) alternative
  | defined (name : String) (e : Value) : Holds (.define name e) e
  | assigned (name : String) (e : Value) : Holds (.assign name e) e
  | body (params : List String) (body : Value) : Holds (.lambda params body) body
  | init {bindings : List (String × Value)} {b : String × Value} (hb : b ∈ bindings)
    (body : Value) : Holds (.bind bindings body) b.2
  | bindBody (bindings : List (String × Value)) (body : Value) : Holds (.bind bindings body) body
  | item {first e : Value} {rest : List Value} (he : e ∈ first :: rest) :
    Holds (.sequence first rest) e

namespace Value

/-- The expression spells the special form. -/
inductive Says : Value → SpecialForm → Prop where
  | intro {form : Keyword} {operands : List Value} {f : SpecialForm} (addr depth : Nat)
    (h : SpecialForm.Spells form operands f) :
    Says (.list addr depth (.symbol form.name :: operands)) f

/-- The second expression stands in an evaluated position of the first one, with no other such
position around it. -/
inductive Subform : Value → Value → Prop where
  | item {addr depth : Nat} {head e : Value} {operands : List Value} (hhead : ¬ head.IsReserved)
    (he : e ∈ head :: operands) : Subform (.list addr depth (head :: operands)) e
  | held {c e : Value} {f : SpecialForm} (hc : c.Says f) (he : f.Holds e) : Subform c e

/-- The second expression is the first one, or stands in an evaluated position of it. -/
abbrev Occurs : Value → Value → Prop := Relation.ReflTransGen Subform

/-- A subform is inside one of the items. -/
theorem Says.quoted {c d : Value} (h : c.Says (.quote d)) :
    ∃ addr depth items, c = .list addr depth items ∧ d ∈ items := by
  obtain ⟨addr, depth, h⟩ := h
  cases h
  exact ⟨addr, depth, _, rfl, by simp⟩

variable {c e : Value}

theorem part_of_binds {pair : Value} {b : String × Value} (h : pair.Binds b) :
    pair.Part True b.2 := by
  obtain ⟨addr, depth, rfl⟩ := h
  exact .item (by simp) (.refl _)

/-- What an expression evaluates is part of it. -/
theorem Subform.part (h : c.Subform e) : c.Part True e := by
  cases h with
  | item hhead he => exact .item he (.refl e)
  | held hc he =>
    obtain ⟨addr, depth, hspells⟩ := hc
    cases hspells with
    | quote => cases he
    | branch | branchElse | define | assign | lambda =>
      cases he <;> exact .item (by simp) (.refl _)
    | bind hpairs =>
      cases he with
      | init hb =>
        obtain ⟨pair, hpair, hbinds⟩ := forall₂_mem_left hpairs.flip hb
        exact .item (List.mem_cons_of_mem _ List.mem_cons_self)
          (.item hpair (part_of_binds hbinds))
      | bindBody => exact .item (by simp) (.refl _)
    | sequence =>
      cases he with
      | item he => exact .item (List.mem_cons_of_mem _ he) (.refl _)

theorem Occurs.part (h : c.Occurs e) : c.Part True e := by
  induction h with
  | refl => exact .refl c
  | tail _ he ih => exact ih.trans he.part

end Value

end GuardedLisp
