import GuardedLisp.Proofs.Correspondence.Basic
import GuardedLisp.Proofs.Spelling

/-!
# Expressions that correspond

Values that correspond are the same kind of expression, with parts that
correspond (`code_alike`); as special forms, both are well formed or both have the
same fault (`check_alike`).
-/

namespace GuardedLisp

inductive Code.Kin (R : Value → Value → Prop) : Code → Code → Prop where
  | constant {v v' : Value} (h : R v v') : Kin R (.constant v) (.constant v')
  | variable (name : String) : Kin R (.variable name) (.variable name)
  | special {form : Keyword} {operands operands' : List Value}
    (h : List.Forall₂ R operands operands') :
    Kin R (.special form operands) (.special form operands')
  | application {callee callee' : Value} {operands operands' : List Value} (hc : R callee callee')
    (h : List.Forall₂ R operands operands') :
    Kin R (.application callee operands) (.application callee' operands')

inductive SpecialForm.Kin (R : Value → Value → Prop) : SpecialForm → SpecialForm → Prop where
  | quote {datum datum' : Value} (h : R datum datum') : Kin R (.quote datum) (.quote datum')
  | branch {condition condition' consequent consequent' : Value}
    {alternative alternative' : Option Value} (hc : R condition condition')
    (ht : R consequent consequent') (ha : Option.Rel R alternative alternative') :
    Kin R (.branch condition consequent alternative) (.branch condition' consequent' alternative')
  | define {name : String} {e e' : Value} (h : R e e') : Kin R (.define name e) (.define name e')
  | assign {name : String} {e e' : Value} (h : R e e') : Kin R (.assign name e) (.assign name e')
  | lambda {params : List String} {body body' : Value} (h : R body body') :
    Kin R (.lambda params body) (.lambda params body')
  | bind {bindings bindings' : List (String × Value)} {body body' : Value}
    (hb : List.Forall₂ (BindingKin R) bindings bindings') (h : R body body') :
    Kin R (.bind bindings body) (.bind bindings' body')
  | sequence {first first' : Value} {rest rest' : List Value} (h : R first first')
    (hr : List.Forall₂ R rest rest') : Kin R (.sequence first rest) (.sequence first' rest')

namespace Correspondence

variable {σ σ' : Type} {C : Correspondence σ σ'} {v v' : Value} {vs vs' : List Value}

theorem code_alike (h : C.value v v') : Code.Kin C.value v.code v'.code := by
  cases C.kin h with
  | symbol name => exact .variable name
  | list hitems =>
    cases hitems with
    | nil => exact .constant h
    | cons hhead hrest =>
      cases C.kin hhead with
      | symbol name =>
        simp only [Value.code]
        cases Keyword.ofName? name with
        | none => exact .application hhead hrest
        | some form => exact .special hrest
      | _ => exact .application hhead hrest
  | _ => exact .constant h

/-! ## Special forms -/

variable (C) in
/-- Results of checks. -/
abbrev Checks {α β : Type} (R : α → β → Prop) :
    Except SyntaxFault α → Except SyntaxFault β → Prop :=
  ExceptKin (SyntaxFault.Kin C.value) R

theorem name_alike (form : Keyword) (h : C.value v v') :
    C.Checks Eq (SpecialForm.name form v) (SpecialForm.name form v') := by
  cases C.kin h with
  | symbol name => exact .ok rfl
  | _ => exact .error (.name h)

theorem params_alike (h : C.Values vs vs') :
    C.Checks Eq (SpecialForm.params vs) (SpecialForm.params vs') := by
  induction h with
  | nil => exact .ok rfl
  | cons hv _ ih =>
    cases C.kin hv with
    | symbol name =>
      refine ih.bind fun ps _ hps => ?_
      subst hps
      exact .ok rfl
    | _ => exact .error (.parameter hv)

theorem paramList_alike (h : C.value v v') :
    C.Checks Eq (SpecialForm.paramList v) (SpecialForm.paramList v') := by
  cases C.kin h with
  | list hitems => exact params_alike hitems
  | _ => exact .error (.parameters h)

/-- Either both are a name and a value, or neither is. -/
theorem binding_alike (h : C.value v v') :
    C.Checks (BindingKin C.value) (SpecialForm.binding v) (SpecialForm.binding v') := by
  cases C.kin h with
  | list hitems =>
    cases hitems with
    | nil => exact .error (.binding h)
    | cons hname hrest =>
      cases C.kin hname with
      | symbol name =>
        cases hrest with
        | nil => exact .error (.binding h)
        | cons he hmore =>
          cases hmore with
          | nil => exact .ok ⟨rfl, he⟩
          | cons _ _ => exact .error (.binding h)
      | _ => exact .error (.binding h)
  | _ => exact .error (.binding h)

theorem bindings_alike (h : C.Values vs vs') :
    C.Checks (List.Forall₂ (BindingKin C.value)) (SpecialForm.bindings vs)
      (SpecialForm.bindings vs') := by
  induction h with
  | nil => exact .ok .nil
  | cons hv _ ih =>
    exact (binding_alike hv).bind fun _ _ hb => ih.bind fun _ _ hbs => .ok (.cons hb hbs)

theorem bindingList_alike (h : C.value v v') :
    C.Checks (List.Forall₂ (BindingKin C.value)) (SpecialForm.bindingList v)
      (SpecialForm.bindingList v') := by
  cases C.kin h with
  | list hitems => exact bindings_alike hitems
  | _ => exact .error (.bindings h)

/-- **Operands that correspond spell forms that correspond, or have the same fault.** -/
theorem check_alike (form : Keyword) (h : C.Values vs vs') :
    C.Checks (SpecialForm.Kin C.value) (SpecialForm.check form vs)
      (SpecialForm.check form vs') := by
  by_cases hn : form.Takes vs.length
  · match form, vs, vs', h with
    | .quote, [_], [_], .cons hd .nil => exact .ok (.quote hd)
    | .branch, [_, _], [_, _], .cons hc (.cons ht .nil) => exact .ok (.branch hc ht .none)
    | .branch, [_, _, _], [_, _, _], .cons hc (.cons ht (.cons ha .nil)) =>
      exact .ok (.branch hc ht (.some ha))
    | .define, [_, _], [_, _], .cons ht (.cons he .nil) =>
      refine (name_alike .define ht).bind fun name _ hname => ?_
      subst hname
      exact .ok (.define he)
    | .assign, [_, _], [_, _], .cons ht (.cons he .nil) =>
      refine (name_alike .assign ht).bind fun name _ hname => ?_
      subst hname
      exact .ok (.assign he)
    | .lambda, [_, _], [_, _], .cons hp (.cons hb .nil) =>
      refine (paramList_alike hp).bind fun params _ hparams => ?_
      subst hparams
      exact .ok (.lambda hb)
    | .bind, [_, _], [_, _], .cons hp (.cons hb .nil) =>
      exact (bindingList_alike hp).bind fun _ _ hbs => .ok (.bind hbs hb)
    | .sequence, _ :: _, _ :: _, .cons hf hr => exact .ok (.sequence hf hr)
  · have hn' : ¬ form.Takes vs'.length := by rwa [← h.length_eq]
    rw [(SpecialForm.Faulty.shape hn).check_eq, (SpecialForm.Faulty.shape hn').check_eq]
    exact .error (.shape form)

end Correspondence

end GuardedLisp
