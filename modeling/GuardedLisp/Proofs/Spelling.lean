import GuardedLisp.Eval.Form
import Mathlib.Data.List.Forall2

/-!
# How special forms are spelled

The operands of a special form either spell it or have a first fault. Both are
said here by patterns of operands; the check of a form decides between them
(`check_eq_ok_iff`, `check_eq_error_iff`).
-/

namespace GuardedLisp

/-- A number of operands that the form can have. -/
def Keyword.Takes : Keyword → Nat → Prop
  | .quote, n => n = 1
  | .branch, n => n = 2 ∨ n = 3
  | .define, n | .assign, n | .lambda, n | .bind, n => n = 2
  | .sequence, n => 1 ≤ n

def Value.IsSymbol (v : Value) : Prop := ∃ name, v = .symbol name

def Value.IsList (v : Value) : Prop := ∃ addr depth items, v = .list addr depth items

/-- The pair `(name value)`. -/
def Value.Binds (pair : Value) (binding : String × Value) : Prop :=
  ∃ addr depth, pair = .list addr depth [.symbol binding.1, binding.2]

namespace SpecialForm

/-- The operands of a form, and what they say. -/
inductive Spells : Keyword → List Value → SpecialForm → Prop where
  | quote (datum : Value) : Spells .quote [datum] (.quote datum)
  | branch (condition consequent : Value) :
    Spells .branch [condition, consequent] (.branch condition consequent none)
  | branchElse (condition consequent alternative : Value) :
    Spells .branch [condition, consequent, alternative]
      (.branch condition consequent (some alternative))
  | define (name : String) (e : Value) : Spells .define [.symbol name, e] (.define name e)
  | assign (name : String) (e : Value) : Spells .assign [.symbol name, e] (.assign name e)
  | lambda (addr depth : Nat) (params : List String) (body : Value) :
    Spells .lambda [.list addr depth (params.map .symbol), body] (.lambda params body)
  | bind {addr depth : Nat} {pairs : List Value} {bindings : List (String × Value)} {body : Value}
    (h : List.Forall₂ Value.Binds pairs bindings) :
    Spells .bind [.list addr depth pairs, body] (.bind bindings body)
  | sequence (first : Value) (rest : List Value) :
    Spells .sequence (first :: rest) (.sequence first rest)

/-- The first fault among the operands of a form. -/
inductive Faulty : Keyword → List Value → SyntaxFault → Prop where
  | shape {form : Keyword} {operands : List Value} (h : ¬ form.Takes operands.length) :
    Faulty form operands (.shape form)
  | name {form : Keyword} {got e : Value} (hform : form = .define ∨ form = .assign)
    (h : ¬ got.IsSymbol) : Faulty form [got, e] (.name form got)
  | parameters {got body : Value} (h : ¬ got.IsList) :
    Faulty .lambda [got, body] (.parameters got)
  | parameter {addr depth : Nat} {params : List String} {got : Value} {rest : List Value}
    {body : Value} (h : ¬ got.IsSymbol) :
    Faulty .lambda [.list addr depth (params.map .symbol ++ got :: rest), body] (.parameter got)
  | bindings {got body : Value} (h : ¬ got.IsList) : Faulty .bind [got, body] (.bindings got)
  | binding {addr depth : Nat} {pairs rest : List Value} {bindings : List (String × Value)}
    {got body : Value} (hpairs : List.Forall₂ Value.Binds pairs bindings)
    (h : ¬ ∃ b, got.Binds b) :
    Faulty .bind [.list addr depth (pairs ++ got :: rest), body] (.binding got)

/-! ## Parts of a form -/

theorem name_of_not_isSymbol {form : Keyword} {v : Value} (h : ¬ v.IsSymbol) :
    name form v = .error (.name form v) := by
  unfold name
  split
  · next s => exact absurd ⟨s, rfl⟩ h
  · rfl

theorem paramList_of_not_isList {v : Value} (h : ¬ v.IsList) :
    paramList v = .error (.parameters v) := by
  unfold paramList
  split
  · exact absurd ⟨_, _, _, rfl⟩ h
  · rfl

theorem bindingList_of_not_isList {v : Value} (h : ¬ v.IsList) :
    bindingList v = .error (.bindings v) := by
  unfold bindingList
  split
  · exact absurd ⟨_, _, _, rfl⟩ h
  · rfl

theorem params_map_symbol (ps : List String) : params (ps.map .symbol) = .ok ps := by
  induction ps with
  | nil => rfl
  | cons p ps ih => rw [List.map_cons, params, ih]; rfl

theorem params_map_symbol_append {got : Value} (h : ¬ got.IsSymbol) (ps : List String)
    (rest : List Value) : params (ps.map .symbol ++ got :: rest) = .error (.parameter got) := by
  induction ps with
  | nil =>
    rw [List.map_nil, List.nil_append, params]
    rintro name rfl
    exact h ⟨name, rfl⟩
  | cons p ps ih => rw [List.map_cons, List.cons_append, params, ih]; rfl

/-- Either all of them are symbols, or one is the first that is none. -/
theorem symbols_or_first_fault (vs : List Value) :
    (∃ ps : List String, vs = ps.map .symbol) ∨
      ∃ (ps : List String) (got : Value) (rest : List Value),
        ¬ got.IsSymbol ∧ vs = ps.map .symbol ++ got :: rest := by
  induction vs with
  | nil => exact .inl ⟨[], rfl⟩
  | cons v vs ih =>
    by_cases hv : v.IsSymbol
    · obtain ⟨p, rfl⟩ := hv
      rcases ih with ⟨ps, rfl⟩ | ⟨ps, got, rest, h, rfl⟩
      · exact .inl ⟨p :: ps, rfl⟩
      · exact .inr ⟨p :: ps, got, rest, h, rfl⟩
    · exact .inr ⟨[], v, vs, hv, rfl⟩

theorem binding_of_binds {pair : Value} {b : String × Value} (h : pair.Binds b) :
    binding pair = .ok b := by
  obtain ⟨addr, depth, rfl⟩ := h
  rfl

theorem binding_of_not_binds {v : Value} (h : ¬ ∃ b, v.Binds b) :
    binding v = .error (.binding v) := by
  unfold binding
  split
  · next name value => exact absurd ⟨(name, value), _, _, rfl⟩ h
  · rfl

theorem bindings_of_forall₂ {pairs : List Value} {bs : List (String × Value)}
    (h : List.Forall₂ Value.Binds pairs bs) : bindings pairs = .ok bs := by
  induction h with
  | nil => rfl
  | cons hb _ ih => rw [bindings, binding_of_binds hb, ih]; rfl

theorem bindings_of_forall₂_append {pairs : List Value} {bs : List (String × Value)} {got : Value}
    (hpairs : List.Forall₂ Value.Binds pairs bs) (h : ¬ ∃ b, got.Binds b) (rest : List Value) :
    bindings (pairs ++ got :: rest) = .error (.binding got) := by
  induction hpairs with
  | nil => rw [List.nil_append, bindings, binding_of_not_binds h]; rfl
  | cons hb _ ih => rw [List.cons_append, bindings, binding_of_binds hb, ih]; rfl

/-- Either all of them are bindings, or one is the first that is none. -/
theorem bindings_or_first_fault (vs : List Value) :
    (∃ bs, List.Forall₂ Value.Binds vs bs) ∨
      ∃ pairs bs got rest, List.Forall₂ Value.Binds pairs bs ∧ (¬ ∃ b, got.Binds b) ∧
        vs = pairs ++ got :: rest := by
  induction vs with
  | nil => exact .inl ⟨[], .nil⟩
  | cons v vs ih =>
    by_cases hv : ∃ b, v.Binds b
    · obtain ⟨b, hb⟩ := hv
      rcases ih with ⟨bs, hbs⟩ | ⟨pairs, bs, got, rest, hbs, h, rfl⟩
      · exact .inl ⟨b :: bs, .cons hb hbs⟩
      · exact .inr ⟨v :: pairs, b :: bs, got, rest, .cons hb hbs, h, rfl⟩
    · exact .inr ⟨[], [], v, vs, .nil, hv, rfl⟩

/-! ## The check -/

theorem Spells.check_eq {form : Keyword} {operands : List Value} {f : SpecialForm}
    (h : Spells form operands f) : check form operands = .ok f := by
  cases h with
  | quote | branch | branchElse | define | assign | sequence => rfl
  | lambda addr depth params body => rw [check, paramList, params_map_symbol]; rfl
  | bind h => rw [check, bindingList, bindings_of_forall₂ h]; rfl

theorem Faulty.check_eq {form : Keyword} {operands : List Value} {fault : SyntaxFault}
    (h : Faulty form operands fault) : check form operands = .error fault := by
  cases h with
  | shape h =>
    unfold check
    split <;> first | rfl | simp [Keyword.Takes] at h
  | name hform h =>
    rcases hform with rfl | rfl <;> rw [check, name_of_not_isSymbol h] <;> rfl
  | parameters h => rw [check, paramList_of_not_isList h]; rfl
  | parameter h => rw [check, paramList, params_map_symbol_append h]; rfl
  | bindings h => rw [check, bindingList_of_not_isList h]; rfl
  | binding hpairs h => rw [check, bindingList, bindings_of_forall₂_append hpairs h]; rfl

theorem lambda_spells_or_faulty (parameters body : Value) :
    (∃ f, Spells .lambda [parameters, body] f) ∨
      ∃ fault, Faulty .lambda [parameters, body] fault := by
  by_cases h : parameters.IsList
  · obtain ⟨addr, depth, items, rfl⟩ := h
    rcases symbols_or_first_fault items with ⟨ps, rfl⟩ | ⟨ps, got, rest, hgot, rfl⟩
    · exact .inl ⟨_, .lambda addr depth ps body⟩
    · exact .inr ⟨_, .parameter hgot⟩
  · exact .inr ⟨_, .parameters h⟩

theorem bind_spells_or_faulty (pairs body : Value) :
    (∃ f, Spells .bind [pairs, body] f) ∨ ∃ fault, Faulty .bind [pairs, body] fault := by
  by_cases h : pairs.IsList
  · obtain ⟨addr, depth, items, rfl⟩ := h
    rcases bindings_or_first_fault items with ⟨bs, hbs⟩ | ⟨pairs, bs, got, rest, hbs, hgot, rfl⟩
    · exact .inl ⟨_, .bind hbs⟩
    · exact .inr ⟨_, .binding hbs hgot⟩
  · exact .inr ⟨_, .bindings h⟩

/-- Operands that do not spell a form have a fault. -/
theorem spells_or_faulty (form : Keyword) (operands : List Value) :
    (∃ f, Spells form operands f) ∨ ∃ fault, Faulty form operands fault := by
  by_cases hn : form.Takes operands.length
  · match form, operands with
    | .quote, [datum] => exact .inl ⟨_, .quote datum⟩
    | .branch, [condition, consequent] => exact .inl ⟨_, .branch condition consequent⟩
    | .branch, [condition, consequent, alternative] =>
      exact .inl ⟨_, .branchElse condition consequent alternative⟩
    | .define, [target, e] =>
      by_cases h : target.IsSymbol
      · obtain ⟨name, rfl⟩ := h
        exact .inl ⟨_, .define name e⟩
      · exact .inr ⟨_, .name (.inl rfl) h⟩
    | .assign, [target, e] =>
      by_cases h : target.IsSymbol
      · obtain ⟨name, rfl⟩ := h
        exact .inl ⟨_, .assign name e⟩
      · exact .inr ⟨_, .name (.inr rfl) h⟩
    | .lambda, [parameters, body] => exact lambda_spells_or_faulty parameters body
    | .bind, [pairs, body] => exact bind_spells_or_faulty pairs body
    | .sequence, first :: rest => exact .inl ⟨_, .sequence first rest⟩
  · exact .inr ⟨_, .shape hn⟩

/-- The check finds the form that the operands spell. -/
theorem check_eq_ok_iff {form : Keyword} {operands : List Value} {f : SpecialForm} :
    check form operands = .ok f ↔ Spells form operands f := by
  refine ⟨fun h => ?_, Spells.check_eq⟩
  rcases spells_or_faulty form operands with ⟨f', hf⟩ | ⟨fault, hfault⟩
  · rw [hf.check_eq] at h; cases h; exact hf
  · rw [hfault.check_eq] at h; cases h

/-- The check reports the first fault of the operands. -/
theorem check_eq_error_iff {form : Keyword} {operands : List Value} {fault : SyntaxFault} :
    check form operands = .error fault ↔ Faulty form operands fault := by
  refine ⟨fun h => ?_, Faulty.check_eq⟩
  rcases spells_or_faulty form operands with ⟨f, hf⟩ | ⟨fault', hfault⟩
  · rw [hf.check_eq] at h; cases h
  · rw [hfault.check_eq] at h; cases h; exact hfault

end SpecialForm

end GuardedLisp
