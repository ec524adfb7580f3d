import GuardedLisp.EvalError

/-!
# Values as code

Seen as code, a value is a constant, a variable, a special form or an
application. A non-empty list is a special form if its head is a reserved word
and otherwise an application; `()` stands for itself, as everything does that
is neither a symbol nor a list.

A special form is checked as a whole before any part of it runs: `SpecialForm`
holds what a well-formed one says, and `check` finds the first fault of any
other.
-/

namespace GuardedLisp

inductive Code where
  | constant (v : Value)
  | variable (name : String)
  | special (form : Keyword) (operands : List Value)
  | application (callee : Value) (operands : List Value)

namespace Value

def code : Value → Code
  | symbol name => .variable name
  | list _ _ (head :: rest) =>
    match head with
    | symbol name =>
      match Keyword.ofName? name with
      | some form => .special form rest
      | none => .application head rest
    | _ => .application head rest
  | v => .constant v

end Value

inductive SpecialForm where
  | quote (datum : Value)
  | branch (condition consequent : Value) (alternative : Option Value)
  | define (name : String) (value : Value)
  | assign (name : String) (value : Value)
  | lambda (params : List String) (body : Value)
  | bind (bindings : List (String × Value)) (body : Value)
  /-- At least one expression. -/
  | sequence (first : Value) (rest : List Value)

namespace SpecialForm

/-- The name that `def` or `set!` binds. -/
def name (form : Keyword) : Value → Except SyntaxFault String
  | .symbol name => .ok name
  | got => .error (.name form got)

def params : List Value → Except SyntaxFault (List String)
  | [] => .ok []
  | .symbol name :: vs => do return name :: (← params vs)
  | got :: _ => .error (.parameter got)

def paramList : Value → Except SyntaxFault (List String)
  | .list _ _ items => params items
  | got => .error (.parameters got)

def binding : Value → Except SyntaxFault (String × Value)
  | .list _ _ [.symbol name, value] => .ok (name, value)
  | got => .error (.binding got)

def bindings : List Value → Except SyntaxFault (List (String × Value))
  | [] => .ok []
  | v :: vs => do
    let b ← binding v
    return b :: (← bindings vs)

def bindingList : Value → Except SyntaxFault (List (String × Value))
  | .list _ _ items => bindings items
  | got => .error (.bindings got)

/-- The special form with these operands. -/
def check (form : Keyword) (operands : List Value) : Except SyntaxFault SpecialForm :=
  match form, operands with
  | .quote, [datum] => .ok (quote datum)
  | .branch, [condition, consequent] => .ok (branch condition consequent none)
  | .branch, [condition, consequent, alternative] =>
    .ok (branch condition consequent (some alternative))
  | .define, [target, value] => do return define (← name .define target) value
  | .assign, [target, value] => do return assign (← name .assign target) value
  | .lambda, [parameters, body] => do return lambda (← paramList parameters) body
  | .bind, [pairs, body] => do return bind (← bindingList pairs) body
  | .sequence, first :: rest => .ok (sequence first rest)
  | form, _ => .error (.shape form)

end SpecialForm

end GuardedLisp
