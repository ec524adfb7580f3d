import GuardedLisp.EvalError
import GuardedLisp.Value.Equality

/-!
# The built-in procedures

A built-in procedure computes on its arguments alone; all it may do besides is
allocate a list. Counts are checked before types, and types from the left.

* `+` and `*` fold from 0 and 1. `-` and `/` fold from their first argument and
  need one; with a single argument `-` negates, and `/` returns it.
* `=` compares any two values, the other comparisons two numbers.
* `car` of `()` is `nil`, and `cdr` of `()` is `()`.
* `list` and `cons` refuse a result nested deeper than program text may be.
* `and` and `or` are strict: `and` gives the first argument that counts as
  false, or else the last one, `or` the first that counts as true, or else the
  last one.
-/

namespace GuardedLisp

/-- A computation of a built-in procedure. -/
abbrev PrimitiveM := ExceptT EvalError AllocM

namespace Primitive

/-- The failure of a call with another number of arguments than expected. -/
def wrongCount (p : Primitive) (expected : Nat) (args : List Value) : EvalError :=
  .arity (.builtin p expected args.length)

def number (p : Primitive) : Value → Except EvalError Float
  | .number x => .ok x
  | v => .error (.type (.number p v))

/-- The arguments as numbers; the first that is none is refused. -/
def numbers (p : Primitive) : List Value → Except EvalError (List Float)
  | [] => .ok []
  | v :: vs => do
    let x ← p.number v
    return x :: (← p.numbers vs)

def items (p : Primitive) : Value → Except EvalError (List Value)
  | .list _ _ items => .ok items
  | v => .error (.type (.list p v))

/-- A new list, within the nesting that program text may have. -/
def boundedList (items : List Value) : PrimitiveM Value :=
  if Value.depthOver items > Source.maxNesting then throw .listTooDeep else Value.ofItems items

/-- Folds from the first argument. -/
def foldFromFirst (p : Primitive) (op : Float → Float → Float) :
    List Float → Except EvalError Float
  | [] => .error (.arity (.noArguments p))
  | x :: xs => .ok (xs.foldl op x)

/-- A result that needs no allocation. -/
def pureResult (r : Except EvalError Value) : PrimitiveM Value := ExceptT.mk (pure r)

def arithmetic (p : Primitive) (args : List Value)
    (op : List Float → Except EvalError Float) : PrimitiveM Value :=
  pureResult do return .number (← op (← p.numbers args))

def negateOrSubtract (p : Primitive) : List Float → Except EvalError Float
  | [x] => .ok (-x)
  | xs => p.foldFromFirst (· - ·) xs

/-- Compares two numbers. -/
def ordering (p : Primitive) (test : Float → Float → Bool) (args : List Value) :
    PrimitiveM Value :=
  pureResult do
    match args with
    | [a, b] => do
      let x ← p.number a
      let y ← p.number b
      return .bool (test x y)
    | _ => .error (p.wrongCount 2 args)

/-- Asks something of a single argument. -/
def predicate (p : Primitive) (test : Value → Bool) (args : List Value) : PrimitiveM Value :=
  pureResult <|
    match args with
    | [v] => .ok (.bool (test v))
    | _ => .error (p.wrongCount 1 args)

/-- Computes with the items of a single argument. -/
def onItems (p : Primitive) (args : List Value) (f : List Value → PrimitiveM Value) :
    PrimitiveM Value :=
  match args with
  | [v] =>
    match p.items v with
    | .ok items => f items
    | .error e => throw e
  | _ => throw (p.wrongCount 1 args)

def isEmptyValue : Value → Bool
  | .nil => true
  | .list _ _ items => items.isEmpty
  | _ => false

/-- The first argument that counts as false, or else the last one; `true` of no arguments. -/
def conjunction (args : List Value) : Value :=
  args.foldl (fun acc v => if acc.truthy then v else acc) (.bool true)

/-- The first argument that counts as true, or else the last one; `false` of no arguments. -/
def disjunction (args : List Value) : Value :=
  args.foldl (fun acc v => if acc.truthy then acc else v) (.bool false)

/-- Applies a built-in procedure. -/
def apply (p : Primitive) (args : List Value) : PrimitiveM Value :=
  match p with
  | add => p.arithmetic args fun xs => .ok (xs.foldl (· + ·) 0)
  | subtract => p.arithmetic args p.negateOrSubtract
  | multiply => p.arithmetic args fun xs => .ok (xs.foldl (· * ·) 1)
  | divide => p.arithmetic args (p.foldFromFirst (· / ·))
  | less => p.ordering (fun x y => x < y) args
  | greater => p.ordering (fun x y => y < x) args
  | equal =>
    match args with
    | [a, b] => return .bool (a.equal b)
    | _ => throw (p.wrongCount 2 args)
  | atMost => p.ordering (fun x y => x ≤ y) args
  | atLeast => p.ordering (fun x y => y ≤ x) args
  | isNull => p.predicate isEmptyValue args
  | isNumber => p.predicate (· matches .number _) args
  | isString => p.predicate (· matches .string _) args
  | isList => p.predicate (· matches .list ..) args
  | isProcedure =>
    p.predicate (fun v => v matches .builtin .. | .closure .. | .bridge ..) args
  | not => p.predicate (fun v => !v.truthy) args
  | car => p.onItems args fun items => return items.headD .nil
  | cdr => p.onItems args fun items => Value.ofItems (items.drop 1)
  | cons =>
    match args with
    | [v, tail] =>
      match p.items tail with
      | .ok items => boundedList (v :: items)
      | .error e => throw e
    | _ => throw (p.wrongCount 2 args)
  | list => boundedList args
  | length => p.onItems args fun items => return .number (Float.ofNat items.length)
  | and => return conjunction args
  | or => return disjunction args

end Primitive

end GuardedLisp
