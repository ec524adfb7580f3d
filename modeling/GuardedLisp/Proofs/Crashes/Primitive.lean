import GuardedLisp.Primitive.Apply
import GuardedLisp.Proofs.Crashes.Basic

/-!
# Built-in procedures do not crash

The procedures of a family share their code and are told apart by their names, and
arguments are taken by number once they were counted. A family is asked for its own
procedures only, so no case is left out; and numbers are as many as the arguments that
they were read from.
-/

namespace GuardedLisp

open CrashM

namespace Crashing

/-- `+`, `-`, `*` and `/`. -/
def arithmetic (p : Primitive) (args : List Value) : CrashM Nat Value := do
  let xs ← ofExcept id (p.numbers args)
  let op : Float → Float → Float ←
    match p.name with
    | "+" => pure (· + ·)
    | "-" => pure (· - ·)
    | "*" => pure (· * ·)
    | "/" => pure (· / ·)
    | name => crash (.unreachable s!"not an arithmetic op: {name}")
  match p.name, xs with
  | "+", _ => return .number (xs.foldl op 0)
  | "*", _ => return .number (xs.foldl op 1)
  | "-", [x] => return .number (-x)
  | _, x :: xs => return .number (xs.foldl op x)
  | _, [] => throw (.arity (.noArguments p))

/-- `<`, `>`, `=`, `<=` and `>=`. -/
def comparison (p : Primitive) (args : List Value) : CrashM Nat Value := do
  check (args.length == 2) (p.wrongCount 2 args)
  if p.name == "=" then
    return .bool ((← item args 0).equal (← item args 1))
  else
    let xs ← ofExcept id (p.numbers args)
    let x ← item xs 0
    let y ← item xs 1
    match p.name with
    | "<" => return .bool (x < y)
    | ">" => return .bool (y < x)
    | "<=" => return .bool (x ≤ y)
    | ">=" => return .bool (y ≤ x)
    | name => crash (.unreachable s!"not a comparison: {name}")

/-- `null?`, `number?`, `string?`, `list?`, `procedure?` and `not`. -/
def predicate (p : Primitive) (args : List Value) : CrashM Nat Value := do
  check (args.length == 1) (p.wrongCount 1 args)
  let v ← item args 0
  match p.name, v with
  | "null?", .nil => return .bool true
  | "null?", .list _ _ items => return .bool items.isEmpty
  | "number?", .number _ => return .bool true
  | "string?", .string _ => return .bool true
  | "list?", .list .. => return .bool true
  | "procedure?", .builtin .. => return .bool true
  | "procedure?", .closure .. => return .bool true
  | "procedure?", .bridge .. => return .bool true
  | "not", v => return .bool !v.truthy
  | _, _ => return .bool false

/-- The items of a single argument. -/
def itemsOfFirst (p : Primitive) (args : List Value) : CrashM Nat (List Value) := do
  check (args.length == 1) (p.wrongCount 1 args)
  ofExcept id (p.items (← item args 0))

def cons (args : List Value) : CrashM Nat Value := do
  check (args.length == 2) (Primitive.cons.wrongCount 2 args)
  let items ← ofExcept id (Primitive.cons.items (← item args 1))
  let v ← item args 0
  lift (Primitive.boundedList (v :: items))

/-- Applies a built-in procedure. -/
def applyPrimitive (p : Primitive) (args : List Value) : CrashM Nat Value :=
  match p with
  | .add | .subtract | .multiply | .divide => arithmetic p args
  | .less | .greater | .equal | .atMost | .atLeast => comparison p args
  | .isNull | .isNumber | .isString | .isList | .isProcedure | .not => predicate p args
  | .car => do return (← itemsOfFirst p args).headD .nil
  | .cdr => do lift (Value.ofItems ((← itemsOfFirst p args).drop 1))
  | .cons => cons args
  | .list => lift (Primitive.boundedList args)
  | .length => do return .number (Float.ofNat (← itemsOfFirst p args).length)
  | .and => return Primitive.conjunction args
  | .or => return Primitive.disjunction args

end Crashing

namespace Primitive

variable {p : Primitive} {args : List Value}

theorem lift_pureResult (r : Except EvalError Value) :
    (lift (pureResult r) : CrashM Nat Value) = ofExcept id r := by
  cases r <;> rfl

theorem crashing_arithmetic_eq (hp : p ∈ [add, subtract, multiply, divide]) (args : List Value) :
    Crashing.arithmetic p args = lift (p.apply args) := by
  simp only [List.mem_cons, List.not_mem_nil, or_false] at hp
  unfold Crashing.arithmetic
  cases hxs : p.numbers args with
  | error e =>
    rcases hp with rfl | rfl | rfl | rfl <;>
      simp only [apply, Primitive.arithmetic, hxs, lift_pureResult] <;> rfl
  | ok xs =>
    rcases hp with rfl | rfl | rfl | rfl <;>
      simp only [apply, Primitive.arithmetic, hxs, lift_pureResult]
    · rfl
    · rcases xs with _ | ⟨x, _ | ⟨y, xs⟩⟩ <;> rfl
    · rfl
    · cases xs <;> rfl

/-- Two arguments that are numbers are two numbers. -/
theorem numbers_pair (a b : Value) : p.numbers [a, b] =
    do let x ← p.number a; let y ← p.number b; return [x, y] := by
  cases ha : p.number a <;> cases hb : p.number b <;> simp only [numbers, ha, hb] <;> rfl

theorem ordering_of_numbers (test : Float → Float → Bool) (a b : Value) :
    (do
      let xs ← ofExcept id (p.numbers [a, b])
      let x ← item xs 0
      let y ← item xs 1
      return .bool (test x y) : CrashM Nat Value) = lift (p.ordering test [a, b]) := by
  rw [ordering, lift_pureResult, numbers_pair]
  cases p.number a <;> cases p.number b <;> rfl

theorem crashing_comparison_eq (hp : p ∈ [less, greater, equal, atMost, atLeast])
    (args : List Value) : Crashing.comparison p args = lift (p.apply args) := by
  simp only [List.mem_cons, List.not_mem_nil, or_false] at hp
  rcases args with _ | ⟨a, _ | ⟨b, _ | ⟨c, args⟩⟩⟩
  · rcases hp with rfl | rfl | rfl | rfl | rfl <;> rfl
  · rcases hp with rfl | rfl | rfl | rfl | rfl <;> rfl
  · rcases hp with rfl | rfl | rfl | rfl | rfl
    · exact ordering_of_numbers (fun x y => x < y) a b
    · exact ordering_of_numbers (fun x y => y < x) a b
    · rfl
    · exact ordering_of_numbers (fun x y => x ≤ y) a b
    · exact ordering_of_numbers (fun x y => y ≤ x) a b
  · rcases hp with rfl | rfl | rfl | rfl | rfl <;> rfl

theorem crashing_predicate_eq
    (hp : p ∈ [isNull, isNumber, isString, isList, isProcedure, Primitive.not])
    (args : List Value) : Crashing.predicate p args = lift (p.apply args) := by
  simp only [List.mem_cons, List.not_mem_nil, or_false] at hp
  rcases args with _ | ⟨v, _ | ⟨w, args⟩⟩
  · rcases hp with rfl | rfl | rfl | rfl | rfl | rfl <;> rfl
  · rcases hp with rfl | rfl | rfl | rfl | rfl | rfl <;> cases v <;> rfl
  · rcases hp with rfl | rfl | rfl | rfl | rfl | rfl <;> rfl

theorem crashing_onItems_eq (p : Primitive) (args : List Value) (f : List Value → PrimitiveM Value) :
    Crashing.itemsOfFirst p args >>= (fun items => lift (f items)) = lift (p.onItems args f) := by
  rcases args with _ | ⟨v, _ | ⟨w, args⟩⟩
  · rfl
  · have hfirst : Crashing.itemsOfFirst p [v] = CrashM.ofExcept id (p.items v) := rfl
    rw [hfirst, onItems]
    cases p.items v <;> rfl
  · rfl

theorem crashing_cons_eq (args : List Value) : Crashing.cons args = lift (cons.apply args) := by
  rcases args with _ | ⟨v, _ | ⟨w, _ | ⟨u, args⟩⟩⟩
  · rfl
  · rfl
  · have hpair : Crashing.cons [v, w] =
        CrashM.ofExcept id (cons.items w) >>= fun items => lift (boundedList (v :: items)) := rfl
    rw [hpair, apply]
    cases cons.items w <;> rfl
  · rfl

/-- **No built-in procedure crashes**, whatever it is given. -/
theorem crashing_apply_eq (p : Primitive) (args : List Value) :
    Crashing.applyPrimitive p args = lift (p.apply args) := by
  cases p with
  | add | subtract | multiply | divide => exact crashing_arithmetic_eq (by decide) args
  | less | greater | equal | atMost | atLeast => exact crashing_comparison_eq (by decide) args
  | isNull | isNumber | isString | isList | isProcedure | not =>
    exact crashing_predicate_eq (by decide) args
  | car => exact crashing_onItems_eq car args fun items => return items.headD .nil
  | cdr => exact crashing_onItems_eq cdr args fun items => Value.ofItems (items.drop 1)
  | length =>
    exact crashing_onItems_eq length args fun items => return .number (Float.ofNat items.length)
  | cons => exact crashing_cons_eq args
  | list | and | or => rfl

end Primitive

end GuardedLisp
