import GuardedLisp.Primitive.Apply
import GuardedLisp.Proofs.Correspondence.Basic

/-!
# Built-in procedures on arguments that correspond

A built-in procedure looks at the kinds of its arguments, at their numbers and
items, and at whether two of them are equal. So on arguments that correspond it
gives results that do, and takes as many identities (`apply_alike`).
-/

namespace GuardedLisp

namespace Correspondence

variable {σ σ' α β : Type} {C : Correspondence σ σ'} {p : Primitive}

section results

variable {v v' : Value} {vs vs' : List Value} {R : α → β → Prop}

theorem Allocations.pure {a : α} {b : β} (h : R a b) : C.Allocations R (pure a) (pure b) :=
  fun _ _ hn => ⟨h, hn⟩

theorem bool_kin (b : Bool) : C.Results C.value (.ok (.bool b)) (.ok (.bool b)) :=
  .ok (C.atom trivial)

theorem number_kin (h : C.value v v') : ExceptKin C.Errors Eq (p.number v) (p.number v') := by
  cases C.kin h with
  | number x => exact .ok rfl
  | _ => exact .error (.type (.number h))

theorem numbers_kin (h : C.Values vs vs') :
    ExceptKin C.Errors Eq (p.numbers vs) (p.numbers vs') := by
  induction h with
  | nil => exact .ok rfl
  | cons hv _ ih =>
    refine (number_kin hv).bind fun x _ hx => ih.bind fun xs _ hxs => ?_
    subst hx hxs
    exact .ok rfl

variable (C) in
/-- Items of lists that correspond. -/
def Items (items items' : List Value) : Prop :=
  ∃ addr addr' depth depth', C.value (.list addr depth items) (.list addr' depth' items')

theorem Items.values {items items' : List Value} (h : C.Items items items') :
    C.Values items items' := by
  obtain ⟨_, _, _, _, h⟩ := h
  cases C.kin h with
  | list h => exact h

theorem items_kin (h : C.value v v') : ExceptKin C.Errors C.Items (p.items v) (p.items v') := by
  cases C.kin h with
  | list _ => exact .ok ⟨_, _, _, _, h⟩
  | _ => exact .error (.type (.list h))

end results

/-! ## Shapes of procedures -/

section shapes

variable {args args' : List Value}

theorem throw_alike {e e' : EvalError} (h : C.Errors e e') :
    C.Allocations (C.Results C.value) (throw e : PrimitiveM Value) (throw e' : PrimitiveM Value) :=
  Allocations.pure (.error h)

theorem wrongCount_alike (n : Nat) (h : C.Values args args') :
    C.Errors (p.wrongCount n args) (p.wrongCount n args') := by
  unfold Primitive.wrongCount
  rw [h.length_eq]
  exact .arity _

theorem boundedList_alike {items items' : List Value} (h : C.Values items items') :
    C.Allocations (C.Results C.value) (Primitive.boundedList items)
      (Primitive.boundedList items') := by
  unfold Primitive.boundedList
  rw [← depthOver_eq h]
  split
  · exact throw_alike .listTooDeep
  · next hdepth => exact fun n n' hn => ⟨.ok (C.list hn h (Nat.le_of_not_lt hdepth)), C.succ hn⟩

theorem tail_alike {items items' : List Value} (h : C.Items items items') :
    C.Allocations (C.Results C.value) (Value.ofItems (items.drop 1) : PrimitiveM Value)
      (Value.ofItems (items'.drop 1) : PrimitiveM Value) := by
  obtain ⟨_, _, _, _, h⟩ := h
  exact fun n n' hn => ⟨.ok (C.tail hn h), C.succ hn⟩

theorem arithmetic_alike {op : List Float → Except EvalError Float}
    (hop : ∀ xs, ExceptKin C.Errors Eq (op xs) (op xs)) (h : C.Values args args') :
    C.Allocations (C.Results C.value) (p.arithmetic args op) (p.arithmetic args' op) := by
  refine Allocations.pure ((numbers_kin h).bind fun xs _ hxs => ?_)
  subst hxs
  refine (hop xs).bind fun x _ hx => ?_
  subst hx
  exact .ok (C.atom trivial)

theorem ordering_alike (test : Float → Float → Bool) (h : C.Values args args') :
    C.Allocations (C.Results C.value) (p.ordering test args) (p.ordering test args') := by
  refine Allocations.pure ?_
  match args, args', h with
  | [_, _], [_, _], .cons ha (.cons hb .nil) =>
    refine (number_kin ha).bind fun x _ hx => (number_kin hb).bind fun y _ hy => ?_
    subst hx hy
    exact bool_kin _
  | [], [], h => exact .error (wrongCount_alike 2 h)
  | [_], [_], h => exact .error (wrongCount_alike 2 h)
  | _ :: _ :: _ :: _, _ :: _ :: _ :: _, h => exact .error (wrongCount_alike 2 h)

theorem predicate_alike {test : Value → Bool} (htest : ∀ v v', C.value v v' → test v = test v')
    (h : C.Values args args') :
    C.Allocations (C.Results C.value) (p.predicate test args) (p.predicate test args') := by
  refine Allocations.pure ?_
  match args, args', h with
  | [v], [v'], .cons hv .nil =>
    change C.Results C.value (.ok (.bool (test v))) (.ok (.bool (test v')))
    rw [htest v v' hv]
    exact bool_kin _
  | [], [], h => exact .error (wrongCount_alike 1 h)
  | _ :: _ :: _, _ :: _ :: _, h => exact .error (wrongCount_alike 1 h)

theorem withItems_alike {f g : List Value → PrimitiveM Value} {v v' : Value}
    (hf : ∀ items items', C.Items items items' →
      C.Allocations (C.Results C.value) (f items) (g items')) (h : C.value v v') :
    C.Allocations (C.Results C.value)
      (match p.items v with | .ok items => f items | .error e => throw e : PrimitiveM Value)
      (match p.items v' with | .ok items => g items | .error e => throw e : PrimitiveM Value) := by
  cases hv : p.items v <;> cases hv' : p.items v' <;> have hitems := items_kin (p := p) h <;>
    rw [hv, hv'] at hitems <;> cases hitems
  · exact throw_alike ‹_›
  · exact hf _ _ ‹_›

theorem onItems_alike {f : List Value → PrimitiveM Value}
    (hf : ∀ items items', C.Items items items' →
      C.Allocations (C.Results C.value) (f items) (f items')) (h : C.Values args args') :
    C.Allocations (C.Results C.value) (p.onItems args f) (p.onItems args' f) := by
  match args, args', h with
  | [v], [v'], .cons hv .nil => exact withItems_alike hf hv
  | [], [], h => exact throw_alike (wrongCount_alike 1 h)
  | _ :: _ :: _, _ :: _ :: _, h => exact throw_alike (wrongCount_alike 1 h)

theorem equal_alike (h : C.Values args args') :
    C.Allocations (C.Results C.value) (Primitive.equal.apply args)
      (Primitive.equal.apply args') := by
  match args, args', h with
  | [a, b], [a', b'], .cons ha (.cons hb .nil) =>
    refine Allocations.pure ?_
    rw [C.equal ha hb]
    exact bool_kin _
  | [], [], h => exact throw_alike (wrongCount_alike 2 h)
  | [_], [_], h => exact throw_alike (wrongCount_alike 2 h)
  | _ :: _ :: _ :: _, _ :: _ :: _ :: _, h => exact throw_alike (wrongCount_alike 2 h)

theorem cons_alike (h : C.Values args args') :
    C.Allocations (C.Results C.value) (Primitive.cons.apply args)
      (Primitive.cons.apply args') := by
  match args, args', h with
  | [v, tail], [v', tail'], .cons hv (.cons htail .nil) =>
    exact withItems_alike (f := fun items => Primitive.boundedList (v :: items))
      (g := fun items => Primitive.boundedList (v' :: items))
      (fun _ _ hitems => boundedList_alike (.cons hv hitems.values)) htail
  | [], [], h => exact throw_alike (wrongCount_alike 2 h)
  | [_], [_], h => exact throw_alike (wrongCount_alike 2 h)
  | _ :: _ :: _ :: _, _ :: _ :: _ :: _, h => exact throw_alike (wrongCount_alike 2 h)

theorem conjunction_alike (h : C.Values args args') :
    C.value (Primitive.conjunction args) (Primitive.conjunction args') := by
  have hfold {acc acc' : Value} (hacc : C.value acc acc') :
      C.value (args.foldl (fun acc v => if acc.truthy then v else acc) acc)
        (args'.foldl (fun acc v => if acc.truthy then v else acc) acc') := by
    induction h generalizing acc acc' with
    | nil => exact hacc
    | cons hv _ ih =>
      rw [List.foldl_cons, List.foldl_cons, truthy_eq hacc]
      split
      · exact ih hv
      · exact ih hacc
  exact hfold (C.atom trivial)

theorem disjunction_alike (h : C.Values args args') :
    C.value (Primitive.disjunction args) (Primitive.disjunction args') := by
  have hfold {acc acc' : Value} (hacc : C.value acc acc') :
      C.value (args.foldl (fun acc v => if acc.truthy then acc else v) acc)
        (args'.foldl (fun acc v => if acc.truthy then acc else v) acc') := by
    induction h generalizing acc acc' with
    | nil => exact hacc
    | cons hv _ ih =>
      rw [List.foldl_cons, List.foldl_cons, truthy_eq hacc]
      split
      · exact ih hacc
      · exact ih hv
  exact hfold (C.atom trivial)

end shapes

theorem isEmptyValue_eq {v v' : Value} (h : C.value v v') :
    Primitive.isEmptyValue v = Primitive.isEmptyValue v' := by
  cases C.kin h with
  | list hitems => cases hitems <;> rfl
  | _ => rfl

theorem headD_alike {items items' : List Value} (h : C.Items items items') :
    C.value (items.headD .nil) (items'.headD .nil) := by
  cases h.values with
  | nil => exact C.atom trivial
  | cons hv _ => exact hv

theorem foldFromFirst_kin (op : Float → Float → Float) (xs : List Float) :
    ExceptKin C.Errors Eq (p.foldFromFirst op xs) (p.foldFromFirst op xs) := by
  cases xs with
  | nil => exact .error (.arity _)
  | cons x xs => exact .ok rfl

theorem negateOrSubtract_kin (xs : List Float) :
    ExceptKin C.Errors Eq (p.negateOrSubtract xs) (p.negateOrSubtract xs) := by
  unfold Primitive.negateOrSubtract
  split
  · exact .ok rfl
  · exact foldFromFirst_kin _ xs

/-- **Built-in procedures keep every correspondence.** -/
theorem apply_alike (p : Primitive) {args args' : List Value} (h : C.Values args args') :
    C.Allocations (C.Results C.value) (p.apply args) (p.apply args') := by
  have htest {test : Value → Bool} (hkin : ∀ v v', v.Kin C.value C.frame v' → test v = test v') :
      ∀ v v', C.value v v' → test v = test v' := fun v v' hv => hkin v v' (C.kin hv)
  cases p with
  | add | multiply => exact arithmetic_alike (fun _ => .ok rfl) h
  | subtract => exact arithmetic_alike negateOrSubtract_kin h
  | divide => exact arithmetic_alike (foldFromFirst_kin _) h
  | less | greater | atMost | atLeast => exact ordering_alike _ h
  | equal => exact equal_alike h
  | isNull => exact predicate_alike (fun _ _ => isEmptyValue_eq) h
  | isNumber | isString | isList | isProcedure =>
    exact predicate_alike (htest fun _ _ hv => by cases hv <;> rfl) h
  | not => exact predicate_alike (fun _ _ hv => by rw [truthy_eq hv]) h
  | car => exact onItems_alike (fun _ _ hitems => Allocations.pure (.ok (headD_alike hitems))) h
  | cdr => exact onItems_alike (fun _ _ hitems => tail_alike hitems) h
  | cons => exact cons_alike h
  | list => exact boundedList_alike h
  | length =>
    refine onItems_alike (fun items items' hitems => Allocations.pure ?_) h
    rw [hitems.values.length_eq]
    exact .ok (C.atom trivial)
  | and => exact Allocations.pure (.ok (conjunction_alike h))
  | or => exact Allocations.pure (.ok (disjunction_alike h))

end Correspondence

end GuardedLisp
