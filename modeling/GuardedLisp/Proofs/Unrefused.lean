import GuardedLisp.Primitive.Apply

/-!
# Failures that are no refusals

Only the guard refuses, and only a call of the bridge hands on what went wrong in
the host. A built-in procedure fails for its own reasons: the number of its
arguments, the type of one of them, which the failure quotes, or a list nested
too deeply.
-/

namespace GuardedLisp

variable {α β : Type}

/-- The guard stopped the evaluation. -/
def Refused (r : Except EvalError α) : Prop := ∃ why, r = .error (.refused why)

theorem not_refused_ok (a : α) : ¬ Refused (.ok a : Except EvalError α) := by
  rintro ⟨why, h⟩; cases h

theorem Refused.error {e : EvalError} (h : Refused (.error e : Except EvalError α)) :
    Refused (.error e : Except EvalError β) := by
  obtain ⟨why, h⟩ := h
  cases h
  exact ⟨why, rfl⟩

/-- A failure of the interpreter itself: neither a refusal nor one that the bridge hands on. -/
def EvalError.IsInternal : EvalError → Prop
  | .refused _ | .bridge _ => False
  | _ => True

def FailsInternally (r : Except EvalError α) : Prop := ∀ e, r = .error e → e.IsInternal

namespace FailsInternally

theorem ok (a : α) : FailsInternally (.ok a : Except EvalError α) := nofun

theorem error {e : EvalError} (h : e.IsInternal) :
    FailsInternally (.error e : Except EvalError α) := fun _ he => by cases he; exact h

theorem not_refused {r : Except EvalError α} (h : FailsInternally r) : ¬ Refused r := by
  rintro ⟨why, rfl⟩
  exact h _ rfl

end FailsInternally

/-- The value of the wrong type. -/
def TypeFault.got : TypeFault → Value
  | number _ got | list _ got | callable got | hostName _ _ got => got

/-- A failure that is a built-in procedure's own: because of the number of its arguments, of the
type of one of them, or of the list that it would make. -/
def EvalError.IsOwn (args : List Value) : EvalError → Prop
  | .arity (.closure ..) => False
  | .arity (.hostName call _) => call ∈ BridgeCall.all
  | .arity _ | .listTooDeep => True
  | .type (.hostName call _ got) => call ∈ BridgeCall.all ∧ got ∈ args
  | .type fault => fault.got ∈ args
  | _ => False

/-- No failure but a procedure's own. -/
def FailsOwn (args : List Value) (r : Except EvalError α) : Prop :=
  ∀ e, r = .error e → e.IsOwn args

namespace FailsOwn

variable {args : List Value}

theorem ok (a : α) : FailsOwn args (.ok a : Except EvalError α) := fun _ h => by cases h

theorem error {e : EvalError} (h : e.IsOwn args) : FailsOwn args (.error e : Except EvalError α) :=
  fun _ he => by cases he; exact h

theorem bind {x : Except EvalError α} {f : α → Except EvalError β} (hx : FailsOwn args x)
    (hf : ∀ a, FailsOwn args (f a)) : FailsOwn args (x >>= f) := by
  cases x with
  | error e => exact error (hx e rfl)
  | ok a => exact hf a

theorem internally {r : Except EvalError α} (h : FailsOwn args r) : FailsInternally r := by
  intro e he
  have howned := h e he
  cases e with
  | refused | bridge => exact howned
  | _ => trivial

end FailsOwn

namespace Primitive

variable {p : Primitive} {args : List Value}

theorem failsOwn_number {v : Value} (hv : v ∈ args) : FailsOwn args (p.number v) := by
  unfold number
  split
  · exact .ok _
  · exact .error hv

theorem failsOwn_numbers {vs : List Value} (hvs : ∀ v ∈ vs, v ∈ args) :
    FailsOwn args (p.numbers vs) := by
  induction vs with
  | nil => exact .ok _
  | cons v vs ih =>
    rw [List.forall_mem_cons] at hvs
    exact (failsOwn_number hvs.1).bind fun _ => (ih hvs.2).bind fun _ => .ok _

theorem failsOwn_items {v : Value} (hv : v ∈ args) : FailsOwn args (p.items v) := by
  unfold items
  split
  · exact .ok _
  · exact .error hv

theorem failsOwn_foldFromFirst (op : Float → Float → Float) (xs : List Float) :
    FailsOwn args (p.foldFromFirst op xs) := by
  unfold foldFromFirst
  split
  · exact .error trivial
  · exact .ok _

theorem failsOwn_negateOrSubtract (xs : List Float) : FailsOwn args (p.negateOrSubtract xs) := by
  unfold negateOrSubtract
  split
  · exact .ok _
  · exact failsOwn_foldFromFirst _ xs

section run

variable (next : Nat)

theorem failsOwn_pure (v : Value) : FailsOwn args ((pure v : PrimitiveM Value).run next).1 :=
  .ok v

theorem failsOwn_wrongCount (n : Nat) :
    FailsOwn args ((throw (p.wrongCount n args) : PrimitiveM Value).run next).1 := .error trivial

theorem failsOwn_ofItems (items : List Value) :
    FailsOwn args ((Value.ofItems items : PrimitiveM Value).run next).1 := .ok _

theorem failsOwn_boundedList (items : List Value) :
    FailsOwn args ((boundedList items).run next).1 := by
  unfold boundedList
  split
  · exact .error trivial
  · exact failsOwn_ofItems next items

theorem failsOwn_withItems {f : List Value → PrimitiveM Value}
    (hf : ∀ items, FailsOwn args ((f items).run next).1) {v : Value} (hv : v ∈ args) :
    FailsOwn args ((match p.items v with | .ok items => f items | .error e => throw e :
      PrimitiveM Value).run next).1 := by
  cases h : p.items v with
  | ok items => exact hf items
  | error e => exact .error (failsOwn_items hv e h)

variable (args)

theorem failsOwn_arithmetic {op : List Float → Except EvalError Float}
    (hop : ∀ xs, FailsOwn args (op xs)) : FailsOwn args ((p.arithmetic args op).run next).1 :=
  (failsOwn_numbers fun _ => id).bind fun xs => (hop xs).bind fun _ => .ok _

theorem failsOwn_ordering (test : Float → Float → Bool) :
    FailsOwn args ((p.ordering test args).run next).1 := by
  unfold ordering
  split
  · exact (failsOwn_number (by simp)).bind fun _ => (failsOwn_number (by simp)).bind fun _ => .ok _
  · exact failsOwn_wrongCount next 2

theorem failsOwn_predicate (test : Value → Bool) :
    FailsOwn args ((p.predicate test args).run next).1 := by
  unfold predicate
  split
  · exact failsOwn_pure next _
  · exact failsOwn_wrongCount next 1

theorem failsOwn_onItems {f : List Value → PrimitiveM Value}
    (hf : ∀ items, FailsOwn args ((f items).run next).1) :
    FailsOwn args ((p.onItems args f).run next).1 := by
  unfold onItems
  split
  · exact failsOwn_withItems next hf List.mem_cons_self
  · exact failsOwn_wrongCount next 1

/-- A built-in procedure fails for its own reasons. -/
theorem failsOwn_apply (p : Primitive) : FailsOwn args ((p.apply args).run next).1 := by
  cases p with
  | add | multiply => exact failsOwn_arithmetic args next fun _ => .ok _
  | subtract => exact failsOwn_arithmetic args next failsOwn_negateOrSubtract
  | divide => exact failsOwn_arithmetic args next (failsOwn_foldFromFirst _)
  | less | greater | atMost | atLeast => exact failsOwn_ordering args next _
  | isNull | isNumber | isString | isList | isProcedure | not =>
    exact failsOwn_predicate args next _
  | car | length => exact failsOwn_onItems args next fun _ => failsOwn_pure next _
  | cdr => exact failsOwn_onItems args next fun _ => failsOwn_ofItems next _
  | list => exact failsOwn_boundedList next args
  | and | or => exact failsOwn_pure next _
  | equal =>
    simp only [apply]
    split
    · exact failsOwn_pure next _
    · exact failsOwn_wrongCount next 2
  | cons =>
    simp only [apply]
    split
    · exact failsOwn_withItems next (fun _ => failsOwn_boundedList next _) (by simp)
    · exact failsOwn_wrongCount next 2

end run

theorem failsInternally_apply (p : Primitive) (args : List Value) (next : Nat) :
    FailsInternally ((p.apply args).run next).1 := (failsOwn_apply args next p).internally

end Primitive

end GuardedLisp
