import GuardedLisp.Primitive.Apply
import GuardedLisp.Proofs.Correspondence.Basic

/-!
# Where the results of built-in procedures come from

A built-in procedure fails, answers with an atom, with an argument or with an item
of one, or makes a single list of such values (`apply_yields`).
-/

namespace GuardedLisp

namespace Primitive

/-- An atom that is no symbol, one of the values, or an item of one of them. -/
inductive Drawn (args : List Value) : Value → Prop where
  | atom {v : Value} (h : v.IsAtom) (hsymbol : ∀ name, v ≠ .symbol name) : Drawn args v
  | arg {v : Value} (h : v ∈ args) : Drawn args v
  | item {addr depth : Nat} {items : List Value} {v : Value} (h : .list addr depth items ∈ args)
    (hv : v ∈ items) : Drawn args v

/-- A failure, a value that was given, or a list that takes the identity `n`. -/
inductive Yields (args : List Value) (n : Nat) : Except EvalError Value × Nat → Prop where
  | error (e : EvalError) : Yields args n (.error e, n)
  | given {v : Value} (h : Drawn args v) : Yields args n (.ok v, n)
  | list {items : List Value} (h : ∀ v ∈ items, Drawn args v) :
    Yields args n (.ok (.list n (Value.depthOver items) items), n + 1)

variable {p : Primitive} {args : List Value} {n : Nat}

theorem yields_pureResult {r : Except EvalError Value} (h : ∀ v, r = .ok v → Drawn args v) :
    Yields args n ((pureResult r).run n) := by
  cases r with
  | error e => exact .error e
  | ok v => exact .given (h v rfl)

theorem yields_arithmetic (op : List Float → Except EvalError Float) :
    Yields args n ((p.arithmetic args op).run n) := by
  refine yields_pureResult fun v hv => ?_
  cases hxs : p.numbers args with
  | error e => rw [hxs] at hv; cases hv
  | ok xs =>
    rw [hxs] at hv
    change (op xs >>= fun x => pure (Value.number x)) = .ok v at hv
    cases hx : op xs <;> rw [hx] at hv <;> cases hv
    exact .atom trivial nofun

theorem yields_ordering (test : Float → Float → Bool) :
    Yields args n ((p.ordering test args).run n) := by
  refine yields_pureResult fun v hv => ?_
  split at hv
  · next a b =>
    cases hx : p.number a <;> cases hy : p.number b <;> rw [hx, hy] at hv <;> cases hv
    exact .atom trivial nofun
  · cases hv

theorem yields_predicate (test : Value → Bool) :
    Yields args n ((p.predicate test args).run n) := by
  refine yields_pureResult fun v hv => ?_
  split at hv <;> cases hv
  exact .atom trivial nofun

theorem yields_boundedList {items : List Value} (h : ∀ v ∈ items, Drawn args v) :
    Yields args n ((boundedList items).run n) := by
  unfold boundedList
  split
  · exact .error .listTooDeep
  · exact .list h

theorem mem_of_items {v : Value} {items : List Value} (h : p.items v = .ok items) :
    ∃ addr depth, v = .list addr depth items := by
  unfold Primitive.items at h
  split at h <;> cases h
  exact ⟨_, _, rfl⟩

theorem yields_onItems {f : List Value → PrimitiveM Value}
    (hf : ∀ items, (∀ v ∈ items, Drawn args v) → Yields args n ((f items).run n)) :
    Yields args n ((p.onItems args f).run n) := by
  unfold onItems
  split
  · next v =>
    cases hitems : p.items v with
    | error e => exact .error e
    | ok items =>
      obtain ⟨addr, depth, rfl⟩ := mem_of_items hitems
      exact hf items fun u hu => .item List.mem_cons_self hu
  · exact .error _

theorem drawn_foldl {pick : Value → Value → Value}
    (hpick : ∀ acc v, pick acc v = acc ∨ pick acc v = v) (vs : List Value) {acc : Value}
    (hvs : ∀ v ∈ vs, Drawn args v) (hacc : Drawn args acc) : Drawn args (vs.foldl pick acc) := by
  induction vs generalizing acc with
  | nil => exact hacc
  | cons v vs ih =>
    rw [List.foldl_cons]
    refine ih (fun u hu => hvs u (List.mem_cons_of_mem _ hu)) ?_
    rcases hpick acc v with h | h <;> rw [h]
    · exact hacc
    · exact hvs v List.mem_cons_self

theorem apply_yields (p : Primitive) (args : List Value) (n : Nat) :
    Yields args n ((p.apply args).run n) := by
  have hargs (v : Value) (hv : v ∈ args) : Drawn args v := .arg hv
  cases p with
  | add | subtract | multiply | divide => exact yields_arithmetic _
  | less | greater | atMost | atLeast => exact yields_ordering _
  | equal =>
    rw [apply.eq_def]
    dsimp only
    split
    · exact .given (.atom trivial nofun)
    · exact .error _
  | isNull | isNumber | isString | isList | isProcedure | not => exact yields_predicate _
  | car =>
    refine yields_onItems fun items hitems => .given ?_
    cases items with
    | nil => exact .atom trivial nofun
    | cons v vs => exact hitems v List.mem_cons_self
  | cdr =>
    exact yields_onItems fun items hitems => .list fun v hv => hitems v (List.mem_of_mem_drop hv)
  | cons =>
    rw [apply.eq_def]
    dsimp only
    split
    · next v tail =>
      cases hitems : Primitive.cons.items tail with
      | error e => exact .error e
      | ok items =>
        obtain ⟨addr, depth, rfl⟩ := mem_of_items hitems
        refine yields_boundedList fun u hu => ?_
        rcases List.mem_cons.1 hu with rfl | hu
        · exact .arg List.mem_cons_self
        · exact .item (List.mem_cons_of_mem _ List.mem_cons_self) hu
    · exact .error _
  | list => exact yields_boundedList hargs
  | length => exact yields_onItems fun _ _ => .given (.atom trivial nofun)
  | and =>
    refine .given (drawn_foldl (fun acc v => ?_) args hargs (.atom trivial nofun))
    cases acc.truthy
    · exact .inl rfl
    · exact .inr rfl
  | or =>
    refine .given (drawn_foldl (fun acc v => ?_) args hargs (.atom trivial nofun))
    cases acc.truthy
    · exact .inr rfl
    · exact .inl rfl

end Primitive

end GuardedLisp
