import GuardedLisp.Proofs.Equality.Agreement

/-!
# Building lists and taking them apart

`list` looks once at what it built; `cons` looks at every list on the way from
`()`. Both see a maximum over the same items, so they refuse the same ones:
those of which one is nested `maxNesting` levels (`depthOver_le_iff`). `car` and
`cdr` undo `cons` up to the identity of the list, which `=` sees where an item
of it is `NaN` (`compareItems_self`).
-/

namespace GuardedLisp

open Source (maxNesting)

namespace Value

theorem deepest_le_iff {items : List Value} {bound : Nat} :
    deepest items ≤ bound ↔ ∀ v ∈ items, v.depth ≤ bound := by
  induction items with
  | nil => exact iff_of_true (Nat.zero_le _) nofun
  | cons v vs ih => rw [deepest_cons, Nat.max_le, ih, List.forall_mem_cons]

/-- There is room for one more level around items that are not nested too deeply. -/
theorem depthOver_le_iff {items : List Value} :
    depthOver items ≤ maxNesting ↔ ∀ v ∈ items, v.depth ≤ maxNesting - 1 := by
  rw [← deepest_le_iff, depthOver]
  have hpos : 0 < maxNesting := by decide
  omega

theorem depthOver_eq_nesting {items : List Value} (h : Cached (· ∈ items)) :
    depthOver items = 1 + nestingOfItems items := by
  rw [depthOver, deepest_eq h]

theorem nestingOfItems_headD_le (items : List Value) :
    (items.headD .nil).nesting ≤ nestingOfItems items := by
  cases items with
  | nil => exact Nat.le_refl _
  | cons v vs => exact nesting_le_nestingOfItems List.mem_cons_self

/-! ## A value beside itself -/

/-- Beside itself a list is met by its identity, and only `NaN` differs. -/
theorem compare_self (v : Value) (c : Comparison) :
    ∃ same, compare v v c = (same, c) ∧ (same = true ↔ ∀ x, v = .number x → x.isNaN = false) := by
  cases v with
  | number x =>
    refine ⟨x == x, rfl, Double.beq_self_iff.trans ⟨?_, fun h => h x rfl⟩⟩
    rintro h _ ⟨⟩
    exact h
  | list addr depth items =>
    exact ⟨true, by rw [compare.eq_def]; simp, iff_of_true rfl nofun⟩
  | nil => exact ⟨true, rfl, iff_of_true rfl nofun⟩
  | bool | string | symbol | builtin | closure | bridge =>
    exact ⟨_, rfl, iff_of_true (beq_self_eq_true _) nofun⟩

theorem compareItems_self (items : List Value) (c : Comparison) :
    (compareItems items items c).1 = true ↔ ∀ x, .number x ∈ items → x.isNaN = false := by
  induction items with
  | nil => exact iff_of_true rfl nofun
  | cons v vs ih =>
    obtain ⟨same, hcompare, hsame⟩ := compare_self v c
    rw [compareItems, hcompare]
    cases same with
    | true =>
      refine Iff.trans ih ?_
      refine ⟨fun h x hx => ?_, fun h x hx => h x (List.mem_cons_of_mem _ hx)⟩
      rcases List.mem_cons.1 hx with rfl | hx
      · exact hsame.1 rfl x rfl
      · exact h x hx
    | false =>
      refine iff_of_false (by simp) fun h => Bool.false_ne_true (hsame.2 ?_)
      rintro x rfl
      exact h x List.mem_cons_self

/-- A list equals another one of the same items if none of them is `NaN`. -/
theorem equal_sameItems {a b : Nat} (hne : a ≠ b) (depth : Nat) (items : List Value) :
    (Value.list a depth items).equal (.list b depth items) = true ↔
      ∀ x, .number x ∈ items → x.isNaN = false := by
  have hnew : Comparison.start.matched.contains (a, b) = false := Std.HashSet.contains_empty
  rw [equal, compare_list hne hnew, if_neg (by simp)]
  exact compareItems_self items _

end Value

open Value (Cached depthOver nestingOfItems)

namespace Primitive

/-! ## Building -/

theorem run_boundedList_of_le {items : List Value} (h : depthOver items ≤ maxNesting) (n : Nat) :
    (boundedList items).run n = (.ok (.list n (depthOver items) items), n + 1) := by
  rw [boundedList, if_neg (Nat.not_lt.2 h)]
  rfl

theorem run_boundedList_of_lt {items : List Value} (h : maxNesting < depthOver items) (n : Nat) :
    (boundedList items).run n = (.error .listTooDeep, n) := by
  rw [boundedList, if_pos h]
  rfl

theorem run_cons (v : Value) (addr depth : Nat) (items : List Value) (n : Nat) :
    (cons.apply [v, .list addr depth items]).run n = (boundedList (v :: items)).run n := rfl

/-- Conses some values onto a list, the last one first. -/
def consAll (tail : Value) : List Value → PrimitiveM Value
  | [] => return tail
  | v :: vs => do
    let rest ← consAll tail vs
    cons.apply [v, rest]

theorem run_consAll_of_ok {tail rest : Value} {vs : List Value} {n m : Nat}
    (h : (consAll tail vs).run n = (.ok rest, m)) (v : Value) :
    (consAll tail (v :: vs)).run n = (cons.apply [v, rest]).run m := by
  change (ExceptT.bindCont (fun rest => cons.apply [v, rest]) ((consAll tail vs).run n).1 :
    PrimitiveM Value).run ((consAll tail vs).run n).2 = _
  rw [h]
  rfl

theorem run_consAll_of_error {tail : Value} {vs : List Value} {n m : Nat} {e : EvalError}
    (h : (consAll tail vs).run n = (.error e, m)) (v : Value) :
    (consAll tail (v :: vs)).run n = (.error e, m) := by
  change (ExceptT.bindCont (fun rest => cons.apply [v, rest]) ((consAll tail vs).run n).1 :
    PrimitiveM Value).run ((consAll tail vs).run n).2 = _
  rw [h]
  rfl

/-- The list that is built so far has the depth of the items that are in it. -/
theorem exists_run_consAll {vs : List Value} (h : ∀ v ∈ vs, v.depth ≤ maxNesting - 1)
    (addr n : Nat) : ∃ addr' n', (consAll (.list addr 1 []) vs).run n =
      (.ok (.list addr' (depthOver vs) vs), n') := by
  induction vs with
  | nil => exact ⟨addr, n, rfl⟩
  | cons v vs ih =>
    obtain ⟨addr', n', hrest⟩ := ih fun w hw => h w (List.mem_cons_of_mem _ hw)
    refine ⟨n', n' + 1, ?_⟩
    rw [run_consAll_of_ok hrest, run_cons,
      run_boundedList_of_le (Value.depthOver_le_iff.2 h)]

/-- An item that is nested too deeply stops the building when it is added, if not before. -/
theorem exists_run_consAll_of_deep {vs : List Value} (h : ∃ v ∈ vs, maxNesting - 1 < v.depth)
    (addr n : Nat) : ∃ n', (consAll (.list addr 1 []) vs).run n = (.error .listTooDeep, n') := by
  induction vs with
  | nil => obtain ⟨v, hv, -⟩ := h; cases hv
  | cons v vs ih =>
    by_cases hvs : ∀ w ∈ vs, w.depth ≤ maxNesting - 1
    · obtain ⟨addr', n', hrest⟩ := exists_run_consAll hvs addr n
      obtain ⟨w, hw, hdeep⟩ := h
      have hlt : maxNesting < depthOver (v :: vs) :=
        Nat.lt_of_not_le fun hle => Nat.not_lt.2 (Value.depthOver_le_iff.1 hle w hw) hdeep
      exact ⟨n', by rw [run_consAll_of_ok hrest, run_cons, run_boundedList_of_lt hlt]⟩
    · obtain ⟨n', hrest⟩ := ih (by simpa using hvs)
      exact ⟨n', run_consAll_of_error hrest v⟩

/-! ## Both ways -/

/-- **`list` and `cons` build the same values, and `car` and `cdr` take them apart.** Let the values
cache their nestings. If each is nested at most `maxNesting - 1` levels, then `list` and consing
them onto `()` one by one both give a list of these values with the same depth cached; otherwise
both fail, with the same error. Where `cons` succeeds, `car` of the result is the value itself and
`cdr` a new list with the items and the depth of the old one, which it equals just if no item is
`NaN`; the length has grown by one. `car` and `cdr` never give a value nested deeper than the list
they look at. -/
theorem built_and_taken_apart :
    (∀ vs addr n n', Cached (· ∈ vs) →
      ((∀ v ∈ vs, v.nesting ≤ maxNesting - 1) →
        (list.apply vs).run n = (.ok (.list n (1 + nestingOfItems vs) vs), n + 1) ∧
        ∃ addr' m, (consAll (.list addr 1 []) vs).run n' =
          (.ok (.list addr' (1 + nestingOfItems vs) vs), m)) ∧
      ((∃ v ∈ vs, maxNesting - 1 < v.nesting) →
        (list.apply vs).run n = (.error .listTooDeep, n) ∧
        ∃ m, (consAll (.list addr 1 []) vs).run n' = (.error .listTooDeep, m))) ∧
    (∀ v addr depth items r n n', Cached ((Value.list addr depth items).Part False) →
      (cons.apply [v, .list addr depth items]).run n = (.ok r, n') → ∀ m, addr < m →
        (car.apply [r]).run m = (.ok v, m) ∧
        (cdr.apply [r]).run m = (.ok (.list m depth items), m + 1) ∧
        (∃ same, (equal.apply [.list m depth items, .list addr depth items]).run m =
          (.ok (.bool same), m) ∧
          (same = true ↔ ∀ x, .number x ∈ items → x.isNaN = false)) ∧
        (length.apply [.list addr depth items]).run m =
          (.ok (.number (Float.ofNat items.length)), m) ∧
        (length.apply [r]).run m = (.ok (.number (Float.ofNat (items.length + 1))), m)) ∧
    ∀ addr depth items, Cached ((Value.list addr depth items).Part False) → ∀ m,
      (∃ w, (car.apply [.list addr depth items]).run m = (.ok w, m) ∧ w.depth = w.nesting ∧
        w.nesting ≤ (Value.list addr depth items).nesting) ∧
      ∃ w, (cdr.apply [.list addr depth items]).run m = (.ok w, m + 1) ∧ w.depth = w.nesting ∧
        w.nesting ≤ (Value.list addr depth items).nesting := by
  have hitems {addr depth : Nat} {items : List Value}
      (h : Cached ((Value.list addr depth items).Part False)) : Cached (· ∈ items) :=
    fun v hv => h v (.item hv (.refl v))
  refine ⟨fun vs addr n n' hvs => ⟨fun hle => ?_, fun hlt => ?_⟩, ?_, ?_⟩
  · have hdepth : ∀ v ∈ vs, v.depth ≤ maxNesting - 1 := fun v hv => hvs v hv ▸ hle v hv
    rw [← Value.depthOver_eq_nesting hvs]
    exact ⟨run_boundedList_of_le (Value.depthOver_le_iff.2 hdepth) n,
      exists_run_consAll hdepth addr n'⟩
  · obtain ⟨v, hv, hdeep⟩ := hlt
    rw [← hvs v hv] at hdeep
    have hlt : maxNesting < depthOver vs :=
      Nat.lt_of_not_le fun hle => Nat.not_lt.2 (Value.depthOver_le_iff.1 hle v hv) hdeep
    exact ⟨run_boundedList_of_lt hlt n, exists_run_consAll_of_deep ⟨v, hv, hdeep⟩ addr n'⟩
  · intro v addr depth items r n n' hcached hcons m hm
    have hdepth : depthOver items = depth := by
      rw [Value.depthOver_eq_nesting (hitems hcached)]
      exact (hcached _ (.refl _)).symm
    rw [run_cons] at hcons
    obtain ⟨depth', rfl⟩ : ∃ depth', r = .list n depth' (v :: items) := by
      by_cases hle : depthOver (v :: items) ≤ maxNesting
      · rw [run_boundedList_of_le hle] at hcons
        cases hcons
        exact ⟨_, rfl⟩
      · rw [run_boundedList_of_lt (Nat.lt_of_not_le hle)] at hcons
        cases hcons
    refine ⟨rfl, ?_, ⟨_, rfl, Value.equal_sameItems hm.ne' depth items⟩, rfl, rfl⟩
    rw [← hdepth]
    rfl
  · intro addr depth items hcached m
    have hrest : Cached (· ∈ items.drop 1) :=
      fun v hv => hitems hcached v (List.mem_of_mem_drop hv)
    refine ⟨⟨items.headD .nil, rfl, ?_, ?_⟩, ⟨_, rfl, ?_, ?_⟩⟩
    · cases items with
      | nil => rfl
      | cons v vs => exact hitems hcached v List.mem_cons_self
    · exact (Value.nestingOfItems_headD_le items).trans (Nat.le_add_left _ 1)
    · exact Value.depthOver_eq_nesting hrest
    · exact Nat.add_le_add_left (Value.nestingOfItems_drop_one_le items) 1

/-- Where `NaN` is an item, what `cdr` gives back differs from the list that was consed onto. -/
theorem built_and_taken_apart_nan :
    let l := Value.list 1 1 [.number (0 / 0)]
    let r := Value.list 2 1 [.nil, .number (0 / 0)]
    (list.apply [.nil, l]).run 2 = (.ok (.list 2 2 [.nil, l]), 3) ∧
      (cons.apply [.nil, l]).run 2 = (.ok r, 3) ∧
      (car.apply [r]).run 3 = (.ok .nil, 3) ∧
      (cdr.apply [r]).run 3 = (.ok (.list 3 1 [.number (0 / 0)]), 4) ∧
      (equal.apply [.list 3 1 [.number (0 / 0)], l]).run 3 = (.ok (.bool false), 3) := by
  intro l r
  obtain ⟨hbuilt, htaken, -⟩ := built_and_taken_apart
  have hflat : Cached (· ∈ [.nil, l]) := by
    change ∀ v ∈ [.nil, l], v.depth = v.nesting
    decide
  have hcached : Cached (l.Part False) := by
    change Cached ((Value.list 1 1 [.number (0 / 0)]).Part False)
    rintro v (_ | ⟨hv, hpart⟩)
    · rfl
    · obtain rfl := List.mem_singleton.1 hv
      cases hpart
      rfl
  have hcons : (cons.apply [.nil, l]).run 2 = (.ok r, 3) := rfl
  obtain ⟨hcar, hcdr, ⟨same, hequal, hsame⟩, -⟩ :=
    htaken .nil 1 1 [.number (0 / 0)] r 2 3 hcached hcons 3 (by decide)
  have hdiffer : same = false := by
    refine Bool.eq_false_iff.2 fun h => ?_
    have hnan := hsame.1 h (0 / 0) List.mem_cons_self
    exact absurd hnan (by decide)
  refine ⟨((hbuilt [.nil, l] 0 2 3 hflat).1 (by decide)).1, hcons, hcar, hcdr, ?_⟩
  rw [hequal, hdiffer]

end Primitive

end GuardedLisp
