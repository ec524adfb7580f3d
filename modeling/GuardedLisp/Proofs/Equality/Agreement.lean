import GuardedLisp.Proofs.Equality.Laws
import GuardedLisp.Proofs.Nesting

/-!
# The plain comparison

What a comparison remembers, and its look at depths, save work and nothing else: where
depths are true nestings it answers what the plain comparison does, which looks at all
items again (`equal_eq_agree`). The look at identities shows only with `NaN`: it makes a
list that holds `NaN` equal to itself. Without `NaN` equality is that of two trees.
-/

namespace GuardedLisp

variable {σ : Type} {known : Value → Prop}

namespace Value

/-- No item, at whatever level, is `NaN`. -/
def NaNFree (v : Value) : Prop := ∀ x, v.Part False (.number x) → x.isNaN = false

theorem NaNFree.item {addr depth : Nat} {items : List Value}
    (h : (Value.list addr depth items).NaNFree) : ∀ v ∈ items, v.NaNFree :=
  fun _ hv x hpart => h x (.item hv hpart)

/-! ## Depths -/

/-- Every list caches its nesting. -/
def Cached (known : Value → Prop) : Prop := ∀ v, known v → v.depth = v.nesting

theorem nestingOfItems_eq_of_matches (hk : Together known) (hc : Cached known) {xs ys : List Value}
    (hxs : ∀ x ∈ xs, known x) (hys : ∀ y ∈ ys, known y) (h : List.Forall₂ Matches xs ys) :
    nestingOfItems xs = nestingOfItems ys := by
  induction h with
  | nil => rfl
  | @cons x y xs ys hxy _ ih =>
    rw [List.forall_mem_cons] at hxs hys
    rw [nestingOfItems, nestingOfItems, ih hxs.2 hys.2, ← hc x hxs.1, ← hc y hys.1,
      hxy.depth_eq hk hxs.1 hys.1]

/-- Lists of equal items have one depth. -/
theorem depth_eq_of_matches (hk : Together known) (hc : Cached known) {a b depth depth' : Nat}
    {xs ys : List Value} (hv : known (.list a depth xs)) (hw : known (.list b depth' ys))
    (h : List.Forall₂ Matches xs ys) : depth = depth' := by
  have hx : depth = 1 + nestingOfItems xs := by simpa [Value.depth, nesting] using hc _ hv
  have hy : depth' = 1 + nestingOfItems ys := by simpa [Value.depth, nesting] using hc _ hw
  rw [hx, hy, nestingOfItems_eq_of_matches hk hc (hk.item hv) (hk.item hw) h]

mutual

theorem agree_iff_matches (hk : Together known) (hc : Cached known) {v w : Value} (hv : known v)
    (hw : known w) : v.agree true w = true ↔ v.Matches w := by
  by_cases h : v.IsList ∧ w.IsList
  · obtain ⟨⟨a, depth, xs, rfl⟩, b, depth', ys, rfl⟩ := h
    rw [agree, Bool.true_and, Bool.or_eq_true, beq_iff_eq,
      agreeItems_iff_matches hk hc (hk.item hv) (hk.item hw)]
    by_cases hab : a = b
    · exact iff_of_true (.inl hab) (hab ▸ .shared a)
    · rw [matches_list_iff hab, or_iff_right hab]
      exact ⟨fun hitems => ⟨depth_eq_of_matches hk hc hv hw hitems, hitems⟩, And.right⟩
  · exact (matches_iff_of_not_lists h true).symm

theorem agreeItems_iff_matches (hk : Together known) (hc : Cached known) {xs ys : List Value}
    (hxs : ∀ x ∈ xs, known x) (hys : ∀ y ∈ ys, known y) :
    agreeItems true xs ys = true ↔ List.Forall₂ Matches xs ys := by
  match xs, ys with
  | [], [] => exact iff_of_true rfl .nil
  | [], _ :: _ | _ :: _, [] => exact iff_of_false Bool.false_ne_true nofun
  | x :: xs, y :: ys =>
    rw [List.forall_mem_cons] at hxs hys
    rw [agreeItems, Bool.and_eq_true, List.forall₂_cons, agree_iff_matches hk hc hxs.1 hys.1,
      agreeItems_iff_matches hk hc hxs.2 hys.2]

end

/-! ## Without `NaN` -/

mutual

theorem agree_self {v : Value} (h : v.NaNFree) (shortcut : Bool) : v.agree shortcut v = true := by
  match v with
  | .list addr depth items =>
    rw [agree, agreeItems_self h.item, Bool.or_true]
  | .number x => exact Double.beq_self_iff.2 (h x (.refl _))
  | .nil => rfl
  | .bool _ | .string _ | .symbol _ | .builtin .. | .closure .. | .bridge .. => exact beq_self_eq_true _

theorem agreeItems_self {vs : List Value} (h : ∀ v ∈ vs, v.NaNFree) (shortcut : Bool) :
    agreeItems shortcut vs vs = true := by
  match vs with
  | [] => rfl
  | v :: vs =>
    rw [List.forall_mem_cons] at h
    rw [agreeItems, agree_self h.1, agreeItems_self h.2, Bool.and_true]

end

mutual

/-- What is one allocation agrees item by item. -/
theorem agree_eq_of_nanFree (hk : Together known) {v w : Value} (hv : known v) (hw : known w)
    (h : v.NaNFree ∨ w.NaNFree) : v.agree true w = v.agree false w := by
  by_cases hlists : v.IsList ∧ w.IsList
  · obtain ⟨⟨a, depth, xs, rfl⟩, b, depth', ys, rfl⟩ := hlists
    rw [agree, agree, agreeItems_eq_of_nanFree hk (hk.item hv) (hk.item hw)
      (h.imp NaNFree.item NaNFree.item)]
    by_cases hab : a = b
    · subst hab
      obtain ⟨-, rfl⟩ := hk.same hv hw
      rw [agreeItems_self (h.elim NaNFree.item NaNFree.item), Bool.or_true, Bool.or_true]
    · rw [beq_false_of_ne hab, Bool.and_false, Bool.and_false]
  · rw [Bool.eq_iff_iff, ← matches_iff_of_not_lists hlists, ← matches_iff_of_not_lists hlists]

theorem agreeItems_eq_of_nanFree (hk : Together known) {xs ys : List Value}
    (hxs : ∀ x ∈ xs, known x) (hys : ∀ y ∈ ys, known y)
    (h : (∀ x ∈ xs, x.NaNFree) ∨ ∀ y ∈ ys, y.NaNFree) :
    agreeItems true xs ys = agreeItems false xs ys := by
  match xs, ys with
  | [], [] | [], _ :: _ | _ :: _, [] => rfl
  | x :: xs, y :: ys =>
    rw [List.forall_mem_cons] at hxs hys
    rw [List.forall_mem_cons, List.forall_mem_cons] at h
    rw [agreeItems, agreeItems, agree_eq_of_nanFree hk hxs.1 hys.1 (h.imp And.left And.left),
      agreeItems_eq_of_nanFree hk hxs.2 hys.2 (h.imp And.right And.right)]

end

end Value

/-- **A comparison that remembers answers as the plain one.** Take two values of a state in which an
identity belongs to one list and the depths of lists are their nestings. The comparison that
remembers pairs and looks at depths first answers what the plain comparison does, and so does the
procedure `=`. If one of the two values has no `NaN` in it, this is also what the comparison of the
two trees answers, to which identities of lists mean nothing. -/
theorem equal_eq_agree (hk : Value.Together known) (hc : Value.Cached known) {v w : Value}
    (hv : known v) (hw : known w) :
    v.equal w = v.agree true w ∧
    (v.NaNFree ∨ w.NaNFree → v.equal w = v.agree false w) ∧
    ∀ (bridge : Bridge σ) addr m,
      (apply bridge (.builtin addr .equal) [v, w] m).1 = .ok (.bool (v.agree true w)) := by
  have hequal : v.equal w = v.agree true w := by
    rw [Bool.eq_iff_iff, Value.equal_iff_matches hk hv hw, Value.agree_iff_matches hk hc hv hw]
  refine ⟨hequal, fun h => ?_, fun bridge addr m => ?_⟩
  · rw [hequal, Value.agree_eq_of_nanFree hk hv hw h]
  · rw [← hequal]
    rfl

/-- Two lists that share a list with `NaN` in it are equal; as trees they are not. Two lists without
`NaN` are equal as trees. -/
theorem equal_eq_agree_shared :
    let n := Value.list 0 1 [.number (0 / 0)]
    let v := Value.list 1 2 [n, n]
    let w := Value.list 2 2 [n, n]
    let a := Value.list 3 1 [.number 1]
    let b := Value.list 4 1 [.number 1]
    let known u := u ∈ [n, v, w, a, b, .number (0 / 0), .number 1]
    Value.Together known ∧ Value.Cached known ∧ (known v ∧ known w ∧ known a ∧ known b) ∧
      v.equal w = true ∧ v.agree false w = false ∧ a.NaNFree ∧ a.equal b = true ∧
      a.equal b = a.agree false b ∧
      (apply (.empty : Bridge Unit) (.builtin 5 .equal) [v, w]
        ⟨.start .standard .nominal, .start ()⟩).1 = .ok (.bool true) := by
  intro n v w a b known
  have hk : Value.Together known := by
    refine ⟨?_, ?_⟩ <;> simp only [known, n, v, w, a, b] <;> grind
  have hc : Value.Cached known := by
    change ∀ u ∈ [n, v, w, a, b, .number (0 / 0), .number 1], u.depth = u.nesting
    decide
  have hv : known v := by simp [known]
  have hw : known w := by simp [known]
  have ha : known a := by simp [known]
  have hb : known b := by simp [known]
  have hfree : a.NaNFree := by
    change (Value.list 3 1 [.number 1]).NaNFree
    rintro x (_ | ⟨hu, hpart⟩)
    obtain rfl := List.mem_singleton.1 hu
    cases hpart
    decide
  obtain ⟨hvw, -, happly⟩ := equal_eq_agree (σ := Unit) hk hc hv hw
  obtain ⟨hab, htree, -⟩ := equal_eq_agree (σ := Unit) hk hc ha hb
  have hagree : v.agree true w = true := by decide
  rw [hagree] at hvw
  refine ⟨hk, hc, ⟨hv, hw, ha, hb⟩, hvw, by decide, hfree, ?_, htree (.inl hfree), ?_⟩
  · rw [hab]
    decide
  · rw [happly, hagree]

end GuardedLisp
