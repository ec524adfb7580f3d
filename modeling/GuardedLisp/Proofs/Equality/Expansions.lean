import GuardedLisp.Proofs.Equality.Memo
import GuardedLisp.Proofs.Nesting
import Mathlib.Data.Finset.Prod

/-!
# The work of a comparison

A pair of lists is expanded when their items are compared. An expanded pair is either
found equal, and remembered, or in progress, or has failed. A pair in progress does not
come back among its own items, since a list is nested more deeply than what it holds,
and after a failure nothing is compared any more. So no pair is expanded twice
(`expanded_once`), however often the lists occur in the two trees.
-/

namespace GuardedLisp

namespace Value

/-! ## Allocations -/

mutual

/-- The identities of the lists in a value. -/
def allocations : Value → Finset Nat
  | list addr _ items => insert addr (allocationsOf items)
  | _ => ∅

def allocationsOf : List Value → Finset Nat
  | [] => ∅
  | v :: vs => v.allocations ∪ allocationsOf vs

end

variable {v w : Value} {vs : List Value} {addr depth : Nat} {items : List Value}

theorem mem_allocationsOf : addr ∈ allocationsOf vs ↔ ∃ v ∈ vs, addr ∈ v.allocations := by
  induction vs with
  | nil => simp [allocationsOf]
  | cons v vs ih => simp [allocationsOf, ih]

theorem Part.nesting_le (h : v.Part False w) : w.nesting ≤ v.nesting := by
  induction h with
  | refl => exact Nat.le_refl _
  | @item addr depth items u w hu _ ih =>
    have hle := nesting_le_nestingOfItems hu
    rw [nesting]
    omega
  | body hb => exact hb.elim

theorem exists_part_of_mem_allocations {v : Value} {addr : Nat} (h : addr ∈ v.allocations) :
    ∃ depth items, v.Part False (.list addr depth items) := by
  match v with
  | .list a depth items =>
    rw [allocations, Finset.mem_insert, mem_allocationsOf] at h
    rcases h with rfl | ⟨u, hu, h⟩
    · exact ⟨depth, items, .refl _⟩
    · obtain ⟨d, vs, hpart⟩ := exists_part_of_mem_allocations h
      exact ⟨d, vs, .item hu hpart⟩

/-- A list is not among what it holds. -/
theorem Together.not_mem_allocationsOf {known : Value → Prop} (hk : Together known)
    (h : known (.list addr depth items)) : addr ∉ allocationsOf items := by
  intro hmem
  obtain ⟨u, hu, hmem⟩ := mem_allocationsOf.1 hmem
  obtain ⟨d, vs, hpart⟩ := exists_part_of_mem_allocations hmem
  obtain ⟨-, rfl⟩ := hk.same h (hk.part (hk.item h u hu) hpart)
  have hle := hpart.nesting_le
  have hlt := nesting_le_nestingOfItems hu
  rw [nesting] at hle
  omega

end Value

/-! ## Steps of a comparison -/

namespace Comparison

/-- The pairs that were expanded with one of these lists on the left were found equal. -/
def Clear (S : Finset Nat) (c : Comparison) : Prop :=
  ∀ p ∈ c.expanded, p.1 ∈ S → c.matched.contains p = true

/-- What comes of comparing values with these allocations. Nothing is expanded twice or forgotten;
and if the values are equal, every pair expanded meanwhile was found equal. -/
structure Advances (S T : Finset Nat) (c : Comparison) (r : Bool × Comparison) : Prop where
  nodup : r.2.expanded.Nodup
  within : ∀ p ∈ r.2.expanded, p ∈ c.expanded ∨ p.1 ∈ S ∧ p.2 ∈ T
  kept : ∀ p, c.matched.contains p = true → r.2.matched.contains p = true
  settled : r.1 = true → ∀ p ∈ r.2.expanded, p ∈ c.expanded ∨ r.2.matched.contains p = true

variable {S S' T T' : Finset Nat} {c : Comparison} {r r' : Bool × Comparison} {a b : Nat}

theorem Clear.mono (h : c.Clear S) (hS : S' ⊆ S) : c.Clear S' :=
  fun p hp hmem => h p hp (hS hmem)

/-- While a pair is in progress, its left list is not looked for. -/
theorem Clear.expand (h : c.Clear S) (ha : a ∉ S) : (c.expand (a, b)).Clear S := by
  intro p hp hmem
  rcases List.mem_cons.1 hp with rfl | hp
  · exact absurd hmem ha
  · exact h p hp hmem

namespace Advances

theorem stay (same : Bool) (hnodup : c.expanded.Nodup) : Advances S T c (same, c) :=
  ⟨hnodup, fun _ => .inl, fun _ => id, fun _ _ => .inl⟩

theorem mono (h : Advances S T c r) (hS : S ⊆ S') (hT : T ⊆ T') : Advances S' T' c r :=
  ⟨h.nodup, fun p hp => (h.within p hp).imp_right (.imp (@hS _) (@hT _)), h.kept, h.settled⟩

theorem clear (h : Advances S T c r) (hr : r.1 = true) (hc : c.Clear S') : r.2.Clear S' :=
  fun p hp hmem => (h.settled hr p hp).elim (fun hold => h.kept p (hc p hold hmem)) id

theorem trans (h : Advances S T c r) (hr : r.1 = true) (h' : Advances S T r.2 r') :
    Advances S T c r' := by
  refine ⟨h'.nodup, fun p hp => ?_, fun p hp => h'.kept p (h.kept p hp), fun hr' p hp => ?_⟩
  · exact (h'.within p hp).elim (h.within p) .inr
  · exact (h'.settled hr' p hp).elim (fun hold => (h.settled hr p hold).imp_right (h'.kept p)) .inr

/-- The items of a pair were compared, and the pair is remembered if they are equal. -/
theorem ofItems (h : Advances S T (c.expand (a, b)) r) :
    Advances (insert a S) (insert b T) c (r.1, if r.1 then r.2.found (a, b) else r.2) := by
  have hexpanded : (if r.1 then r.2.found (a, b) else r.2).expanded = r.2.expanded := by
    split <;> rfl
  refine ⟨hexpanded ▸ h.nodup, fun p hp => ?_, fun p hp => ?_, fun hr p hp => ?_⟩
  · rw [hexpanded] at hp
    rcases h.within p hp with hp | ⟨hS, hT⟩
    · rcases List.mem_cons.1 hp with rfl | hp
      · exact .inr ⟨Finset.mem_insert_self _ _, Finset.mem_insert_self _ _⟩
      · exact .inl hp
    · exact .inr ⟨Finset.mem_insert_of_mem hS, Finset.mem_insert_of_mem hT⟩
  · have hkept := h.kept p hp
    dsimp only
    split
    · rw [found, Std.HashSet.contains_insert, hkept, Bool.or_true]
    · exact hkept
  · rw [hexpanded] at hp
    dsimp only at hr ⊢
    rw [if_pos hr, found, Std.HashSet.contains_insert, Bool.or_eq_true, beq_iff_eq]
    rcases h.settled hr p hp with hp | hp
    · rcases List.mem_cons.1 hp with rfl | hp
      · exact .inr (.inl rfl)
      · exact .inl hp
    · exact .inr (.inr hp)

end Advances

end Comparison

namespace Value

variable {known : Value → Prop}

mutual

theorem compare_advances (hk : Together known) {v : Value} (hv : known v) (w : Value)
    {c : Comparison} (hnodup : c.expanded.Nodup) (hclear : c.Clear v.allocations) :
    Comparison.Advances v.allocations w.allocations c (compare v w c) := by
  by_cases h : v.IsList ∧ w.IsList
  · obtain ⟨⟨a, depth, xs, rfl⟩, b, depth', ys, rfl⟩ := h
    rw [compare]
    split
    · exact .stay _ hnodup
    split
    · exact .stay _ hnodup
    split
    · exact .stay _ hnodup
    next hnew =>
    -- the pair was not expanded before: it would have been found equal
    have hfresh : (a, b) ∉ c.expanded := fun hmem =>
      hnew (hclear _ hmem (by rw [allocations]; exact Finset.mem_insert_self _ _))
    have hitems : c.Clear (allocationsOf xs) := hclear.mono (by
      rw [allocations]; exact Finset.subset_insert _ _)
    rw [allocations, allocations]
    exact .ofItems (compareItems_advances hk (hk.item hv) ys (List.nodup_cons.2 ⟨hfresh, hnodup⟩)
      (hitems.expand (hk.not_mem_allocationsOf hv)))
  · rw [compare_of_not_lists h true]
    exact .stay _ hnodup

theorem compareItems_advances (hk : Together known) {xs : List Value}
    (hxs : ∀ x ∈ xs, known x) (ys : List Value) {c : Comparison} (hnodup : c.expanded.Nodup)
    (hclear : c.Clear (allocationsOf xs)) :
    Comparison.Advances (allocationsOf xs) (allocationsOf ys) c (compareItems xs ys c) := by
  match xs, ys with
  | [], _ | _ :: _, [] => exact .stay _ hnodup
  | x :: xs, y :: ys =>
    rw [List.forall_mem_cons] at hxs
    rw [allocationsOf] at hclear
    have hfirst := compare_advances hk hxs.1 y hnodup
      (hclear.mono Finset.subset_union_left)
    rw [compareItems, allocationsOf, allocationsOf]
    dsimp only
    split
    · next hequal =>
      have hrest := compareItems_advances hk hxs.2 ys hfirst.nodup
        (hfirst.clear hequal (hclear.mono Finset.subset_union_right))
      exact (hfirst.mono Finset.subset_union_left Finset.subset_union_left).trans hequal
        (hrest.mono Finset.subset_union_right Finset.subset_union_right)
    · next hunequal =>
      have hdone : Comparison.Advances (x.allocations ∪ allocationsOf xs)
          (y.allocations ∪ allocationsOf ys) c (compare x y c) :=
        hfirst.mono Finset.subset_union_left Finset.subset_union_left
      exact ⟨hdone.nodup, hdone.within, hdone.kept, nofun⟩

end

end Value

/-! ## Values that share much -/

namespace Value

mutual

/-- How large a value is as a tree. -/
def nodes : Value → Nat
  | list _ _ items => 1 + nodesOf items
  | _ => 1

def nodesOf : List Value → Nat
  | [] => 0
  | v :: vs => v.nodes + nodesOf vs

end

/-- A list of two items that are one allocation, and so on down to the number 1. -/
def doubled (base : Nat) : Nat → Value
  | 0 => .number 1
  | n + 1 => .list (base + n) (n + 1) [doubled base n, doubled base n]

theorem two_pow_le_nodes_doubled (base n : Nat) : 2 ^ n ≤ (doubled base n).nodes := by
  induction n with
  | zero => exact Nat.le_refl 1
  | succ n ih =>
    rw [doubled, nodes, nodesOf, nodesOf, nodesOf, Nat.pow_succ]
    omega

theorem card_allocations_doubled_le (base n : Nat) : (doubled base n).allocations.card ≤ n := by
  induction n with
  | zero => exact Nat.le_refl 0
  | succ n ih =>
    have hinsert := Finset.card_insert_le (base + n) (doubled base n).allocations
    rw [doubled, allocations, allocationsOf, allocationsOf, allocationsOf, Finset.union_empty,
      Finset.union_self]
    omega

/-- Two of them with identities of their own. -/
def IsDoubled (n : Nat) (v : Value) : Prop :=
  ∃ base k, (base = 0 ∨ base = n) ∧ k ≤ n ∧ v = doubled base k

theorem together_isDoubled (n : Nat) : Together (IsDoubled n) := by
  have hcases {base k addr depth : Nat} {items : List Value}
      (h : Value.list addr depth items = doubled base k) : ∃ j, k = j + 1 ∧ addr = base + j ∧
        depth = j + 1 ∧ items = [doubled base j, doubled base j] := by
    cases k with
    | zero => cases h
    | succ j =>
      cases h
      exact ⟨j, rfl, rfl, rfl, rfl⟩
  constructor
  · rintro addr depth items ⟨base, k, hbase, hk, h⟩ v hv
    obtain ⟨j, rfl, -, -, rfl⟩ := hcases h
    have hv : v = doubled base j := by simpa using hv
    exact ⟨base, j, hbase, Nat.le_of_succ_le hk, hv⟩
  · rintro addr depth depth' items items' ⟨base, k, hbase, hk, h⟩ ⟨base', k', hbase', hk', h'⟩
    obtain ⟨j, rfl, haddr, rfl, rfl⟩ := hcases h
    obtain ⟨j', rfl, haddr', rfl, rfl⟩ := hcases h'
    obtain ⟨rfl, rfl⟩ : base = base' ∧ j = j' := by omega
    exact ⟨rfl, rfl⟩

end Value

/-- **A comparison expands no pair of lists twice.** Take a value of a state in which an identity
belongs to one list, and any other value. While the two are compared, the items of two lists are
compared at most once for each pair of allocations, of which the first is in the first value and the
second in the second. So this happens at most as often as there are allocations in the one, times
those in the other, whatever the size of the trees. -/
theorem expanded_once {known : Value → Prop} (hk : Value.Together known) {v : Value} (hv : known v)
    (w : Value) :
    let pairs := (Value.compare v w .start).2.expanded
    pairs.Nodup ∧ (∀ p ∈ pairs, p.1 ∈ v.allocations ∧ p.2 ∈ w.allocations) ∧
      pairs.length ≤ v.allocations.card * w.allocations.card := by
  intro pairs
  have hstart : Comparison.start.Clear v.allocations := fun p hp => by cases hp
  have h := Value.compare_advances hk hv w List.nodup_nil hstart
  have hwithin : ∀ p ∈ pairs, p.1 ∈ v.allocations ∧ p.2 ∈ w.allocations :=
    fun p hp => (h.within p hp).resolve_left List.not_mem_nil
  refine ⟨h.nodup, hwithin, ?_⟩
  calc pairs.length = pairs.toFinset.card := (List.toFinset_card_of_nodup h.nodup).symm
    _ ≤ (v.allocations ×ˢ w.allocations).card := Finset.card_le_card fun p hp =>
      Finset.mem_product.2 (hwithin p (List.mem_toFinset.1 hp))
    _ = v.allocations.card * w.allocations.card := Finset.card_product _ _

/-- Trees of more than 2 ^ 100 nodes. -/
theorem expanded_once_doubled :
    let v := Value.doubled 0 100
    let w := Value.doubled 100 100
    let pairs := (Value.compare v w .start).2.expanded
    2 ^ 100 ≤ v.nodes ∧ 2 ^ 100 ≤ w.nodes ∧
      Value.Together (Value.IsDoubled 100) ∧ Value.IsDoubled 100 v ∧
      pairs.Nodup ∧ pairs.length ≤ 100 * 100 := by
  intro v w pairs
  have hk := Value.together_isDoubled 100
  have hv : Value.IsDoubled 100 v := ⟨0, 100, .inl rfl, Nat.le_refl _, rfl⟩
  obtain ⟨hnodup, -, hlength⟩ := expanded_once hk hv w
  exact ⟨Value.two_pow_le_nodes_doubled 0 100, Value.two_pow_le_nodes_doubled 100 100, hk, hv, hnodup,
    hlength.trans (Nat.mul_le_mul (Value.card_allocations_doubled_le 0 100)
      (Value.card_allocations_doubled_le 100 100))⟩

end GuardedLisp
