import GuardedLisp.Proofs.Correspondence.Program
import GuardedLisp.Value.Equality
import Mathlib.Tactic.Common

/-!
# Equality of programs

Two pieces of program text that were read one after the other share no
allocation. What a comparison of their values remembers is then never met again,
and the answer is that of a comparison of the two trees (`compare_ofDatum`).
-/

namespace GuardedLisp

namespace Source.Datum

mutual

/-- Equality of data, where numbers are compared as numbers. -/
def same : Datum → Datum → Bool
  | number x, number y => x == y
  | string s, string t => s == t
  | symbol s, symbol t => s == t
  | list xs, list ys => sameAll xs ys
  | _, _ => false

def sameAll : List Datum → List Datum → Bool
  | [], [] => true
  | d :: ds, e :: es => d.same e && sameAll ds es
  | _, _ => false

end

theorem length_eq_of_sameAll {ds es : List Datum} (h : sameAll ds es = true) :
    ds.length = es.length := by
  induction ds generalizing es with
  | nil => cases es with
    | nil => rfl
    | cons e es => cases h
  | cons d ds ih => cases es with
    | nil => cases h
    | cons e es =>
      rw [sameAll, Bool.and_eq_true] at h
      rw [List.length_cons, List.length_cons, ih h.2]

mutual

theorem nesting_eq_of_same (d e : Datum) (h : d.same e = true) : d.nesting = e.nesting := by
  cases d <;> cases e
  case list.list items items' =>
    rw [nesting, nesting, nestingOfItems_eq_of_sameAll items items' h]
  all_goals first | rfl | cases h

theorem nestingOfItems_eq_of_sameAll (ds es : List Datum) (h : sameAll ds es = true) :
    nestingOfItems ds = nestingOfItems es := by
  match ds, es with
  | [], [] => rfl
  | [], e :: es => cases h
  | d :: ds, [] => cases h
  | d :: ds, e :: es =>
    rw [sameAll, Bool.and_eq_true] at h
    rw [nestingOfItems, nestingOfItems, nesting_eq_of_same d e h.1,
      nestingOfItems_eq_of_sameAll ds es h.2]

end

end Source.Datum

/-- Every pair that was found equal lies before the identity `n` on its left side. -/
def Comparison.Before (n : Nat) (c : Comparison) : Prop :=
  ∀ pair, c.matched.contains pair = true → pair.1 < n

theorem Comparison.Before.mono {n m : Nat} {c : Comparison} (h : c.Before n) (hle : n ≤ m) :
    c.Before m :=
  fun pair hpair => Nat.lt_of_lt_of_le (h pair hpair) hle

theorem Comparison.Before.expand {n : Nat} {c : Comparison} (h : c.Before n) (pair : Nat × Nat) :
    (c.expand pair).Before n := h

theorem Comparison.Before.found {n : Nat} {c : Comparison} (h : c.Before n) (b : Nat) :
    (c.found (n, b)).Before (n + 1) := by
  intro pair hpair
  rw [Comparison.found, Std.HashSet.contains_insert, Bool.or_eq_true, beq_iff_eq] at hpair
  rcases hpair with rfl | hpair
  · exact Nat.lt_succ_self n
  · exact Nat.lt_succ_of_lt (h pair hpair)

namespace Value

open Source (Datum)

theorem run_ofDatum_list (items : List Datum) (n : Nat) :
    (ofDatum (.list items)).run n =
      (list ((ofData items).run n).2 (depthOver ((ofData items).run n).1) ((ofData items).run n).1,
        ((ofData items).run n).2 + 1) := by
  rw [ofDatum]
  rfl

theorem run_ofData_cons (d : Datum) (ds : List Datum) (n : Nat) :
    (ofData (d :: ds)).run n =
      (((ofDatum d).run n).1 :: ((ofData ds).run ((ofDatum d).run n).2).1,
        ((ofData ds).run ((ofDatum d).run n).2).2) := by
  rw [ofData]
  rfl

mutual

theorem le_next_ofDatum (d : Datum) (n : Nat) : n ≤ ((ofDatum d).run n).2 := by
  cases d with
  | number | string | symbol => rw [ofDatum]; exact Nat.le_refl n
  | list items =>
    rw [run_ofDatum_list]
    exact Nat.le_succ_of_le (le_next_ofData items n)

theorem le_next_ofData (ds : List Datum) (n : Nat) : n ≤ ((ofData ds).run n).2 := by
  cases ds with
  | nil => rw [ofData]; exact Nat.le_refl n
  | cons d ds =>
    rw [run_ofData_cons]
    exact Nat.le_trans (le_next_ofDatum d n) (le_next_ofData ds _)

end

theorem length_ofData (ds : List Datum) (n : Nat) : ((ofData ds).run n).1.length = ds.length := by
  induction ds generalizing n with
  | nil => rw [ofData]; rfl
  | cons d ds ih => rw [run_ofData_cons, List.length_cons, List.length_cons, ih]

/-- Lists that are not known to be equal are compared by depth and length, and then item by item. -/
theorem compare_list {a b : Nat} {c : Comparison} (hne : a ≠ b)
    (hnew : c.matched.contains (a, b) = false) (depth depth' : Nat) (vs ws : List Value) :
    compare (list a depth vs) (list b depth' ws) c =
      if depth ≠ depth' ∨ vs.length ≠ ws.length then (false, c)
      else
        let (same, c) := compareItems vs ws (c.expand (a, b))
        (same, if same then c.found (a, b) else c) := by
  rw [compare, if_neg hne, hnew]
  rfl

mutual

/-- Values of data are compared as the data are, when the ones on the left are newer. -/
theorem compare_ofDatum (d e : Datum) {n n' : Nat} (hbehind : ((ofDatum e).run n').2 ≤ n)
    {c : Comparison} (hc : c.Before n) :
    (compare ((ofDatum d).run n).1 ((ofDatum e).run n').1 c).1 = d.same e ∧
      (compare ((ofDatum d).run n).1 ((ofDatum e).run n').1 c).2.Before ((ofDatum d).run n).2 := by
  cases d with
  | number | string | symbol => cases e <;> exact ⟨rfl, hc⟩
  | list items =>
    cases e with
    | number | string | symbol => exact ⟨rfl, hc.mono (le_next_ofDatum (.list items) n)⟩
    | list items' =>
      rw [run_ofDatum_list] at hbehind ⊢
      rw [run_ofDatum_list]
      have hle := le_next_ofData items n
      have hnew : c.matched.contains (((ofData items).run n).2, ((ofData items').run n').2) =
          false := by
        refine Bool.eq_false_iff.2 fun hmatched => ?_
        exact Nat.not_lt_of_le hle (hc _ hmatched)
      rw [compare_list (Nat.ne_of_gt (Nat.lt_of_lt_of_le hbehind hle)) hnew, depthOver, depthOver,
        deepest_ofData, deepest_ofData, length_ofData, length_ofData]
      split
      · next hshape =>
        refine ⟨(Bool.eq_false_iff.2 fun hsame => ?_).symm, hc.mono (Nat.le_succ_of_le hle)⟩
        have hlength := Datum.length_eq_of_sameAll hsame
        have hnesting := Datum.nestingOfItems_eq_of_sameAll items items' hsame
        omega
      · next hshape =>
        have hlength : items.length = items'.length := by omega
        obtain ⟨hsame, hbefore⟩ := compareItems_ofData items items' hlength
          (Nat.le_of_succ_le hbehind) (hc.expand _)
        refine ⟨hsame, ?_⟩
        dsimp only
        split
        · exact hbefore.found _
        · exact hbefore.mono (Nat.le_succ _)

theorem compareItems_ofData (ds es : List Datum) (hlength : ds.length = es.length) {n n' : Nat}
    (hbehind : ((ofData es).run n').2 ≤ n) {c : Comparison} (hc : c.Before n) :
    (compareItems ((ofData ds).run n).1 ((ofData es).run n').1 c).1 = Datum.sameAll ds es ∧
      (compareItems ((ofData ds).run n).1 ((ofData es).run n').1 c).2.Before
        ((ofData ds).run n).2 := by
  match ds, es with
  | [], [] => exact ⟨rfl, hc⟩
  | [], _ :: _ => cases hlength
  | _ :: _, [] => cases hlength
  | d :: ds, e :: es =>
    rw [run_ofData_cons] at hbehind ⊢
    rw [run_ofData_cons]
    have hle' := le_next_ofData es ((ofDatum e).run n').2
    obtain ⟨hsame, hbefore⟩ := compare_ofDatum d e (Nat.le_trans hle' hbehind) hc
    rw [compareItems, Datum.sameAll, ← hsame]
    generalize compare ((ofDatum d).run n).1 ((ofDatum e).run n').1 c = answer at hbefore
    obtain ⟨same, c⟩ := answer
    cases same with
    | false => exact ⟨rfl, hbefore.mono (le_next_ofData ds _)⟩
    | true =>
      exact compareItems_ofData ds es (Nat.succ.inj hlength)
        (Nat.le_trans hbehind (le_next_ofDatum d n)) hbefore

end

theorem equal_ofDatum (d e : Datum) {n n' : Nat} (hbehind : ((ofDatum e).run n').2 ≤ n) :
    ((ofDatum d).run n).1.equal ((ofDatum e).run n').1 = d.same e :=
  (compare_ofDatum d e hbehind (c := .start) fun pair h => by
    simp [Comparison.start] at h).1

/-- Programs are equal, expression by expression, when their data are. -/
theorem forall₂_equal_ofData (ds es : List Datum) {n n' : Nat}
    (hbehind : ((ofData es).run n').2 ≤ n) :
    List.Forall₂ (fun v w => v.equal w = true) ((ofData ds).run n).1 ((ofData es).run n').1 ↔
      Datum.sameAll ds es = true := by
  induction ds generalizing es n n' with
  | nil =>
    cases es with
    | nil => exact iff_of_true .nil rfl
    | cons e es =>
      rw [run_ofData_cons]
      exact iff_of_false nofun nofun
  | cons d ds ih =>
    cases es with
    | nil =>
      rw [run_ofData_cons]
      exact iff_of_false nofun nofun
    | cons e es =>
      rw [run_ofData_cons] at hbehind ⊢
      rw [run_ofData_cons]
      have hle := le_next_ofData es ((ofDatum e).run n').2
      rw [List.forall₂_cons, equal_ofDatum d e (Nat.le_trans hle hbehind),
        ih es (Nat.le_trans hbehind (le_next_ofDatum d n)), Datum.sameAll, Bool.and_eq_true]

end Value

end GuardedLisp
