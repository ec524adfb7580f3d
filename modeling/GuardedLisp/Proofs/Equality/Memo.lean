import GuardedLisp.Proofs.Coherence.Reached
import GuardedLisp.Value.Equality

/-!
# What a comparison finds out

A comparison remembers pairs of identities in the place of the lists that have them,
and it does so for all that is compared later, too. In a state where an identity
belongs to one list (`Value.Together`) each remembered pair stands for two lists that
are equal indeed, and this stays so (`Comparison.Truthful`). So what a comparison
answers is decided by the two values alone: it is the relation `Value.Matches`
(`equal_iff_matches`).
-/

namespace GuardedLisp

namespace Value

/-- The values of a state: the items of a list are among them, and an identity belongs to one
list. -/
structure Together (known : Value → Prop) : Prop where
  item {addr depth : Nat} {items : List Value} (h : known (.list addr depth items)) :
    ∀ v ∈ items, known v
  same {addr depth depth' : Nat} {items items' : List Value} (h : known (.list addr depth items))
    (h' : known (.list addr depth' items')) : depth = depth' ∧ items = items'

theorem Together.part {known : Value → Prop} (hk : Together known) {v w : Value} (hv : known v)
    (h : v.Part False w) : known w := by
  induction h with
  | refl => exact hv
  | item hmem _ ih => exact ih (hk.item hv _ hmem)
  | body hb => exact hb.elim

/-- Equal as `=` has it. Lists are one allocation, or of one depth with items that are equal. -/
inductive Matches : Value → Value → Prop where
  | nil : Matches .nil .nil
  | bool (b : Bool) : Matches (.bool b) (.bool b)
  | number {x y : Float} (h : (x == y) = true) : Matches (.number x) (.number y)
  | string (s : String) : Matches (.string s) (.string s)
  | symbol (name : String) : Matches (.symbol name) (.symbol name)
  | shared (addr : Nat) {depth depth' : Nat} {items items' : List Value} :
    Matches (.list addr depth items) (.list addr depth' items')
  | list {addr addr' depth : Nat} {items items' : List Value}
    (h : List.Forall₂ Matches items items') :
    Matches (.list addr depth items) (.list addr' depth items')
  | builtin (addr : Nat) {p p' : Primitive} : Matches (.builtin addr p) (.builtin addr p')
  | closure (addr : Nat) {params params' : List String} {body body' : Value} {f f' : Nat} :
    Matches (.closure addr params body f) (.closure addr params' body' f')
  | bridge (addr : Nat) {call call' : BridgeCall} :
    Matches (.bridge addr call) (.bridge addr call')

/-! ## The plain comparison -/

mutual

/-- Compares two values without a memory and without a look at depths. With the shortcut, lists
that are one allocation are equal whatever they hold. -/
def agree (shortcut : Bool) : Value → Value → Bool
  | list a _ xs, list b _ ys => shortcut && a == b || agreeItems shortcut xs ys
  | nil, nil => true
  | bool b, bool b' => b == b'
  | number x, number y => x == y
  | string s, string t => s == t
  | symbol s, symbol t => s == t
  | builtin a _, builtin b _ => a == b
  | closure a .., closure b .. => a == b
  | bridge a _, bridge b _ => a == b
  | _, _ => false

/-- Whether there are as many items on both sides, which agree pairwise. -/
def agreeItems (shortcut : Bool) : List Value → List Value → Bool
  | [], [] => true
  | x :: xs, y :: ys => agree shortcut x y && agreeItems shortcut xs ys
  | _, _ => false

end

variable {v w : Value} {xs ys : List Value} {shortcut : Bool}

/-- Different allocations are equal by what they hold. -/
theorem matches_list_iff {a b depth depth' : Nat} (hne : a ≠ b) :
    (list a depth xs).Matches (.list b depth' ys) ↔ depth = depth' ∧ List.Forall₂ Matches xs ys := by
  constructor
  · intro h
    cases h with
    | shared => exact absurd rfl hne
    | list hitems => exact ⟨rfl, hitems⟩
  · rintro ⟨rfl, hitems⟩
    exact .list hitems

/-- Where one of the two is no list, nothing is remembered. -/
theorem compare_of_not_lists (h : ¬ (v.IsList ∧ w.IsList)) (shortcut : Bool) (c : Comparison) :
    compare v w c = (v.agree shortcut w, c) := by
  cases v <;> cases w
  case list.list => exact absurd ⟨⟨_, _, _, rfl⟩, ⟨_, _, _, rfl⟩⟩ h
  all_goals rfl

theorem matches_iff_of_not_lists (h : ¬ (v.IsList ∧ w.IsList)) (shortcut : Bool) :
    v.Matches w ↔ v.agree shortcut w = true := by
  constructor
  · intro hm
    cases hm with
    | shared | list => exact absurd ⟨⟨_, _, _, rfl⟩, ⟨_, _, _, rfl⟩⟩ h
    | number hxy => exact hxy
    | _ => simp [agree]
  · fun_cases agree shortcut v w
    case case1 => exact absurd ⟨⟨_, _, _, rfl⟩, ⟨_, _, _, rfl⟩⟩ h
    case case2 => exact fun _ => .nil
    case case4 => exact .number
    case case10 => exact nofun
    all_goals
      intro heq
      obtain rfl := eq_of_beq heq
      constructor

end Value

/-- The values alive in a state that a host can bring about are those of a state. -/
theorem Reached.together {σ : Type} {held : σ → Value → Prop} {O : Value → Prop} {w : World σ}
    (h : Reached held O w) : Value.Together (Alive held O w) := by
  obtain ⟨heap, hd⟩ := h.described
  refine ⟨fun {addr depth items} hlist v hv => ?_, fun {addr depth depth' items items'} hx hy => ?_⟩
  · rcases hlist with hatom | ⟨u, hu, hpart⟩
    · exact hatom.elim
    · exact .inr ⟨u, hu, hpart.trans (.item hv (.refl v))⟩
  · have heq := heap.same (hd.alive hx) (hd.alive hy) rfl rfl
    cases heq
    exact ⟨rfl, rfl⟩

/-! ## What is remembered -/

/-- Every remembered pair stands for lists that are equal. -/
def Comparison.Truthful (known : Value → Prop) (c : Comparison) : Prop :=
  ∀ {a b depth depth' : Nat} {items items' : List Value}, c.matched.contains (a, b) = true →
    known (.list a depth items) → known (.list b depth' items') →
      (Value.list a depth items).Matches (.list b depth' items')

namespace Comparison.Truthful

variable {known : Value → Prop} {c : Comparison}

theorem start : Comparison.start.Truthful known := by
  intro a b depth depth' items items' h
  simp [Comparison.start] at h

theorem expand (hc : c.Truthful known) (pair : Nat × Nat) : (c.expand pair).Truthful known := hc

theorem found {a b depth depth' : Nat} {items items' : List Value} (hk : Value.Together known)
    (hc : c.Truthful known) (hv : known (.list a depth items)) (hw : known (.list b depth' items'))
    (h : (Value.list a depth items).Matches (.list b depth' items')) :
    (c.found (a, b)).Truthful known := by
  intro x y _ _ _ _ hpair hx hy
  rw [Comparison.found, Std.HashSet.contains_insert, Bool.or_eq_true, beq_iff_eq] at hpair
  rcases hpair with heq | hpair
  · cases heq
    obtain ⟨rfl, rfl⟩ := hk.same hv hx
    obtain ⟨rfl, rfl⟩ := hk.same hw hy
    exact h
  · exact hc hpair hx hy

end Comparison.Truthful

namespace Value

variable {known : Value → Prop}

mutual

/-- A comparison that remembers the truth answers it, and goes on to remember it. -/
theorem compare_truthful (hk : Together known) {v w : Value} (hv : known v) (hw : known w)
    {c : Comparison} (hc : c.Truthful known) :
    ((compare v w c).1 = true ↔ v.Matches w) ∧ (compare v w c).2.Truthful known := by
  by_cases h : v.IsList ∧ w.IsList
  · obtain ⟨⟨a, depth, xs, rfl⟩, b, depth', ys, rfl⟩ := h
    rw [compare]
    -- one allocation; depths or lengths that differ; a pair found equal before; the items
    split
    · next heq => exact ⟨iff_of_true rfl (heq ▸ .shared a), hc⟩
    next hne =>
    split
    · next hshape =>
      refine ⟨iff_of_false Bool.false_ne_true fun hm => ?_, hc⟩
      obtain ⟨hdepth, hitems⟩ := (matches_list_iff hne).1 hm
      exact hshape.elim (· hdepth) (· hitems.length_eq)
    next hshape =>
    split
    · next hfound => exact ⟨iff_of_true rfl (hc hfound hv hw), hc⟩
    · obtain ⟨rfl, hlength⟩ : depth = depth' ∧ xs.length = ys.length := by
        rwa [not_or, not_not, not_not] at hshape
      obtain ⟨hsame, htruthful⟩ := compareItems_truthful hk (hk.item hv) (hk.item hw) hlength
        (hc.expand (a, b))
      refine ⟨by rw [hsame, matches_list_iff hne, and_iff_right rfl], ?_⟩
      dsimp only
      split
      · next hequal => exact htruthful.found hk hv hw (.list (hsame.1 hequal))
      · exact htruthful
  · rw [compare_of_not_lists h true]
    exact ⟨(matches_iff_of_not_lists h true).symm, hc⟩

theorem compareItems_truthful (hk : Together known) {xs ys : List Value}
    (hxs : ∀ x ∈ xs, known x) (hys : ∀ y ∈ ys, known y) (hlength : xs.length = ys.length)
    {c : Comparison} (hc : c.Truthful known) :
    ((compareItems xs ys c).1 = true ↔ List.Forall₂ Matches xs ys) ∧
      (compareItems xs ys c).2.Truthful known := by
  match xs, ys with
  | [], [] => exact ⟨iff_of_true rfl .nil, hc⟩
  | [], _ :: _ => cases hlength
  | _ :: _, [] => cases hlength
  | x :: xs, y :: ys =>
    rw [List.forall_mem_cons] at hxs hys
    obtain ⟨hsame, htruthful⟩ := compare_truthful hk hxs.1 hys.1 hc
    rw [compareItems, List.forall₂_cons, ← hsame]
    dsimp only
    split
    · next hequal =>
      obtain ⟨hrest, htruthful⟩ := compareItems_truthful hk hxs.2 hys.2 (Nat.succ.inj hlength)
        htruthful
      exact ⟨by rw [hrest, and_iff_right hequal], htruthful⟩
    · next hunequal => exact ⟨iff_of_false Bool.false_ne_true fun h => hunequal h.1, htruthful⟩

end

/-- What is remembered on the way does not show in the answer. -/
theorem equal_iff_matches (hk : Together known) {v w : Value} (hv : known v) (hw : known w) :
    v.equal w = true ↔ v.Matches w := (compare_truthful hk hv hw Comparison.Truthful.start).1

end Value

end GuardedLisp
