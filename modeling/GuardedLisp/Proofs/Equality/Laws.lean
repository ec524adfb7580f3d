import GuardedLisp.Proofs.Double.Comparison
import GuardedLisp.Proofs.Equality.Memo

/-!
# The laws of equality

Values are equal by identity or by what they hold, in any mixture of the two at every
level. In a state where an identity belongs to one list the mixture is symmetric and
transitive, and every value equals itself but for the number `NaN`
(`equal_equivalence`). A list that holds `NaN` equals itself, but not its copies.
-/

namespace GuardedLisp

namespace Value

variable {known : Value → Prop}

/-! ## Laws of the relation -/

mutual

theorem Matches.symm {v w : Value} (h : v.Matches w) : w.Matches v := by
  cases h with
  | shared addr => exact .shared addr
  | list hitems => exact .list (matchesItems_symm hitems)
  | number hxy => exact .number (Double.beq_symm hxy)
  | _ => constructor

theorem matchesItems_symm {xs ys : List Value} (h : List.Forall₂ Matches xs ys) :
    List.Forall₂ Matches ys xs := by
  cases h with
  | nil => exact .nil
  | cons hxy hrest => exact .cons hxy.symm (matchesItems_symm hrest)

end

mutual

/-- Where one of the two equalities is by identity, the other one is what is wanted. -/
theorem Matches.trans (hk : Together known) {u v w : Value} (hu : known u) (hv : known v)
    (hw : known w) (h : u.Matches v) (h' : v.Matches w) : u.Matches w := by
  cases h with
  | shared =>
    obtain ⟨rfl, rfl⟩ := hk.same hu hv
    exact h'
  | list hxy =>
    cases h' with
    | shared =>
      obtain ⟨rfl, rfl⟩ := hk.same hv hw
      exact .list hxy
    | list hyz =>
      exact .list (matchesItems_trans hk (hk.item hu) (hk.item hv) (hk.item hw) hxy hyz)
  | number hxy =>
    cases h' with
    | number hyz => exact .number (Double.beq_trans hxy hyz)
  | nil | bool | string | symbol => exact h'
  | builtin | closure | bridge => cases h'; constructor

theorem matchesItems_trans (hk : Together known) {xs ys zs : List Value}
    (hxs : ∀ x ∈ xs, known x) (hys : ∀ y ∈ ys, known y) (hzs : ∀ z ∈ zs, known z)
    (h : List.Forall₂ Matches xs ys) (h' : List.Forall₂ Matches ys zs) :
    List.Forall₂ Matches xs zs := by
  cases h with
  | nil => exact h'
  | cons hxy hrest =>
    cases h' with
    | cons hyz hrest' =>
      rw [List.forall_mem_cons] at hxs hys hzs
      exact .cons (hxy.trans hk hxs.1 hys.1 hzs.1 hyz)
        (matchesItems_trans hk hxs.2 hys.2 hzs.2 hrest hrest')

end

theorem matches_self_iff (v : Value) : v.Matches v ↔ ∀ x, v = .number x → x.isNaN = false := by
  cases v with
  | number x =>
    constructor
    · rintro (_ | _ | h) _ ⟨⟩
      exact Double.beq_self_iff.1 h
    · intro h
      exact .number (Double.beq_self_iff.2 (h x rfl))
  | _ => exact iff_of_true (by constructor) nofun

theorem Matches.typeName_eq {v w : Value} (h : v.Matches w) : v.typeName = w.typeName := by
  cases h <;> rfl

theorem Matches.truthy_eq {v w : Value} (h : v.Matches w) : v.truthy = w.truthy := by
  cases h <;> rfl

theorem Matches.depth_eq (hk : Together known) {v w : Value} (hv : known v) (hw : known w)
    (h : v.Matches w) : v.depth = w.depth := by
  cases h with
  | shared => exact (hk.same hv hw).1
  | _ => rfl

theorem Matches.length_eq (hk : Together known) {a b depth depth' : Nat} {xs ys : List Value}
    (hv : known (.list a depth xs)) (hw : known (.list b depth' ys))
    (h : (Value.list a depth xs).Matches (.list b depth' ys)) : xs.length = ys.length := by
  cases h with
  | shared => rw [(hk.same hv hw).2]
  | list hitems => exact hitems.length_eq

end Value

/-! ## Laws of the comparison -/

/-- **Equality is an equivalence up to `NaN`.** Take the values of a state in which an identity
belongs to one list, such as those alive in a state that a host can bring about. Every value equals
itself, unless it is the number `NaN`; lists that hold `NaN` do, too. Equality is symmetric and
transitive, whatever the lists share. Values that are equal have one type name, one truth value and
one depth, and lists that are equal have one length. -/
theorem equal_equivalence :
    (∀ (σ : Type) held O (w : World σ), Reached held O w → Value.Together (Alive held O w)) ∧
    ∀ known, Value.Together known →
      (∀ a, known a → (a.equal a = true ↔ ∀ x, a = .number x → x.isNaN = false)) ∧
      (∀ a b, known a → known b → a.equal b = true → b.equal a = true) ∧
      (∀ a b c, known a → known b → known c → a.equal b = true → b.equal c = true →
        a.equal c = true) ∧
      (∀ a b, known a → known b → a.equal b = true →
        a.typeName = b.typeName ∧ a.truthy = b.truthy ∧ a.depth = b.depth) ∧
      ∀ a b depth depth' xs ys, known (.list a depth xs) → known (.list b depth' ys) →
        (Value.list a depth xs).equal (.list b depth' ys) = true → xs.length = ys.length := by
  refine ⟨fun σ held O w h => h.together, fun known hk => ?_⟩
  have hequal {a b : Value} (ha : known a) (hb : known b) : a.equal b = true ↔ a.Matches b :=
    Value.equal_iff_matches hk ha hb
  refine ⟨fun a ha => ?_, fun a b ha hb h => ?_, fun a b c ha hb hc h h' => ?_,
    fun a b ha hb h => ?_, fun a b depth depth' xs ys ha hb h => ?_⟩
  · rw [hequal ha ha]
    exact Value.matches_self_iff a
  · rw [hequal ha hb] at h
    rw [hequal hb ha]
    exact h.symm
  · rw [hequal ha hb] at h
    rw [hequal hb hc] at h'
    rw [hequal ha hc]
    exact h.trans hk ha hb hc h'
  · rw [hequal ha hb] at h
    exact ⟨h.typeName_eq, h.truthy_eq, h.depth_eq hk ha hb⟩
  · exact ((hequal ha hb).1 h).length_eq hk ha hb

/-- A host makes three lists that share a list with `NaN` in it and hold one of the two zeros each.
The first equals the second, and the second the third. -/
theorem equal_equivalence_shared :
    let n := Value.list 0 1 [.number (0 / 0)]
    let a := Value.list 1 2 [n, .number 0]
    let b := Value.list 2 2 [n, .number (-0)]
    let c := Value.list 3 2 [n, .number 0]
    ∃ O, ∃ w : World Unit, Reached (fun _ _ => False) O w ∧ (O a ∧ O b ∧ O c) ∧
      a.equal b = true ∧ b.equal c = true ∧
      b.equal a = true ∧ a.equal c = true ∧ a.equal a = true ∧ a.depth = c.depth := by
  intro n a b c
  have hstart : Reached (fun _ _ => False) (fun _ => False) (World.start ()) :=
    .start fun _ hv => hv.elim
  have hnan : ∀ v ∈ [Value.number (0 / 0)], v.AtHand fun _ => False :=
    List.forall_mem_singleton.2 (.inl trivial)
  have hn := hstart.make (v := n) (.list hnan)
  have hitems {O : Value → Prop} (hO : O n) (x : Float) : ∀ v ∈ [n, .number x], v.AtHand O :=
    List.forall_mem_cons.2 ⟨.inr ⟨n, hO, .refl n⟩, List.forall_mem_singleton.2 (.inl trivial)⟩
  obtain ⟨O, w, hreached, ha, hb, hc⟩ : ∃ O, ∃ w : World Unit,
      Reached (fun _ _ => False) O w ∧ O a ∧ O b ∧ O c :=
    ⟨_, _, ((hn.make (v := a) (.list (hitems (.inr rfl) 0))).make (v := b)
      (.list (hitems (.inl (.inr rfl)) (-0)))).make (v := c)
        (.list (hitems (.inl (.inl (.inr rfl))) 0)),
      .inl (.inl (.inr rfl)), .inl (.inr rfl), .inr rfl⟩
  have halive {v : Value} (hv : O v) : Alive (fun _ _ => False) O w v := .inr ⟨v, .inl hv, .refl v⟩
  have hk := equal_equivalence.1 Unit _ O w hreached
  have hab : a.equal b = true := (Value.equal_iff_matches hk (halive ha) (halive hb)).2
    (.list (.cons (.shared 0) (.cons (.number (by decide)) .nil)))
  have hbc : b.equal c = true := (Value.equal_iff_matches hk (halive hb) (halive hc)).2
    (.list (.cons (.shared 0) (.cons (.number (by decide)) .nil)))
  obtain ⟨hself, hsymm, htrans, hkind, -⟩ := equal_equivalence.2 _ hk
  have hac := htrans a b c (halive ha) (halive hb) (halive hc) hab hbc
  exact ⟨O, w, hreached, ⟨ha, hb, hc⟩, hab, hbc, hsymm a b (halive ha) (halive hb) hab, hac,
    (hself a (halive ha)).2 nofun, (hkind a c (halive ha) (halive hc) hac).2.2⟩

end GuardedLisp
