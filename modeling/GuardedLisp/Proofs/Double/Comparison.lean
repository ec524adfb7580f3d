import GuardedLisp.Proofs.Double.Encoding

/-!
# Equality of doubles

`NaN` equals nothing. Any other double equals itself alone, but for the two zeros, which equal
each other (`beq_iff`). So `==` is symmetric and transitive, and reflexive up to `NaN`.
-/

namespace GuardedLisp.Double

open Float.Model UnpackedFloat

variable {x y z : Float}

theorem beq_iff : (x == y) = true ↔ parts x ≠ .notANumber ∧ parts y ≠ .notANumber ∧
    (x = y ∨ ∃ s t, parts x = .zero s ∧ parts y = .zero t) := by
  refine (beq_iff_ne_notANumber_and_eq (parts x) (parts y)).trans ?_
  refine and_congr_right fun _ => and_congr_right fun _ => ?_
  constructor
  · rintro (h | ⟨hx, hy⟩ | ⟨hx, hy⟩)
    · exact .inl (parts_injective h)
    · exact .inr ⟨_, _, hx, hy⟩
    · exact .inr ⟨_, _, hx, hy⟩
  · rintro (rfl | ⟨s, t, hx, hy⟩)
    · exact .inl rfl
    · rw [hx, hy]
      cases s <;> cases t <;> simp

theorem beq_self_iff : (x == x) = true ↔ x.isNaN = false := by
  rw [beq_iff, isNaN_eq_false_iff]
  exact ⟨And.left, fun h => ⟨h, h, .inl rfl⟩⟩

theorem beq_symm (h : (x == y) = true) : (y == x) = true := by
  rw [beq_iff] at h ⊢
  obtain ⟨hx, hy, rfl | ⟨s, t, hs, ht⟩⟩ := h
  · exact ⟨hx, hx, .inl rfl⟩
  · exact ⟨hy, hx, .inr ⟨t, s, ht, hs⟩⟩

theorem beq_trans (h : (x == y) = true) (h' : (y == z) = true) : (x == z) = true := by
  rw [beq_iff] at h h' ⊢
  obtain ⟨hx, -, rfl | ⟨s, t, hs, ht⟩⟩ := h
  · exact h'
  · obtain ⟨-, hz, rfl | ⟨t', u, -, hu⟩⟩ := h'
    · exact ⟨hx, hz, .inr ⟨s, t, hs, ht⟩⟩
    · exact ⟨hx, hz, .inr ⟨s, u, hs, hu⟩⟩

end GuardedLisp.Double
