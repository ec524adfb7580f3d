import GuardedLisp.Proofs.Scopes.Operations
import GuardedLisp.Proofs.Step

/-!
# What events add to scopes

The events of an evaluation never unlink a frame and never unbind a name. A frame
that was there before gets a new name from a definition in it, and from nothing
else (`Store.grown_commits`).
-/

namespace GuardedLisp

namespace Store

/-- The second store came from the first one by these events, which only added to it. -/
structure Grown (s : Store) (es : List Event) (k : Store) : Prop where
  size : s.nextFrame ≤ k.nextFrame
  link : ∀ f < s.nextFrame, k.link? f = s.link? f
  binds : ∀ f name, s.binds f name = true → k.binds f name = true
  defined : ∀ f < s.nextFrame, ∀ name, k.binds f name = true → s.binds f name = false →
    ∃ v, .define f name v ∈ es

variable {s : Store}

theorem Grown.refl (s : Store) : s.Grown [] s :=
  ⟨Nat.le_refl _, fun _ _ => rfl, fun _ _ => id, fun _ _ _ h h' => by simp [h] at h'⟩

theorem Grown.trans {k l : Store} {es es' : List Event} (h : s.Grown es k) (h' : k.Grown es' l) :
    s.Grown (es' ++ es) l := by
  refine ⟨Nat.le_trans h.size h'.size, fun f hf => ?_, fun f name hb => ?_,
    fun f hf name hl hs => ?_⟩
  · rw [h'.link f (Nat.lt_of_lt_of_le hf h.size), h.link f hf]
  · exact h'.binds f name (h.binds f name hb)
  · cases hk : k.binds f name with
    | true =>
      obtain ⟨v, hv⟩ := h.defined f hf name hk hs
      exact ⟨v, List.mem_append_right _ hv⟩
    | false =>
      obtain ⟨v, hv⟩ := h'.defined f (Nat.lt_of_lt_of_le hf h.size) name hl hk
      exact ⟨v, List.mem_append_left _ hv⟩

theorem grown_extend (s : Store) (parent : Nat) (bindings : List (String × Value)) :
    s.Grown [.extend parent bindings] (s.extend parent bindings) := by
  have hold (f : Nat) (hf : f < s.nextFrame) (name : String) :
      (s.extend parent bindings).binds f name = s.binds f name := by
    rw [binds, own?_extend, if_neg (Nat.ne_of_lt hf)]
    rfl
  refine ⟨by simp, fun f hf => ?_, fun f name hb => ?_, fun f hf name hk hs => ?_⟩
  · rw [Store.extend, link?_add, if_neg (Nat.ne_of_lt hf)]
  · rwa [hold f (lt_nextFrame_of_binds hb)]
  · rw [hold f hf, hs] at hk
    cases hk

theorem grown_define (s : Store) (f : Nat) (name : String) (v : Value) :
    s.Grown [.define f name v] (s.define f name v) := by
  refine ⟨by simp, fun g _ => link?_define .., fun g other hb => ?_, fun g hg other hk hs => ?_⟩
  · by_cases hf : f < s.nextFrame
    · simp [binds_define s hf, hb]
    · rwa [define_of_le (Nat.le_of_not_lt hf)]
  · by_cases hf : f < s.nextFrame
    · obtain ⟨rfl, rfl⟩ : g = f ∧ other = name := by simpa [binds_define s hf, hs] using hk
      exact ⟨v, List.mem_singleton_self _⟩
    · rw [define_of_le (Nat.le_of_not_lt hf), hs] at hk
      cases hk

theorem grown_set (s : Store) (f : Nat) (name : String) (v : Value) :
    s.Grown [.assign f name v] (s.set f name v) := by
  refine ⟨by simp, fun g _ => link?_set .., fun g other hb => by rwa [binds_set],
    fun g _ other hk hs => ?_⟩
  rw [binds_set, hs] at hk
  cases hk

theorem grown_commit (e : Event) (s : Store) : s.Grown [e] (e.commit s) := by
  cases e with
  | extend parent bindings => exact grown_extend s parent bindings
  | define f name v => exact grown_define s f name v
  | assign f name v => exact grown_set s f name v
  | _ =>
    exact ⟨Nat.le_refl _, fun _ _ => rfl, fun _ _ => id, fun _ _ _ h h' => by
      simp only [Event.commit, h'] at h; cases h⟩

/-- **Events only add to the scopes.** -/
theorem grown_commits (es : List Event) (s : Store) : s.Grown es (es.foldr Event.commit s) := by
  induction es with
  | nil => exact .refl s
  | cons e es ih => exact ih.trans (grown_commit e _)

end Store

theorem Grows.grown {σ : Type} {w w' : World σ} {es : List Event} (h : Grows w es w') :
    w.store.Grown es w'.store := h.store ▸ Store.grown_commits es w.store

end GuardedLisp
