import GuardedLisp.Proofs.Scopes.Operations
import GuardedLisp.Eval.Machine

/-!
# Read over write

A frame and its ancestors make a chain (`Store.Chain`), which depends on the links
alone. The walk to the binder of a name is a search of this chain for the first
frame that binds the name (`binder?_of_chain`), so every law about a read after a
write is one about a search: a write changes what single frames of the chain bind,
and the search finds the same frame, or another one, as before
(`scopes_read_over_write`).
-/

namespace GuardedLisp

variable {σ : Type}

/-- How the search for a name ends. -/
def found (name : String) : Option Value → Except EvalError Value
  | some v => .ok v
  | none => .error (.undefinedVariable name)

theorem World.lookup_eq_found (w : World σ) (f : Nat) (name : String) :
    w.lookup f name = found name (w.store.get? f name) := rfl

namespace Store

variable {s k : Store} {f g b : Nat} {fs : List Nat} {name : String}

/-! ## Chains -/

/-- The frame and its ancestors, nearest first. -/
inductive Chain (s : Store) : Nat → List Nat → Prop where
  | root {f : Nat} (hf : f < s.nextFrame) (h : s.link? f = none) : Chain s f [f]
  | child {f p : Nat} {fs : List Nat} (hp : s.link? f = some p) (h : Chain s p fs) :
    Chain s f (f :: fs)

/-- The first of the frame and its ancestors that binds the name. -/
def Nearest (s : Store) (g : Nat) (name : String) (b : Nat) : Prop :=
  ∃ fs, s.Chain g fs ∧ fs.find? (s.binds · name) = some b

theorem Chain.unique {fs' : List Nat} (h : s.Chain f fs) (h' : s.Chain f fs') : fs' = fs := by
  induction h generalizing fs' with
  | root _ hroot =>
    cases h' with
    | root => rfl
    | child hp _ => rw [hroot] at hp; cases hp
  | child hp _ ih =>
    cases h' with
    | root _ hroot => rw [hroot] at hp; cases hp
    | child hp' h' => cases Option.some.inj (hp.symm.trans hp'); rw [ih h']

theorem Chain.eq_cons (h : s.Chain f fs) : ∃ rest, fs = f :: rest := by cases h <;> exact ⟨_, rfl⟩

theorem Chain.congr (hsize : s.nextFrame ≤ k.nextFrame)
    (hlink : ∀ f < s.nextFrame, k.link? f = s.link? f) (h : s.Chain f fs) : k.Chain f fs := by
  induction h with
  | root hf hroot => exact .root (Nat.lt_of_lt_of_le hf hsize) ((hlink _ hf).trans hroot)
  | @child f p fs hp _ ih =>
    have hf : f < s.nextFrame := by
      by_contra hf
      rw [link?, frame_eq_none (Nat.le_of_not_lt hf)] at hp
      cases hp
    exact .child ((hlink _ hf).trans hp) ih

/-- Walks end: every frame has a chain. -/
theorem Older.exists_chain (hs : s.Older) (hf : f < s.nextFrame) : ∃ fs, s.Chain f fs := by
  induction f using Nat.strongRecOn with
  | ind f ih =>
    cases hlink : s.link? f with
    | none => exact ⟨[f], .root hf hlink⟩
    | some p =>
      have hlt := hs f p hlink
      obtain ⟨fs, h⟩ := ih p hlt (Nat.lt_trans hlt hf)
      exact ⟨f :: fs, .child hlink h⟩

theorem Older.mem_le (hs : s.Older) (h : s.Chain f fs) {a : Nat} (ha : a ∈ fs) : a ≤ f := by
  induction h with
  | root => exact Nat.le_of_eq (List.mem_singleton.1 ha)
  | @child f p fs hp _ ih =>
    rcases List.mem_cons.1 ha with rfl | ha
    · exact Nat.le_refl _
    · exact Nat.le_trans (ih ha) (Nat.le_of_lt (hs f p hp))

/-- A frame is no ancestor of itself. -/
theorem Older.not_mem (hs : s.Older) (h : s.Chain f (f :: fs)) : f ∉ fs := by
  intro hmem
  cases h with
  | root => cases hmem
  | child hp h => exact absurd (hs.mem_le h hmem) (Nat.not_le_of_lt (hs _ _ hp))

/-- From a frame of the chain on, the chain is that of this frame. -/
theorem Chain.ofAppend {before after : List Nat} (h : s.Chain g (before ++ f :: after)) :
    s.Chain f (f :: after) := by
  induction before generalizing g with
  | nil =>
    obtain ⟨rest, hrest⟩ := h.eq_cons
    cases hrest
    exact h
  | cons a before ih =>
    generalize hfs : a :: before ++ f :: after = fs at h
    cases h with
    | root => simp at hfs
    | child _ h => cases hfs; exact ih h

/-! ## Searches -/

/-- The walk to the binder is a search of the chain. -/
theorem binder?_of_chain (hs : s.Older) (h : s.Chain f fs) (name : String) :
    s.binder? f name = fs.find? (s.binds · name) := by
  induction h with
  | @root f hf hroot =>
    have hx : s.frames[f]? = some s.frames[f] := Array.getElem?_eq_getElem hf
    have hparent : (s.frames[f]).parent = none := by rwa [link?, hx] at hroot
    rw [binder?.eq_def]
    simp only [hx, contains_bindings hx, hparent]
    cases hbinds : s.binds f name <;> simp [hbinds]
  | @child f p fs hp h ih =>
    obtain ⟨x, hx, hparent⟩ := Option.bind_eq_some_iff.1 hp
    rw [binder?.eq_def]
    simp only [hx, contains_bindings hx, hparent, hs f p hp, if_true, ih]
    cases hbinds : s.binds f name <;> simp [hbinds]

theorem Nearest.binder? (hs : s.Older) (h : s.Nearest g name b) : s.binder? g name = some b := by
  obtain ⟨fs, hchain, hfirst⟩ := h
  rw [binder?_of_chain hs hchain, hfirst]

theorem findSome?_congr {p q : Nat → Option Value} (h : ∀ a ∈ fs, p a = q a) :
    fs.findSome? p = fs.findSome? q := by
  induction fs with
  | nil => rfl
  | cons a fs ih =>
    rw [List.findSome?_cons, List.findSome?_cons, h a List.mem_cons_self,
      ih fun b hb => h b (List.mem_cons_of_mem _ hb)]

/-- What the first frame binds that binds the name is the first binding. -/
theorem find?_bind_own? (s : Store) (fs : List Nat) (name : String) :
    ((fs.find? (s.binds · name)).bind fun b => s.own? b name) = fs.findSome? (s.own? · name) := by
  induction fs with
  | nil => rfl
  | cons f fs ih =>
    rw [List.find?_cons, List.findSome?_cons]
    cases hv : s.own? f name with
    | none =>
      have hfree : s.binds f name = false := by rw [binds, hv]; rfl
      rw [hfree]
      exact ih
    | some v =>
      have hbound : s.binds f name = true := by rw [binds, hv]; rfl
      rw [hbound]
      exact hv

theorem get?_of_chain (hs : s.Older) (h : s.Chain f fs) (name : String) :
    s.get? f name = fs.findSome? (s.own? · name) := by
  rw [get?, binder?_of_chain hs h, find?_bind_own?]

theorem contains_of_chain (hs : s.Older) (h : s.Chain f fs) (name : String) :
    s.contains f name = fs.any (s.binds · name) := by
  rw [contains, binder?_of_chain hs h, List.isSome_find?]

/-- Two searches that differ in one frame, which neither of them stops at, end alike. -/
theorem findSome?_of_passed (h : ∀ a ≠ f, k.own? a name = s.own? a name)
    (hs : fs.find? (s.binds · name) ≠ some f) (hk : fs.find? (k.binds · name) ≠ some f) :
    fs.findSome? (k.own? · name) = fs.findSome? (s.own? · name) := by
  induction fs with
  | nil => rfl
  | cons a fs ih =>
    rw [List.find?_cons] at hs hk
    rw [List.findSome?_cons, List.findSome?_cons]
    by_cases ha : a = f
    · subst ha
      have hpassed {l : Store} {rest : Option Nat}
          (hl : (match l.binds a name with | true => some a | false => rest) ≠ some a) :
          l.own? a name = none := by
        cases hbinds : l.binds a name with
        | true => simp [hbinds] at hl
        | false => simpa [binds] using hbinds
      rw [hpassed hs, hpassed hk]
      refine ih ?_ ?_
      · simpa [binds, hpassed hs] using hs
      · simpa [binds, hpassed hk] using hk
    · rw [h a ha]
      cases hv : s.own? a name with
      | some v => rfl
      | none =>
        refine ih ?_ ?_
        · simpa [binds, hv] using hs
        · simpa [binds, h a ha, hv] using hk

/-- A binder that is the nearest one stays it if the other frames bind no more. -/
theorem find?_of_first (hfirst : fs.find? (s.binds · name) = some f)
    (h : ∀ a ≠ f, k.binds a name = s.binds a name) (hf : k.binds f name = true) :
    fs.find? (k.binds · name) = some f := by
  obtain ⟨hbinds, before, after, rfl, hbefore⟩ := List.find?_eq_some_iff_append.1 hfirst
  refine List.find?_eq_some_iff_append.2 ⟨hf, before, after, rfl, fun a ha => ?_⟩
  have hne : a ≠ f := by
    rintro rfl
    have hfree := hbefore a ha
    rw [hbinds] at hfree
    cases hfree
  rw [h a hne]
  exact hbefore a ha

theorem Nearest.get? (hs : s.Older) (h : s.Nearest g name b) :
    s.get? g name = s.own? b name := by
  rw [Store.get?, h.binder? hs]
  rfl

/-! ## Reads after writes -/

theorem SameLinks.chain_iff (h : s.SameLinks k) : k.Chain g fs ↔ s.Chain g fs :=
  ⟨.congr (Nat.le_of_eq h.size) fun f _ => (h.link f).symm,
    .congr (Nat.le_of_eq h.size.symm) fun f _ => h.link f⟩

/-- A read that finds the changed frame neither before nor after the change is as before. -/
theorem SameLinks.get?_of_passed (h : s.SameLinks k) (hs : s.Older) (hg : g < s.nextFrame)
    (hsame : ∀ a ≠ f, k.own? a name = s.own? a name) (hpassed : ¬ s.Nearest g name f)
    (hpassed' : ¬ k.Nearest g name f) : k.get? g name = s.get? g name := by
  obtain ⟨fs, hchain⟩ := hs.exists_chain hg
  have hchain' : k.Chain g fs := h.chain_iff.2 hchain
  rw [get?_of_chain hs hchain, get?_of_chain (h.older hs) hchain']
  exact findSome?_of_passed hsame (fun hfirst => hpassed ⟨fs, hchain, hfirst⟩)
    fun hfirst => hpassed' ⟨fs, hchain', hfirst⟩

/-- A read of a name that no frame binds otherwise is as before. -/
theorem SameLinks.get?_of_same (h : s.SameLinks k) (hs : s.Older) (hg : g < s.nextFrame)
    (hsame : ∀ a, k.own? a name = s.own? a name) : k.get? g name = s.get? g name := by
  obtain ⟨fs, hchain⟩ := hs.exists_chain hg
  rw [get?_of_chain hs hchain, get?_of_chain (h.older hs) (h.chain_iff.2 hchain),
    funext hsame]

section define

variable (hs : s.Older) (hf : f < s.nextFrame) (v : Value)

include hs hf

theorem get?_define_of_nearest (h : (s.define f name v).Nearest g name f) :
    (s.define f name v).get? g name = some v := by
  rw [h.get? ((SameLinks.define s f name v).older hs), own?_define s hf, if_pos ⟨rfl, rfl⟩]

theorem get?_define_of_not_nearest (hg : g < s.nextFrame) {other : String}
    (h : ¬ (other = name ∧ (s.define f name v).Nearest g name f)) :
    (s.define f name v).get? g other = s.get? g other := by
  have hlinks := SameLinks.define s f name v
  by_cases hname : other = name
  · subst hname
    have hpassed' : ¬ (s.define f other v).Nearest g other f := fun hk => h ⟨rfl, hk⟩
    refine hlinks.get?_of_passed hs hg (fun a ha => ?_) (fun hfirst => hpassed' ?_) hpassed'
    · rw [own?_define s hf, if_neg fun hcell => ha hcell.1]
    · obtain ⟨fs, hchain, hfirst⟩ := hfirst
      refine ⟨fs, hlinks.chain_iff.2 hchain, find?_of_first hfirst (fun a ha => ?_) ?_⟩
      · simp [binds_define s hf, ha]
      · simp [binds_define s hf]
  · refine hlinks.get?_of_same hs hg fun a => ?_
    rw [own?_define s hf, if_neg fun hcell => hname hcell.2]

end define

section set

variable (hs : s.Older) (hb : s.binder? f name = some b) (v : Value)

include hs hb

theorem get?_set_of_nearest (h : s.Nearest g name b) :
    (s.set f name v).get? g name = some v := by
  obtain ⟨fs, hchain, hfirst⟩ := h
  have hlinks := SameLinks.set s f name v
  have hnearest : (s.set f name v).Nearest g name b := by
    refine ⟨fs, hlinks.chain_iff.2 hchain, ?_⟩
    simpa only [binds_set] using hfirst
  rw [hnearest.get? (hlinks.older hs), own?_set hb, if_pos ⟨rfl, rfl⟩]

theorem get?_set_of_not_nearest (hg : g < s.nextFrame) {other : String}
    (h : ¬ (other = name ∧ s.Nearest g name b)) :
    (s.set f name v).get? g other = s.get? g other := by
  have hlinks := SameLinks.set s f name v
  by_cases hname : other = name
  · subst hname
    have hpassed : ¬ s.Nearest g other b := fun hfirst => h ⟨rfl, hfirst⟩
    refine hlinks.get?_of_passed hs hg (fun a ha => ?_) hpassed fun hfirst => hpassed ?_
    · rw [own?_set hb, if_neg fun hcell => ha hcell.1]
    · obtain ⟨fs, hchain, hfirst⟩ := hfirst
      refine ⟨fs, hlinks.chain_iff.1 hchain, ?_⟩
      simpa only [binds_set] using hfirst
  · refine hlinks.get?_of_same hs hg fun a => ?_
    rw [own?_set hb, if_neg fun hcell => hname hcell.2]

end set

section clear

variable (hs : s.Older)

include hs

theorem get?_clear_of_nearest (hf : s.Chain f (f :: fs)) (h : s.Nearest g name f) :
    (s.clear f).get? g name = fs.findSome? (s.own? · name) := by
  obtain ⟨all, hchain, hfirst⟩ := h
  obtain ⟨-, before, after, rfl, hbefore⟩ := List.find?_eq_some_iff_append.1 hfirst
  obtain rfl : after = fs := by cases hf.unique hchain.ofAppend; rfl
  have hlinks := SameLinks.clear s f
  have hfree : before.findSome? ((s.clear f).own? · name) = none := by
    refine List.findSome?_eq_none_iff.2 fun a ha => ?_
    have ha : s.own? a name = none := by simpa [binds] using hbefore a ha
    rw [own?_clear, ha, ite_self]
  have hafter : after.findSome? ((s.clear f).own? · name) = after.findSome? (s.own? · name) := by
    refine findSome?_congr fun a ha => ?_
    rw [own?_clear, if_neg (ne_of_mem_of_not_mem ha (hs.not_mem hf))]
  rw [get?_of_chain (hlinks.older hs) (hlinks.chain_iff.2 hchain), List.findSome?_append, hfree,
    Option.none_or, List.findSome?_cons, own?_clear, if_pos rfl]
  exact hafter

theorem get?_clear_of_not_nearest (hg : g < s.nextFrame) (h : ¬ s.Nearest g name f) :
    (s.clear f).get? g name = s.get? g name := by
  refine (SameLinks.clear s f).get?_of_passed hs hg (fun a ha => ?_) h ?_
  · rw [own?_clear, if_neg ha]
  · rintro ⟨fs, -, hfirst⟩
    have hbinds := List.find?_some hfirst
    simp [binds_clear] at hbinds

end clear

section extend

variable (hs : s.Older) {parent : Nat} (hparent : parent < s.nextFrame)
  (bindings : List (String × Value))

include hs hparent

theorem get?_extend_old (hg : g < s.nextFrame) (name : String) :
    (s.extend parent bindings).get? g name = s.get? g name := by
  obtain ⟨fs, hchain⟩ := hs.exists_chain hg
  have hchain' : (s.extend parent bindings).Chain g fs := by
    refine hchain.congr (by simp) fun f hf => ?_
    rw [extend, link?_add, if_neg (Nat.ne_of_lt hf)]
  rw [get?_of_chain hs hchain, get?_of_chain (hs.extend hparent bindings) hchain']
  refine findSome?_congr fun a ha => ?_
  have hne : a ≠ s.nextFrame := Nat.ne_of_lt (Nat.lt_of_le_of_lt (hs.mem_le hchain ha) hg)
  rw [own?_extend, if_neg hne]

theorem get?_extend_new (name : String) :
    (s.extend parent bindings).get? s.nextFrame name =
      (lastBinding? name bindings).or (s.get? parent name) := by
  have hold := get?_extend_old hs hparent bindings hparent name
  have hs' := hs.extend hparent bindings
  obtain ⟨fs, hchain⟩ := hs'.exists_chain (f := parent) (by simp; omega)
  have hlink : (s.extend parent bindings).link? s.nextFrame = some parent := by
    rw [extend, link?_add, if_pos rfl]
    rfl
  rw [get?_of_chain hs' (.child hlink hchain), List.findSome?_cons, own?_extend, if_pos rfl,
    ← hold, get?_of_chain hs' hchain]
  cases lastBinding? name bindings <;> rfl

end extend

end Store

/-! ## The laws -/

namespace World

section laws

variable {w : World σ} (hw : w.store.Built) {f g b : Nat} {name : String}

include hw

theorem lookup_of_chain {fs : List Nat} (h : w.store.Chain g fs) (name : String) :
    w.lookup g name = found name (fs.findSome? (w.store.own? · name)) := by
  rw [lookup_eq_found, Store.get?_of_chain hw.older h]

theorem lookup_extend_new {parent : Nat} (hparent : parent < w.store.nextFrame)
    (bindings : List (String × Value)) (name : String) :
    (w.extend parent bindings).2.lookup w.store.nextFrame name =
      (lastBinding? name bindings).elim (w.lookup parent name) .ok := by
  rw [lookup_eq_found]
  change found name ((w.store.extend parent bindings).get? w.store.nextFrame name) = _
  rw [Store.get?_extend_new hw.older hparent]
  cases lastBinding? name bindings <;> rfl

theorem assign_of_free {fs : List Nat} (hchain : w.store.Chain f fs)
    (h : ∀ b ∈ fs, w.store.binds b name = false) (v : Value) :
    w.assign f name v = (.error (.undefinedVariable name), w) := by
  have hfree : w.store.contains f name = false := by
    rw [Store.contains_of_chain hw.older hchain, List.any_eq_false]
    exact fun b hb => by simp [h b hb]
  simp [assign, hfree]

theorem assign_of_nearest (h : w.store.Nearest f name b) (v : Value) :
    w.store.binder? f name = some b ∧ (w.assign f name v).1 = .ok () ∧
      (w.assign f name v).2.store = w.store.set f name v := by
  have hbinder := h.binder? hw.older
  simp [assign, Store.contains, hbinder]

end laws

end World

open Store in
/-- **Reads over writes in a forest of scopes.** A read from a frame ends with what the first of the
frame and its ancestors holds that binds the name, and fails if there is none. A definition is seen
from where its frame is now the nearest binder of the name. An assignment fails exactly if nothing
binds the name; otherwise it changes one cell, and is seen from where the frame of this cell is the
nearest binder. In a new frame the last of equally named bindings wins, and other names mean what
they mean in the parent. Names that a frame answered before it was cleared are answered by its
ancestors or not at all. Every other read ends as before. -/
theorem scopes_read_over_write (w : World σ) (hw : w.store.Built) :
    let s := w.store
    (∀ g < s.nextFrame, ∃ fs, s.Chain g fs ∧ (∀ fs', s.Chain g fs' → fs' = fs) ∧ ∀ y,
      w.lookup g y = found y (fs.findSome? (s.own? · y)) ∧
      s.contains g y = fs.any (s.binds · y)) ∧
    (∀ f < s.nextFrame, ∀ x v, let d := w.define f x v
      ∀ g < s.nextFrame, ∀ y,
        (y = x → d.store.Nearest g x f → d.lookup g y = .ok v) ∧
        (¬ (y = x ∧ d.store.Nearest g x f) → d.lookup g y = w.lookup g y)) ∧
    (∀ f fs, s.Chain f fs → ∀ x v,
      ((∀ b ∈ fs, s.binds b x = false) → w.assign f x v = (.error (.undefinedVariable x), w)) ∧
      ∀ b, s.Nearest f x b → (w.assign f x v).1 = .ok () ∧ let a := (w.assign f x v).2
        (∀ g y, a.store.own? g y = if g = b ∧ y = x then some v else s.own? g y) ∧
        (∀ g, a.store.names g = s.names g ∧ a.store.link? g = s.link? g) ∧
        ∀ g < s.nextFrame, ∀ y,
          (y = x → s.Nearest g x b → a.lookup g y = .ok v) ∧
          (¬ (y = x ∧ s.Nearest g x b) → a.lookup g y = w.lookup g y)) ∧
    (∀ p < s.nextFrame, ∀ bindings, let e := w.extend p bindings
      (∀ y, e.2.lookup e.1 y = (lastBinding? y bindings).elim (w.lookup p y) .ok) ∧
      ∀ g < s.nextFrame, ∀ y, e.2.lookup g y = w.lookup g y) ∧
    ∀ f fs, s.Chain f (f :: fs) → let c : World σ := { w with store := s.clear f }
      ∀ g < s.nextFrame, ∀ y,
        (s.Nearest g y f → c.lookup g y = found y (fs.findSome? (s.own? · y))) ∧
        (¬ s.Nearest g y f → c.lookup g y = w.lookup g y) := by
  have hs := hw.older
  refine ⟨fun g hg => ?reading, fun f hf x v g hg y => ⟨?_, fun h => ?_⟩,
    fun f fs hf x v => ⟨fun hfree => World.assign_of_free hw hf hfree v, fun b hb => ?assignment⟩,
    fun p hp bindings => ⟨World.lookup_extend_new hw hp bindings, fun g hg y => ?_⟩,
    fun f fs hf g hg y => ⟨fun h => ?_, fun h => ?_⟩⟩
  case reading =>
    obtain ⟨fs, hchain⟩ := hs.exists_chain hg
    exact ⟨fs, hchain, fun _ => hchain.unique, fun y =>
      ⟨World.lookup_of_chain hw hchain y, contains_of_chain hs hchain y⟩⟩
  case assignment =>
    obtain ⟨hbinder, hok, hstore⟩ := World.assign_of_nearest hw hb v
    refine ⟨hok, fun g y => ?_, fun g => ?_, fun g hg y => ⟨?_, fun h => ?_⟩⟩
    · rw [hstore, own?_set hbinder]
    · rw [hstore]
      exact ⟨names_set .., link?_set ..⟩
    · rintro rfl h
      rw [World.lookup_eq_found, hstore, get?_set_of_nearest hs hbinder v h]
      rfl
    · rw [World.lookup_eq_found, hstore, get?_set_of_not_nearest hs hbinder v hg h]
      rfl
  · rintro rfl h
    exact congrArg (found y) (get?_define_of_nearest hs hf v h)
  · exact congrArg (found y) (get?_define_of_not_nearest hs hf v hg h)
  · exact congrArg (found y) (get?_extend_old hs hp bindings hg y)
  · exact congrArg (found y) (get?_clear_of_nearest hs hf h)
  · exact congrArg (found y) (get?_clear_of_not_nearest hs hg h)

/-- The outer frame binds `x`; the inner one binds it, too, by a definition, and is then cleared. -/
theorem scopes_read_over_write_cleared :
    let outer := Store.empty.addRoot [("x", .bool true)]
    let s := (outer.extend 0 [("y", .nil), ("y", .string "last")]).define 1 "x" .nil
    let w : World Unit := ⟨s, 0, (), []⟩
    s.Built ∧ w.lookup 1 "x" = .ok .nil ∧
      ({ w with store := s.clear 1 } : World Unit).lookup 1 "x" = .ok (.bool true) := by
  intro outer s w
  have hs : s.Built := .define (.extend (.root .empty _) (by decide) _) 1 "x" .nil
  obtain ⟨hreads, -, -, -, hclear⟩ := scopes_read_over_write w hs
  have hroot : s.Chain 0 [0] := .root (by decide) (by decide)
  have hchain : s.Chain 1 [1, 0] := .child (by decide) hroot
  have hfirst : s.Nearest 1 "x" 1 := ⟨[1, 0], hchain, by decide +kernel⟩
  refine ⟨hs, ?_, ?_⟩
  · obtain ⟨fs, hfs, -, hread⟩ := hreads 1 (by decide)
    obtain rfl := hchain.unique hfs
    rw [(hread "x").1]
    rfl
  · rw [(hclear 1 [0] hchain 1 (by decide) "x").1 hfirst]
    rfl

end GuardedLisp
