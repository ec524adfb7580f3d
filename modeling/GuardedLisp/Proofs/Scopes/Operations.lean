import GuardedLisp.Proofs.Correspondence.Store

/-!
# The operations on scopes, frame by frame

What a frame is linked to and what it binds, after each operation on a forest of
frames. A forest is what a sequence of operations builds from nothing
(`Store.Built`); its frames are linked to older ones.
-/

theorem Option.Rel.ofIsSome {α β : Type} {x : Option α} {y : Option β}
    (h : x.isSome = y.isSome) : Option.Rel (fun _ _ => True) x y := by
  cases x <;> cases y <;> simp at h <;> constructor
  trivial

namespace GuardedLisp

open Std (TreeMap)

/-- The last of the bindings of a name. -/
def lastBinding? (name : String) (bindings : List (String × Value)) : Option Value :=
  (bindings.reverse.find? (·.1 == name)).map Prod.snd

theorem lastBinding?_cons (name : String) (b : String × Value) (bs : List (String × Value)) :
    lastBinding? name (b :: bs) =
      (lastBinding? name bs).or (if b.1 = name then some b.2 else none) := by
  unfold lastBinding?
  rw [List.reverse_cons, List.find?_append]
  cases bs.reverse.find? (·.1 == name) with
  | some c => rfl
  | none => by_cases h : b.1 = name <;> simp [h]

theorem getElem?_insertMany (t : TreeMap String Value) (bs : List (String × Value))
    (name : String) : (t.insertMany bs)[name]? = (lastBinding? name bs).or t[name]? := by
  induction bs generalizing t with
  | nil => simp [lastBinding?]
  | cons b bs ih =>
    obtain ⟨other, v⟩ := b
    rw [TreeMap.insertMany_cons, ih, lastBinding?_cons, Option.or_assoc, TreeMap.getElem?_insert]
    simp only [Std.LawfulEqCmp.compare_eq_iff_eq]
    congr 1
    split <;> rfl

namespace Frame

/-- Of equal names, the last one counts. -/
theorem ofBindings_bindings (parent : Option Nat) (bs : List (String × Value)) (name : String) :
    (ofBindings parent bs).bindings[name]? = lastBinding? name bs := by
  change (TreeMap.ofList bs)[name]? = _
  rw [TreeMap.ofList_eq_insertMany_empty, getElem?_insertMany, TreeMap.getElem?_emptyc,
    Option.or_none]

theorem define_bindings (x : Frame) (name other : String) (v : Value) :
    (x.define name v).bindings[other]? =
      if other = name then some v else x.bindings[other]? := by
  simp only [define, TreeMap.getElem?_insert, Std.LawfulEqCmp.compare_eq_iff_eq, @eq_comm _ name]

end Frame

namespace Store

variable {s : Store} {f g b : Nat} {name other : String} {v : Value}

/-- The parent of a frame, if the frame exists and has one. -/
def link? (s : Store) (f : Nat) : Option Nat := s.frames[f]?.bind (·.parent)

/-- The frame binds the name itself. -/
def binds (s : Store) (f : Nat) (name : String) : Bool := (s.own? f name).isSome

theorem contains_bindings {x : Frame} (hx : s.frames[f]? = some x) (name : String) :
    x.bindings.contains name = s.binds f name := by
  rw [binds, own?, hx, TreeMap.contains_eq_isSome_getElem?]
  rfl

theorem mem_names_iff : name ∈ s.names f ↔ s.binds f name = true := by
  unfold names
  cases hx : s.frames[f]? with
  | none => simp [binds, own?, hx]
  | some x => rw [← contains_bindings hx, TreeMap.mem_keys, TreeMap.mem_iff_contains]

theorem nodup_names (s : Store) (f : Nat) : (s.names f).Nodup := by
  unfold names
  split
  · exact List.nodup_nil
  · exact TreeMap.nodup_keys

/-! ## New frames -/

theorem own?_add (s : Store) (x : Frame) (f : Nat) (name : String) :
    (s.add x).own? f name = if f = s.nextFrame then x.bindings[name]? else s.own? f name := by
  simp only [own?, add, nextFrame, Array.getElem?_push]
  by_cases hf : f = s.frames.size <;> simp [hf]

theorem link?_add (s : Store) (x : Frame) (f : Nat) :
    (s.add x).link? f = if f = s.nextFrame then x.parent else s.link? f := by
  simp only [link?, add, nextFrame, Array.getElem?_push]
  by_cases hf : f = s.frames.size <;> simp [hf]

theorem own?_addRoot (s : Store) (bs : List (String × Value)) (f : Nat) (name : String) :
    (s.addRoot bs).own? f name =
      if f = s.nextFrame then lastBinding? name bs else s.own? f name := by
  rw [addRoot, own?_add, Frame.ofBindings_bindings]

theorem own?_extend (s : Store) (parent : Nat) (bs : List (String × Value)) (f : Nat)
    (name : String) : (s.extend parent bs).own? f name =
      if f = s.nextFrame then lastBinding? name bs else s.own? f name := by
  rw [extend, own?_add, Frame.ofBindings_bindings]

@[simp] theorem nextFrame_add (s : Store) (x : Frame) :
    (s.add x).nextFrame = s.nextFrame + 1 := Array.size_push _

@[simp] theorem nextFrame_addRoot (s : Store) (bs : List (String × Value)) :
    (s.addRoot bs).nextFrame = s.nextFrame + 1 := nextFrame_add s _

@[simp] theorem nextFrame_extend (s : Store) (parent : Nat) (bs : List (String × Value)) :
    (s.extend parent bs).nextFrame = s.nextFrame + 1 := nextFrame_add s _

/-! ## Writes -/

@[simp] theorem nextFrame_define (s : Store) (f : Nat) (name : String) (v : Value) :
    (s.define f name v).nextFrame = s.nextFrame := Array.size_modify

@[simp] theorem nextFrame_clear (s : Store) (f : Nat) : (s.clear f).nextFrame = s.nextFrame :=
  Array.size_modify

@[simp] theorem nextFrame_set (s : Store) (f : Nat) (name : String) (v : Value) :
    (s.set f name v).nextFrame = s.nextFrame := by
  unfold set
  split
  · exact nextFrame_define ..
  · rfl

theorem link?_modify (s : Store) (f : Nat) (change : Frame → Frame)
    (h : ∀ x, (change x).parent = x.parent) (g : Nat) :
    Store.link? ⟨s.frames.modify f change⟩ g = s.link? g := by
  simp only [link?, Array.getElem?_modify]
  split
  · cases s.frames[g]? with
    | none => rfl
    | some x => exact h x
  · rfl

@[simp] theorem link?_define (s : Store) (f : Nat) (name : String) (v : Value) (g : Nat) :
    (s.define f name v).link? g = s.link? g :=
  link?_modify s f (fun x => x.define name v) (fun _ => rfl) g

@[simp] theorem link?_clear (s : Store) (f g : Nat) : (s.clear f).link? g = s.link? g :=
  link?_modify s f Frame.clear (fun _ => rfl) g

@[simp] theorem link?_set (s : Store) (f : Nat) (name : String) (v : Value) (g : Nat) :
    (s.set f name v).link? g = s.link? g := by
  unfold set
  split
  · exact link?_define ..
  · rfl

theorem own?_define (s : Store) (hf : f < s.nextFrame) (name : String) (v : Value) (g : Nat)
    (other : String) : (s.define f name v).own? g other =
      if g = f ∧ other = name then some v else s.own? g other := by
  simp only [own?, define, Array.getElem?_modify]
  by_cases hfg : f = g
  · subst hfg
    rw [Array.getElem?_eq_getElem hf]
    simp [Frame.define_bindings]
  · simp [hfg, Ne.symm hfg]

/-- There is no frame to define the name in. -/
theorem define_of_le (hf : s.nextFrame ≤ f) : s.define f name v = s := by
  have hout : s.frames.modify f (·.define name v) = s.frames := by
    refine Array.ext_getElem? fun g => ?_
    rw [Array.getElem?_modify]
    split
    · next hfg => subst hfg; rw [frame_eq_none hf]; rfl
    · rfl
  rw [define, hout]

theorem own?_clear (s : Store) (f g : Nat) (name : String) :
    (s.clear f).own? g name = if g = f then none else s.own? g name := by
  simp only [own?, clear, Array.getElem?_modify]
  by_cases hfg : f = g
  · subst hfg
    cases s.frames[f]? <;> simp [Frame.clear]
  · simp [hfg, Ne.symm hfg]

/-- A frame that binds a name exists. -/
theorem lt_nextFrame_of_binds (h : s.binds f name = true) : f < s.nextFrame := by
  by_contra hf
  simp [binds, own?, frame_eq_none (Nat.le_of_not_lt hf)] at h

theorem set_of_binder? (h : s.binder? f name = some b) : s.set f name v = s.define b name v := by
  unfold set
  rw [h]

theorem set_of_unbound (h : s.binder? f name = none) : s.set f name v = s := by
  unfold set
  rw [h]

/-- An assignment overwrites one cell, which is there. -/
theorem own?_set (h : s.binder? f name = some b) (v : Value) (g : Nat) (other : String) :
    (s.set f name v).own? g other = if g = b ∧ other = name then some v else s.own? g other := by
  rw [set_of_binder? h]
  exact own?_define s (lt_nextFrame_of_binds (own?_of_binder? h)) name v g other

/-- An assignment binds no name anew. -/
theorem binds_set (s : Store) (f : Nat) (name : String) (v : Value) (g : Nat) (other : String) :
    (s.set f name v).binds g other = s.binds g other := by
  cases h : s.binder? f name with
  | none => rw [set_of_unbound h]
  | some b =>
    unfold binds
    rw [own?_set h]
    split
    · next hcell => obtain ⟨rfl, rfl⟩ := hcell; simp [own?_of_binder? h]
    · rfl

theorem names_set (s : Store) (f : Nat) (name : String) (v : Value) (g : Nat) :
    (s.set f name v).names g = s.names g := by
  cases h : s.binder? f name with
  | none => rw [set_of_unbound h]
  | some b =>
    have hbinds (other : String) := binds_set s f name v g other
    rw [set_of_binder? h] at hbinds ⊢
    simp only [names, define, Array.getElem?_modify]
    cases hx : s.frames[g]? with
    | none => simp
    | some x =>
      by_cases hbg : b = g
      · subst hbg
        have hx' : (s.define b name v).frames[b]? = some (x.define name v) := by
          simp [define, Array.getElem?_modify, hx]
        have hkin : TableKin (fun _ _ => True) (x.define name v).bindings x.bindings := by
          intro other
          have hcontains := hbinds other
          rw [← contains_bindings hx, ← contains_bindings hx', TreeMap.contains_eq_isSome_getElem?,
            TreeMap.contains_eq_isSome_getElem?] at hcontains
          exact .ofIsSome hcontains
        simpa using hkin.keys_eq
      · simp [hbg]

theorem binds_define (s : Store) (hf : f < s.nextFrame) (name : String) (v : Value) (g : Nat)
    (other : String) : (s.define f name v).binds g other =
      (decide (g = f ∧ other = name) || s.binds g other) := by
  unfold binds
  rw [own?_define s hf]
  split <;> simp [*]

theorem binds_clear (s : Store) (f g : Nat) (name : String) :
    (s.clear f).binds g name = (decide (g ≠ f) && s.binds g name) := by
  unfold binds
  rw [own?_clear]
  split <;> simp [*]

/-! ## Forests -/

/-- What a sequence of operations builds from nothing. -/
inductive Built : Store → Prop where
  | empty : Built .empty
  | root {s : Store} (h : Built s) (bindings : List (String × Value)) : Built (s.addRoot bindings)
  | extend {s : Store} (h : Built s) {parent : Nat} (hparent : parent < s.nextFrame)
    (bindings : List (String × Value)) : Built (s.extend parent bindings)
  | define {s : Store} (h : Built s) (f : Nat) (name : String) (v : Value) :
    Built (s.define f name v)
  | set {s : Store} (h : Built s) (f : Nat) (name : String) (v : Value) : Built (s.set f name v)
  | clear {s : Store} (h : Built s) (f : Nat) : Built (s.clear f)

/-- Every frame is linked to an older one, if to any. -/
def Older (s : Store) : Prop := ∀ f p, s.link? f = some p → p < f

/-- The same frames with the same links. -/
structure SameLinks (s k : Store) : Prop where
  size : k.nextFrame = s.nextFrame
  link : ∀ f, k.link? f = s.link? f

theorem SameLinks.define (s : Store) (f : Nat) (name : String) (v : Value) :
    s.SameLinks (s.define f name v) := ⟨nextFrame_define .., link?_define s f name v⟩

theorem SameLinks.set (s : Store) (f : Nat) (name : String) (v : Value) :
    s.SameLinks (s.set f name v) := ⟨nextFrame_set .., link?_set s f name v⟩

theorem SameLinks.clear (s : Store) (f : Nat) : s.SameLinks (s.clear f) :=
  ⟨nextFrame_clear .., link?_clear s f⟩

theorem SameLinks.older {k : Store} (h : s.SameLinks k) (hs : s.Older) : k.Older := by
  intro f p hp
  rw [h.link] at hp
  exact hs f p hp

theorem Older.empty : Store.empty.Older := by
  intro f p hp
  simp [link?, Store.empty] at hp

theorem Older.addRoot (h : s.Older) (bindings : List (String × Value)) :
    (s.addRoot bindings).Older := by
  intro f p hp
  rw [Store.addRoot, link?_add] at hp
  split at hp
  · cases hp
  · exact h f p hp

theorem Older.extend (h : s.Older) {parent : Nat} (hparent : parent < s.nextFrame)
    (bindings : List (String × Value)) : (s.extend parent bindings).Older := by
  intro f p hp
  rw [Store.extend, link?_add] at hp
  split at hp
  · next hf => cases hp; rwa [hf]
  · exact h f p hp

theorem Built.older (h : s.Built) : s.Older := by
  induction h with
  | empty => exact .empty
  | root _ bindings ih => exact ih.addRoot bindings
  | extend _ hparent bindings ih => exact ih.extend hparent bindings
  | define _ f name v ih => exact (SameLinks.define _ f name v).older ih
  | set _ f name v ih => exact (SameLinks.set _ f name v).older ih
  | clear _ f ih => exact (SameLinks.clear _ f).older ih

end Store

end GuardedLisp
