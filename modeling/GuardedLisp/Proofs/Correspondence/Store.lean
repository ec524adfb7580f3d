import GuardedLisp.Proofs.Correspondence.Basic
import GuardedLisp.Store

/-!
# Scopes that correspond

Frames correspond if their parents do and if they bind the same names to values
that do. Then a name means corresponding values in both stores, and definitions,
assignments and new frames keep the stores in step. They change no frame that
stands for none.
-/

namespace Option

variable {α β : Type} {R : α → β → Prop} {x : Option α} {y : Option β}

theorem Rel.some_left {a : α} (h : Option.Rel R (Option.some a) y) :
    ∃ b, y = Option.some b ∧ R a b := by
  cases h with
  | some h => exact ⟨_, rfl, h⟩

theorem Rel.none_left (h : Option.Rel R Option.none y) : y = Option.none := by
  cases h
  rfl

theorem Rel.isSome_eq (h : Option.Rel R x y) : x.isSome = y.isSome := by cases h <;> rfl

theorem Rel.imp {S : α → β → Prop} (hRS : ∀ {a b}, R a b → S a b) (h : Option.Rel R x y) :
    Option.Rel S x y := by
  cases h with
  | none => exact .none
  | some h => exact .some (hRS h)

end Option

namespace GuardedLisp

open Std (TreeMap)

/-! ## Tables -/

section tables

variable {R : Value → Value → Prop} {t t' : TreeMap String Value}

/-- The same names, bound to related values. -/
def TableKin (R : Value → Value → Prop) (t t' : TreeMap String Value) : Prop :=
  ∀ name : String, Option.Rel R t[name]? t'[name]?

theorem TableKin.contains_eq (h : TableKin R t t') (name : String) :
    t.contains name = t'.contains name := by
  rw [TreeMap.contains_eq_isSome_getElem?, TreeMap.contains_eq_isSome_getElem?,
    (h name).isSome_eq]

theorem TableKin.empty : TableKin R ∅ ∅ := fun _ => by simp

theorem TableKin.insert {v v' : Value} (h : TableKin R t t') (name : String) (hv : R v v') :
    TableKin R (t.insert name v) (t'.insert name v') := by
  intro other
  rw [TreeMap.getElem?_insert, TreeMap.getElem?_insert]
  split
  · exact .some hv
  · exact h other

theorem TableKin.insertMany {bs bs' : List (String × Value)}
    (hbs : List.Forall₂ (BindingKin R) bs bs') (h : TableKin R t t') :
    TableKin R (t.insertMany bs) (t'.insertMany bs') := by
  induction hbs generalizing t t' with
  | nil => exact h
  | @cons b b' _ _ hb _ ih =>
    obtain ⟨name, v⟩ := b
    obtain ⟨name', v'⟩ := b'
    obtain ⟨hname, hv⟩ := hb
    cases hname
    rw [TreeMap.insertMany_cons, TreeMap.insertMany_cons]
    exact ih (h.insert _ hv)

theorem TableKin.ofList {bs bs' : List (String × Value)}
    (hbs : List.Forall₂ (BindingKin R) bs bs') :
    TableKin R (TreeMap.ofList bs) (TreeMap.ofList bs') := by
  rw [TreeMap.ofList_eq_insertMany_empty, TreeMap.ofList_eq_insertMany_empty]
  exact .insertMany hbs .empty

/-- Names come in one order, so the same names make the same list. -/
theorem TableKin.keys_eq (h : TableKin R t t') : t.keys = t'.keys := by
  have hmem (name : String) : name ∈ t.keys ↔ name ∈ t'.keys := by
    rw [TreeMap.mem_keys, TreeMap.mem_keys, TreeMap.mem_iff_contains, TreeMap.mem_iff_contains,
      h.contains_eq]
  have hantisymm (a b : String) (_ : a ∈ t.keys) (_ : b ∈ t'.keys) (hab : compare a b = .lt)
      (hba : compare b a = .lt) : a = b := by
    rw [Std.OrientedCmp.gt_of_lt hab] at hba
    cases hba
  exact List.Perm.eq_of_pairwise hantisymm TreeMap.ordered_keys TreeMap.ordered_keys
    ((List.perm_ext_iff_of_nodup TreeMap.nodup_keys TreeMap.nodup_keys).2 hmem)

end tables

/-! ## Frames -/

/-- Related parents, and the same names, bound to related values. -/
structure Frame.Kin (R : Value → Value → Prop) (F : Nat → Nat → Prop) (x x' : Frame) : Prop where
  parent : Option.Rel F x.parent x'.parent
  bindings : TableKin R x.bindings x'.bindings

namespace Frame.Kin

variable {R : Value → Value → Prop} {F : Nat → Nat → Prop} {x x' : Frame} {v v' : Value}

theorem ofBindings {parent parent' : Option Nat} {bs bs' : List (String × Value)}
    (hp : Option.Rel F parent parent') (hbs : List.Forall₂ (BindingKin R) bs bs') :
    Kin R F (.ofBindings parent bs) (.ofBindings parent' bs') := ⟨hp, .ofList hbs⟩

theorem define (h : Kin R F x x') (name : String) (hv : R v v') :
    Kin R F (x.define name v) (x'.define name v') := ⟨h.parent, h.bindings.insert name hv⟩

theorem clear (h : Kin R F x x') : Kin R F x.clear x'.clear := ⟨h.parent, .empty⟩

theorem imp {S : Value → Value → Prop} {G : Nat → Nat → Prop} (hRS : ∀ {v v'}, R v v' → S v v')
    (hFG : ∀ {f f'}, F f f' → G f f') (h : Kin R F x x') : Kin S G x x' :=
  ⟨h.parent.imp hFG, fun name => (h.bindings name).imp hRS⟩

end Frame.Kin

/-- A frame still to be made does not exist. -/
theorem Store.frame_eq_none {s : Store} {f : Nat} (h : s.nextFrame ≤ f) : s.frames[f]? = none :=
  Array.getElem?_eq_none h

namespace Correspondence

variable {σ σ' : Type}

abbrev Frames (C : Correspondence σ σ') : Frame → Frame → Prop := Frame.Kin C.value C.frame

variable {C : Correspondence σ σ'} {x x' : Frame} {v v' : Value} {name : String}

/-! ## Stores -/

/-- Frames that correspond exist in both or in neither; so do those still to be created. -/
structure Stores (C : Correspondence σ σ') (s s' : Store) : Prop where
  future : ∀ k, C.frame (s.nextFrame + k) (s'.nextFrame + k)
  frames : ∀ {f f'}, C.frame f f' → Option.Rel C.Frames s.frames[f]? s'.frames[f']?

namespace Stores

variable {s s' : Store} {f f' : Nat}

theorem next (h : C.Stores s s') : C.frame s.nextFrame s'.nextFrame := h.future 0

theorem add (h : C.Stores s s') (hx : C.Frames x x') : C.Stores (s.add x) (s'.add x') := by
  refine ⟨fun k => ?_, fun {f f'} hf => ?_⟩
  · have := h.future (1 + k)
    simpa only [Store.nextFrame, Store.add, Array.size_push, Nat.add_assoc] using this
  · have hnew := frame_inj hf h.next
    simp only [Store.nextFrame] at hnew
    simp only [Store.add, Array.getElem?_push, hnew]
    split
    · exact .some hx
    · exact h.frames hf

/-- A change of one frame. -/
theorem modify (h : C.Stores s s') (hf : C.frame f f') {g g' : Frame → Frame}
    (hg : ∀ {x x'}, C.Frames x x' → C.Frames (g x) (g' x')) :
    C.Stores ⟨s.frames.modify f g⟩ ⟨s'.frames.modify f' g'⟩ := by
  refine ⟨fun k => ?_, fun {e e'} he => ?_⟩
  · simpa only [Store.nextFrame, Array.size_modify] using h.future k
  · simp only [Array.getElem?_modify, frame_inj hf he]
    have hx := h.frames he
    split
    · generalize s.frames[e]? = x at hx ⊢
      generalize s'.frames[e']? = x' at hx ⊢
      cases hx with
      | none => exact .none
      | some hx => exact .some (hg hx)
    · exact hx

theorem define (h : C.Stores s s') (hf : C.frame f f') (name : String) (hv : C.value v v') :
    C.Stores (s.define f name v) (s'.define f' name v') := h.modify hf fun hx => hx.define name hv

theorem clear (h : C.Stores s s') (hf : C.frame f f') : C.Stores (s.clear f) (s'.clear f') :=
  h.modify hf Frame.Kin.clear

/-! ## Names -/

/-- The walk to the binder of a name takes the same turns. -/
theorem binder?_alike (h : C.Stores s s') (hf : C.frame f f') (name : String) :
    Option.Rel C.frame (s.binder? f name) (s'.binder? f' name) := by
  have hframe := h.frames hf
  fun_induction Store.binder? s f name generalizing f' with
  | case1 f hnone =>
    rw [hnone] at hframe
    rw [Store.binder?.eq_def s', hframe.none_left]
    exact .none
  | case2 f x hsome hbound =>
    rw [hsome] at hframe
    obtain ⟨x', hsome', hx⟩ := hframe.some_left
    rw [hx.bindings.contains_eq] at hbound
    rw [Store.binder?.eq_def s' f' name]
    simp only [hsome', hbound, if_true]
    exact .some hf
  | case3 f x hsome hfree hroot =>
    rw [hsome] at hframe
    obtain ⟨x', hsome', hx⟩ := hframe.some_left
    have hparent := hx.parent
    rw [hroot] at hparent
    rw [hx.bindings.contains_eq] at hfree
    rw [Store.binder?.eq_def s' f' name]
    simp only [hsome', hfree, hparent.none_left]
    exact .none
  | case4 f x hsome hfree parent hinner hlt ih =>
    rw [hsome] at hframe
    obtain ⟨x', hsome', hx⟩ := hframe.some_left
    have hparent := hx.parent
    rw [hinner] at hparent
    obtain ⟨parent', hinner', hp⟩ := hparent.some_left
    rw [hx.bindings.contains_eq] at hfree
    have hlt' := (C.older hp hf).1 hlt
    rw [Store.binder?.eq_def s' f' name]
    simp only [hsome', hfree, hinner', hlt', if_true]
    exact ih hp (h.frames hp)
  | case5 f x hsome hfree parent hinner hlt =>
    rw [hsome] at hframe
    obtain ⟨x', hsome', hx⟩ := hframe.some_left
    have hparent := hx.parent
    rw [hinner] at hparent
    obtain ⟨parent', hinner', hp⟩ := hparent.some_left
    rw [hx.bindings.contains_eq] at hfree
    have hlt' := mt (C.older hp hf).2 hlt
    rw [Store.binder?.eq_def s' f' name]
    simp only [hsome', hfree, hinner', hlt', if_false]
    exact .none

theorem own?_alike (h : C.Stores s s') (hf : C.frame f f') (name : String) :
    Option.Rel C.value (s.own? f name) (s'.own? f' name) := by
  have hframe := h.frames hf
  unfold Store.own?
  generalize s.frames[f]? = x at hframe ⊢
  generalize s'.frames[f']? = x' at hframe ⊢
  cases hframe with
  | none => exact .none
  | some hx => exact hx.bindings name

theorem get?_alike (h : C.Stores s s') (hf : C.frame f f') (name : String) :
    Option.Rel C.value (s.get? f name) (s'.get? f' name) := by
  have hbinder := h.binder?_alike hf name
  unfold Store.get?
  generalize s.binder? f name = b at hbinder ⊢
  generalize s'.binder? f' name = b' at hbinder ⊢
  cases hbinder with
  | none => exact .none
  | some hb => exact h.own?_alike hb name

theorem contains_eq (h : C.Stores s s') (hf : C.frame f f') (name : String) :
    s.contains f name = s'.contains f' name := (h.binder?_alike hf name).isSome_eq

theorem names_eq (h : C.Stores s s') (hf : C.frame f f') : s.names f = s'.names f' := by
  have hframe := h.frames hf
  unfold Store.names
  generalize s.frames[f]? = x at hframe ⊢
  generalize s'.frames[f']? = x' at hframe ⊢
  cases hframe with
  | none => rfl
  | some hx => exact hx.bindings.keys_eq

theorem set (h : C.Stores s s') (hf : C.frame f f') (name : String) (hv : C.value v v') :
    C.Stores (s.set f name v) (s'.set f' name v') := by
  have hbinder := h.binder?_alike hf name
  unfold Store.set
  generalize s.binder? f name = b at hbinder ⊢
  generalize s'.binder? f' name = b' at hbinder ⊢
  cases hbinder with
  | none => exact h
  | some hb => exact h.define hb name hv

theorem addRoot (h : C.Stores s s') {bs bs' : List (String × Value)}
    (hbs : List.Forall₂ (BindingKin C.value) bs bs') : C.Stores (s.addRoot bs) (s'.addRoot bs') :=
  h.add (.ofBindings .none hbs)

theorem extend (h : C.Stores s s') (hf : C.frame f f') {bs bs' : List (String × Value)}
    (hbs : List.Forall₂ (BindingKin C.value) bs bs') :
    C.Stores (s.extend f bs) (s'.extend f' bs') := h.add (.ofBindings (.some hf) hbs)

end Stores

/-! ## Frames that stand for none -/

variable (C) in
/-- The first store keeps its frames that stand for none in the second one. -/
def Untouched (s k : Store) : Prop :=
  ∀ f, (∀ f', ¬ C.frame f f') → k.frames[f]? = s.frames[f]?

namespace Untouched

variable {s s' k l : Store} {f f' : Nat}

theorem refl (s : Store) : C.Untouched s s := fun _ _ => rfl

theorem trans (h : C.Untouched s k) (h' : C.Untouched k l) : C.Untouched s l :=
  fun f hf => (h' f hf).trans (h f hf)

theorem add (h : C.Stores s s') (x : Frame) : C.Untouched s (s.add x) := by
  intro f hf
  have hne : f ≠ s.frames.size := fun heq => hf s'.nextFrame (by rw [heq]; exact h.next)
  simp only [Store.add, Array.getElem?_push, hne, if_false]

theorem modify (hf : C.frame f f') (g : Frame → Frame) :
    C.Untouched s ⟨s.frames.modify f g⟩ := by
  intro e he
  have hne : f ≠ e := fun heq => he f' (heq ▸ hf)
  simp only [Array.getElem?_modify, hne, if_false]

theorem set (h : C.Stores s s') (hf : C.frame f f') (name : String) (v : Value) :
    C.Untouched s (s.set f name v) := by
  have hbinder := h.binder?_alike hf name
  unfold Store.set
  generalize s.binder? f name = b at hbinder ⊢
  generalize s'.binder? f' name = b' at hbinder
  cases hbinder with
  | none => exact .refl s
  | some hb => exact modify hb _

end Untouched

end Correspondence

end GuardedLisp
