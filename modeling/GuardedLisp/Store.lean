import GuardedLisp.Value.Basic
import Std.Data.TreeMap

/-!
# Scopes

The store is a forest of frames, numbered in order of creation. A frame binds
names to values and may have a parent, which is an older frame, so the walk
from a frame to its root always ends. A name means the binding of the nearest
frame on that walk that has one.
-/

namespace GuardedLisp

structure Frame where
  parent : Option Nat
  bindings : Std.TreeMap String Value

namespace Frame

/-- Later bindings of a name replace earlier ones. -/
def ofBindings (parent : Option Nat) (bindings : List (String × Value)) : Frame :=
  ⟨parent, Std.TreeMap.ofList bindings⟩

def define (f : Frame) (name : String) (v : Value) : Frame :=
  { f with bindings := f.bindings.insert name v }

def clear (f : Frame) : Frame := { f with bindings := ∅ }

end Frame

structure Store where
  frames : Array Frame

namespace Store

def empty : Store := ⟨#[]⟩

/-- The number that the next frame gets. -/
def nextFrame (s : Store) : Nat := s.frames.size

def add (s : Store) (f : Frame) : Store := ⟨s.frames.push f⟩

/-- A new frame without a parent. -/
def addRoot (s : Store) (bindings : List (String × Value)) : Store :=
  s.add (.ofBindings none bindings)

/-- A new frame inside `parent`. -/
def extend (s : Store) (parent : Nat) (bindings : List (String × Value)) : Store :=
  s.add (.ofBindings (some parent) bindings)

/-- The nearest frame that binds the name, seen from `f`. -/
def binder? (s : Store) (f : Nat) (name : String) : Option Nat :=
  match s.frames[f]? with
  | none => none
  | some frame =>
    if frame.bindings.contains name then some f
    else
      match frame.parent with
      | none => none
      | some parent => if parent < f then s.binder? parent name else none
termination_by f

/-- The binding of the name in this frame alone. -/
def own? (s : Store) (f : Nat) (name : String) : Option Value :=
  s.frames[f]?.bind (·.bindings[name]?)

/-- The binder binds the name. -/
theorem own?_of_binder? {s : Store} {f b : Nat} {name : String}
    (h : s.binder? f name = some b) : (s.own? b name).isSome := by
  fun_induction binder? s f name with
  | case1 => simp at h
  | case2 f frame hf hb =>
    simp only [Option.some.injEq] at h
    subst h
    simp [own?, hf, Std.TreeMap.isSome_getElem?_eq_contains, hb]
  | case3 => simp at h
  | case4 f frame _ _ parent _ hlt ih => exact ih h
  | case5 => simp at h

/-- What the name means, seen from `f`. -/
def get? (s : Store) (f : Nat) (name : String) : Option Value :=
  (s.binder? f name).bind fun b => s.own? b name

def contains (s : Store) (f : Nat) (name : String) : Bool := (s.binder? f name).isSome

/-- Binds the name in this frame, whatever its ancestors hold. -/
def define (s : Store) (f : Nat) (name : String) (v : Value) : Store :=
  ⟨s.frames.modify f (·.define name v)⟩

/-- Overwrites the nearest binding of the name; without one nothing changes. -/
def set (s : Store) (f : Nat) (name : String) (v : Value) : Store :=
  match s.binder? f name with
  | some b => s.define b name v
  | none => s

/-- Forgets the bindings of this frame. -/
def clear (s : Store) (f : Nat) : Store := ⟨s.frames.modify f Frame.clear⟩

/-- The names that this frame binds, in ascending order. -/
def names (s : Store) (f : Nat) : List String :=
  match s.frames[f]? with
  | none => []
  | some frame => frame.bindings.keys

end Store

end GuardedLisp
