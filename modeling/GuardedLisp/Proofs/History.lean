import GuardedLisp.Interpreter
import Mathlib.Data.List.Induction

/-!
# What a host did to an interpreter

A history lists the steps of a host on an interpreter, oldest first. Three
readings of it say what a bridge procedure may do next: the function last
registered under a name, the module last registered under a name, and whether the
last step on the name granted or took the permission to call it. A fourth says
what a custom procedure does. Evaluations, definitions and
resets have no part in them. The tables of the bridge hold these readings
(`functions_after`, `modules_after`, `isAllowed_after`, `custom_after`).
-/

namespace GuardedLisp

variable {σ α : Type}

/-- A step of a host. -/
inductive Request (σ : Type) where
  | registerFunction (name : String) (f : HostFunction σ)
  | registerModule (name : String) (m : HostModule σ)
  /-- Code for custom procedures, under a number. -/
  | write (code : Nat) (f : CustomFunction σ)
  | allow (name : String)
  | revoke (name : String)
  | reset
  | define (name : String) (v : Value)
  | eval (text : String)
  /-- The evaluations that come next take another time. -/
  | time (clock : Clock)

namespace Request

/-- The function that the step registers under the name. -/
def function? (name : String) : Request σ → Option (HostFunction σ)
  | registerFunction name' f => if name' = name then some f else none
  | _ => none

/-- The module that the step registers under the name. -/
def module? (name : String) : Request σ → Option (HostModule σ)
  | registerModule name' m => if name' = name then some m else none
  | _ => none

/-- The code that the step puts under the number. -/
def code? (code : Nat) : Request σ → Option (CustomFunction σ)
  | write code' f => if code' = code then some f else none
  | _ => none

/-- The permission to call the name that the step grants or takes. -/
def permission? (name : String) : Request σ → Option Bool
  | registerFunction name' _ | allow name' => if name' = name then some true else none
  | revoke name' => if name' = name then some false else none
  | _ => none

end Request

namespace Interpreter

def handle (i : Interpreter σ) : Request σ → Interpreter σ
  | .registerFunction name f => i.registerFunction name f
  | .registerModule name m => i.registerModule name m
  | .write code f => { i with bridge := i.bridge.write code f }
  | .allow name => { i with bridge := i.bridge.allow name }
  | .revoke name => { i with bridge := i.bridge.revoke name }
  | .reset => i.reset
  | .define name v => i.define name v
  | .eval text => (i.eval text).2
  | .time clock => i.setClock clock

def after (i : Interpreter σ) (history : List (Request σ)) : Interpreter σ := history.foldl handle i

end Interpreter

/-- What the last step tells that tells anything. -/
def lastly (tells : Request σ → Option α) (history : List (Request σ)) : Option α :=
  history.reverse.findSome? tells

theorem lastly_concat (tells : Request σ → Option α) (history : List (Request σ)) (r : Request σ) :
    lastly tells (history ++ [r]) = (tells r).or (lastly tells history) := by
  unfold lastly
  rw [List.reverse_append, List.reverse_singleton, List.singleton_append, List.findSome?_cons]
  cases tells r <;> rfl

/-! ## One step -/

namespace Interpreter

theorem functions_handle (i : Interpreter σ) (r : Request σ) (name : String) :
    (i.handle r).bridge.functions[name]? = (r.function? name).or i.bridge.functions[name]? := by
  cases r with
  | registerFunction name' f =>
    simp only [handle, registerFunction, Bridge.registerFunction, Request.function?,
      Std.TreeMap.getElem?_insert, Std.LawfulEqCmp.compare_eq_iff_eq]
    split <;> rfl
  | _ => rfl

theorem modules_handle (i : Interpreter σ) (r : Request σ) (name : String) :
    (i.handle r).bridge.modules[name]? = (r.module? name).or i.bridge.modules[name]? := by
  cases r with
  | registerModule name' m =>
    simp only [handle, registerModule, Bridge.registerModule, Request.module?,
      Std.TreeMap.getElem?_insert, Std.LawfulEqCmp.compare_eq_iff_eq]
    split <;> rfl
  | _ => rfl

theorem custom_handle (i : Interpreter σ) (r : Request σ) (code : Nat) :
    (i.handle r).bridge.custom[code]? = (r.code? code).or i.bridge.custom[code]? := by
  cases r with
  | write code' f =>
    simp only [handle, Bridge.write, Request.code?, Std.TreeMap.getElem?_insert,
      Std.LawfulEqCmp.compare_eq_iff_eq]
    split <;> rfl
  | _ => rfl

theorem isAllowed_handle (i : Interpreter σ) (r : Request σ) (name : String) :
    (i.handle r).bridge.isAllowed name = (r.permission? name).getD (i.bridge.isAllowed name) := by
  cases r with
  | registerFunction name' _ | allow name' =>
    by_cases h : name' = name <;>
      simp [handle, registerFunction, Bridge.registerFunction, Bridge.allow, Bridge.isAllowed,
        Request.permission?, Std.TreeSet.contains_insert, h]
  | revoke name' =>
    by_cases h : name' = name <;>
      simp [handle, Bridge.revoke, Bridge.isAllowed, Request.permission?,
        Std.TreeSet.contains_erase, h]
  | _ => rfl

/-! ## Histories -/

theorem after_concat (i : Interpreter σ) (history : List (Request σ)) (r : Request σ) :
    i.after (history ++ [r]) = (i.after history).handle r := by
  unfold after
  rw [List.foldl_append]
  rfl

variable {i : Interpreter σ} (hi : i.bridge = .empty)

include hi

theorem functions_after (history : List (Request σ)) (name : String) :
    (i.after history).bridge.functions[name]? = lastly (·.function? name) history := by
  induction history using List.reverseRecOn with
  | nil => change i.bridge.functions[name]? = none; rw [hi]; rfl
  | append_singleton history r ih => rw [after_concat, functions_handle, lastly_concat, ih]

theorem modules_after (history : List (Request σ)) (name : String) :
    (i.after history).bridge.modules[name]? = lastly (·.module? name) history := by
  induction history using List.reverseRecOn with
  | nil => change i.bridge.modules[name]? = none; rw [hi]; rfl
  | append_singleton history r ih => rw [after_concat, modules_handle, lastly_concat, ih]

theorem custom_after (history : List (Request σ)) (code : Nat) :
    (i.after history).bridge.custom[code]? = lastly (·.code? code) history := by
  induction history using List.reverseRecOn with
  | nil => change i.bridge.custom[code]? = none; rw [hi]; rfl
  | append_singleton history r ih => rw [after_concat, custom_handle, lastly_concat, ih]

/-- A name can be called if the last step on it did not take the permission. -/
theorem isAllowed_after (history : List (Request σ)) (name : String) :
    (i.after history).bridge.isAllowed name = (lastly (·.permission? name) history).getD false := by
  induction history using List.reverseRecOn with
  | nil => change i.bridge.isAllowed name = false; rw [hi]; rfl
  | append_singleton history r ih =>
    rw [after_concat, isAllowed_handle, lastly_concat, ih]
    cases r.permission? name <;> rfl

end Interpreter

end GuardedLisp
