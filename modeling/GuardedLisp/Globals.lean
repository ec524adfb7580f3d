import GuardedLisp.Value.Basic

/-!
# The global bindings

A fresh global frame binds every built-in procedure to its name, and `nil`,
`true` and `false` to themselves. Each table holds procedures of its own: a
procedure of one table is never equal to one of another.
-/

namespace GuardedLisp

namespace Globals

/-- Gives every name a procedure with an identity of its own. -/
def named {α : Type} (name : α → String) (procedure : Nat → α → Value) :
    List α → AllocM (List (String × Value))
  | [] => return []
  | a :: as => do
    let addr ← fresh
    return (name a, procedure addr a) :: (← named name procedure as)

def constants : List (String × Value) :=
  [("nil", .nil), ("true", .bool true), ("false", .bool false)]

/-- A fresh table. -/
def table : AllocM (List (String × Value)) := do
  let primitives ← named Primitive.name .builtin Primitive.all
  let calls ← named BridgeCall.name .bridge BridgeCall.all
  return primitives ++ calls ++ constants

end Globals

end GuardedLisp
