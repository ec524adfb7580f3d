import GuardedLisp.Primitive
import GuardedLisp.Source.Syntax

/-!
# Values

The same trees are code and data. Lists and procedures carry the identity of
their allocation, by which procedures are compared and lists are recognised as
shared. A list also carries its nesting depth, computed once, when it is built:
one more than the deepest of its items, where everything that is no list counts
as zero.
-/

namespace GuardedLisp

/-- An `addr` is the identity of an allocation, `frame` the number of a frame in the store. -/
inductive Value where
  | nil
  | bool (b : Bool)
  | number (x : Float)
  | string (s : String)
  | symbol (name : String)
  | list (addr : Nat) (depth : Nat) (items : List Value)
  | builtin (addr : Nat) (primitive : Primitive)
  | closure (addr : Nat) (params : List String) (body : Value) (frame : Nat)
  | bridge (addr : Nat) (call : BridgeCall)
  deriving Inhabited

/-- A computation that may allocate; the state is the next free identity. -/
abbrev AllocM := StateM Nat

def fresh : AllocM Nat := modifyGet fun next => (next, next + 1)

namespace Value

/-- The nesting depth, read off without looking inside. -/
def depth : Value → Nat
  | list _ depth _ => depth
  | _ => 0

def deepest (items : List Value) : Nat := items.foldl (fun d v => max d v.depth) 0

/-- The depth that a list of these items has. -/
def depthOver (items : List Value) : Nat := 1 + deepest items

/-- A new list. -/
def ofItems (items : List Value) : AllocM Value := do
  return list (← fresh) (depthOver items) items

/-- Everything but `nil` and `false` counts as true. -/
def truthy : Value → Bool
  | nil => false
  | bool b => b
  | _ => true

def typeName : Value → String
  | nil => "nil"
  | bool _ => "boolean"
  | number _ => "number"
  | string _ => "string"
  | symbol _ => "symbol"
  | list .. => "list"
  | builtin .. | closure .. | bridge .. => "procedure"

mutual

/-- A value for a piece of program text; every list in it is a new one. -/
def ofDatum : Source.Datum → AllocM Value
  | .number x => return number x
  | .string s => return string s
  | .symbol name => return symbol name
  | .list items => do ofItems (← ofData items)

def ofData : List Source.Datum → AllocM (List Value)
  | [] => return []
  | d :: ds => do
    let v ← ofDatum d
    return v :: (← ofData ds)

end

end Value

end GuardedLisp
