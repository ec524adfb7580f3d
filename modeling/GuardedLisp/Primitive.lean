/-!
# Names that the language fixes

A list whose first item is one of the `Keyword`s is a special form, whatever
that symbol is bound to. `Primitive` lists the procedures that compute on values
alone, `BridgeCall` those that run code of the host: the two that look a callable
up by its name, and any custom procedure, which the host wrote itself.
-/

namespace GuardedLisp

inductive Keyword where
  | define | lambda | branch | bind | assign | sequence | quote
  deriving DecidableEq, Repr

namespace Keyword

def name : Keyword → String
  | define => "def"
  | lambda => "lambda"
  | branch => "if"
  | bind => "let"
  | assign => "set!"
  | sequence => "begin"
  | quote => "quote"

/-- All reserved words, in the order in which they are listed for users. -/
def all : List Keyword := [define, lambda, branch, bind, assign, sequence, quote]

def ofName? (name : String) : Option Keyword := all.find? fun k => k.name == name

theorem mem_all (k : Keyword) : k ∈ all := by cases k <;> decide

theorem name_of_ofName? {s : String} {k : Keyword} (h : ofName? s = some k) : k.name = s := by
  simpa using List.find?_some h

theorem ofName?_name (k : Keyword) : ofName? k.name = some k := by cases k <;> decide

end Keyword

inductive Primitive where
  | add | subtract | multiply | divide
  | less | greater | equal | atMost | atLeast
  | isNull | isNumber | isString | isList | isProcedure | not
  | car | cdr | cons | list | length
  | and | or
  deriving DecidableEq, Repr

namespace Primitive

def name : Primitive → String
  | add => "+"
  | subtract => "-"
  | multiply => "*"
  | divide => "/"
  | less => "<"
  | greater => ">"
  | equal => "="
  | atMost => "<="
  | atLeast => ">="
  | isNull => "null?"
  | isNumber => "number?"
  | isString => "string?"
  | isList => "list?"
  | isProcedure => "procedure?"
  | not => "not"
  | car => "car"
  | cdr => "cdr"
  | cons => "cons"
  | list => "list"
  | length => "length"
  | and => "and"
  | or => "or"

def all : List Primitive :=
  [add, subtract, multiply, divide, less, greater, equal, atMost, atLeast, isNull, isNumber,
    isString, isList, isProcedure, not, car, cdr, cons, list, length, and, or]

end Primitive

inductive BridgeCall where
  /-- Calls a host function by its name. -/
  | function
  /-- Calls a function of a host module. -/
  | member
  /-- Runs the code that the host wrote under this number; the name is what is shown. -/
  | custom (code : Nat) (name : String)
  deriving DecidableEq, Repr

namespace BridgeCall

def name : BridgeCall → String
  | function => "call-js"
  | member => "call-wasm"
  | custom _ name => name

/-- Those that every interpreter has. -/
def all : List BridgeCall := [function, member]

end BridgeCall

end GuardedLisp
