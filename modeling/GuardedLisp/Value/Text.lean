import GuardedLisp.Decimal.Layout
import GuardedLisp.Text.Quoted
import GuardedLisp.Value.Basic

/-!
# Values as text

`text` is how a value is written for a user and inside messages: numbers in
plain digits, strings quoted, symbols as they are, lists in parentheses with
single spaces. `describe` names the kind of every part too, for diagnosis.
-/

namespace GuardedLisp

open Decimal (Layout)

/-- The text of a closure: its parameters, and nothing of its body. -/
def closureText (params : List String) : String := "#<lambda (" ++ " ".intercalate params ++ ")>"

def builtinText (name : String) : String := "#<builtin " ++ name ++ ">"

namespace Value

mutual

def text : Value → String
  | nil => "nil"
  | bool b => if b then "true" else "false"
  | number x => Layout.plain.text x
  | string s => Text.quoted s
  | symbol name => name
  | list _ _ items => "(" ++ itemsText items ++ ")"
  | builtin _ p => builtinText p.name
  | closure _ params _ _ => closureText params
  | bridge _ call => builtinText call.name

/-- Items separated by single spaces. -/
def itemsText : List Value → String
  | [] => ""
  | [v] => v.text
  | v :: vs => v.text ++ " " ++ itemsText vs

end

end Value

def BridgeCall.kindText : BridgeCall → String
  | function => "Bridge(Js)"
  | member => "Bridge(Wasm)"
  | custom _ name => "Builtin(" ++ name ++ ")"

namespace Value

mutual

def describe : Value → String
  | nil => "Nil"
  | bool b => "Bool(" ++ (if b then "true" else "false") ++ ")"
  | number x => "Number(" ++ Layout.marked.text x ++ ")"
  | string s => "String(" ++ Text.quoted s ++ ")"
  | symbol name => "Symbol(" ++ Text.quoted name ++ ")"
  | list _ _ items => "List(" ++ Text.bracketed (describeAll items) ++ ")"
  | builtin _ p => "Proc(Builtin(" ++ p.name ++ "))"
  | closure _ params body _ =>
    "Proc(Lambda(" ++ Text.bracketed (params.map Text.quoted) ++ ", " ++ body.text ++ "))"
  | bridge _ call => "Proc(" ++ call.kindText ++ ")"

def describeAll : List Value → List String
  | [] => []
  | v :: vs => v.describe :: describeAll vs

end

end Value

end GuardedLisp
