import GuardedLisp.Source.Syntax
import GuardedLisp.Source.TokenStream

/-!
# Programs

A program is a sequence of expressions; an expression is an atom, or a list of
expressions in parentheses. Tokens are read with a stack of the lists still
open. Each `(` opens one, each `)` closes the innermost one, and an atom joins
it. Nothing after the first `finish` token is read.

A token sequence fails at the first of these: a `)` with no list open, blamed
on it; a `(` inside `maxNesting` open lists, blamed on it; the end inside a
list, blamed on the innermost `(` still open.
-/

namespace GuardedLisp.Source

inductive ParseFault where
  | unterminatedString
  | unexpectedClosing
  | nestedTooDeeply
  | missingClosing
  deriving DecidableEq, Repr

def ParseFault.message : ParseFault → String
  | unterminatedString => Source.unterminatedString
  | unexpectedClosing => "Unexpected )"
  | nestedTooDeeply => "Expression nested too deeply"
  | missingClosing => "Unexpected end of input, expected )"

structure ParseError where
  fault : ParseFault
  position : Position
  deriving DecidableEq, Repr

def ParseError.message (e : ParseError) : String :=
  s!"Parse error at line {e.position.line}, column {e.position.column}: {e.fault.message}"

/-- A list still open: where its parenthesis stands, and its items so far, newest first. -/
structure OpenList where
  opening : Position
  items : List Datum

/-- The lists still open, innermost first, and the finished expressions, newest first. -/
structure Reading where
  unclosed : List OpenList
  finished : List Datum

namespace Reading

def start : Reading := ⟨[], []⟩

/-- Adds an expression to the innermost open list, or to the program. -/
def push (r : Reading) (d : Datum) : Reading :=
  match r.unclosed with
  | [] => { r with finished := d :: r.finished }
  | l :: outer => { r with unclosed := { l with items := d :: l.items } :: outer }

def openList (r : Reading) (opening : Position) : Except ParseError Reading :=
  if r.unclosed.length < maxNesting then .ok { r with unclosed := ⟨opening, []⟩ :: r.unclosed }
  else .error ⟨.nestedTooDeeply, opening⟩

def closeList (r : Reading) (closing : Position) : Except ParseError Reading :=
  match r.unclosed with
  | [] => .error ⟨.unexpectedClosing, closing⟩
  | l :: outer => .ok (push ⟨outer, r.finished⟩ (.list l.items.reverse))

/-- The program, at the end of the tokens. -/
def finish (r : Reading) : Except ParseError (List Datum) :=
  match r.unclosed with
  | [] => .ok r.finished.reverse
  | l :: _ => .error ⟨.missingClosing, l.opening⟩

def read (r : Reading) : List Token → Except ParseError (List Datum)
  | [] => r.finish
  | t :: ts =>
    match t.kind with
    | .finish => r.finish
    | .opening => (r.openList t.position).bind fun r => r.read ts
    | .closing => (r.closeList t.position).bind fun r => r.read ts
    | .number x => (r.push (.number x)).read ts
    | .string s => (r.push (.string s)).read ts
    | .symbol s => (r.push (.symbol s)).read ts

end Reading

namespace Program

def ofTokens (tokens : List Token) : Except ParseError (List Datum) := Reading.start.read tokens

/-- A string that is never closed is found before anything else. -/
def ofText (text : String) : Except ParseError (List Datum) :=
  match tokenize text with
  | .error e => .error ⟨.unterminatedString, e.position⟩
  | .ok tokens => ofTokens tokens

end Program

end GuardedLisp.Source
