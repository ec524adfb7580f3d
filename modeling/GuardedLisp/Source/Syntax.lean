import GuardedLisp.Source.Position

/-!
# Tokens and data

A token is what one lexeme stands for, with the position of its first
character. A closed token list ends in a single `finish`, whose position lies
just behind the text.

What a program text denotes is a forest of lists over numbers, strings and
symbols. The same trees serve as code and as data.
-/

namespace GuardedLisp.Source

/-! ## Tokens -/

inductive TokenKind where
  | opening
  | closing
  | symbol (name : String)
  | number (value : Float)
  | string (value : String)
  | finish
  deriving DecidableEq

structure Token where
  kind : TokenKind
  position : Position
  deriving DecidableEq

/-- The only fault a text can have as a sequence of lexemes. -/
structure LexError where
  /-- Where the string starts that is never closed. -/
  position : Position
  deriving DecidableEq, Repr

/-- What is said of a string that is never closed. -/
def unterminatedString : String := "Unterminated string literal"

def LexError.message (e : LexError) : String :=
  s!"line {e.position.line}, column {e.position.column}: {unterminatedString}"

/-! ## Data -/

/-- The deepest nesting a list may have, in a text and while a program runs. -/
def maxNesting : Nat := 512

inductive Datum where
  | number (value : Float)
  | string (value : String)
  | symbol (name : String)
  | list (items : List Datum)

namespace Datum

mutual

/-- The number of lists around the innermost item, `()` counting as one. -/
def nesting : Datum → Nat
  | list items => 1 + nestingOfItems items
  | _ => 0

/-- The deepest nesting among some items. -/
def nestingOfItems : List Datum → Nat
  | [] => 0
  | d :: ds => max d.nesting (nestingOfItems ds)

end

end Datum

end GuardedLisp.Source
