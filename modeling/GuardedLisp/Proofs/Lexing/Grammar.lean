import GuardedLisp.Proofs.Lexing.Reader
import Mathlib.Tactic.Common

/-!
# The lexical grammar

The lexemes of a text, said without a reader. A text is a sequence of pieces,
each a run of blanks and one lexeme behind it; then come blanks and the end, or
blanks and a string that is never closed (`CutsInto`). Runs, numerals and names
are as long as they can be (`Longest`), and a string ends at its first quote
that no backslash escapes (`StringBody`).

Every token stands at the position of its lexeme's first character, which is
found by counting: lines by the line feeds in front of it, columns by the
characters since the last one (`positionAfter`).
-/

namespace GuardedLisp.Source

open Decimal (isDigit)

/-! ## Positions -/

/-- The position of the character that follows `before`. -/
def positionAfter (before : List Char) : Position :=
  ⟨1 + before.count '\n', 1 + (before.reverse.takeWhile (· ≠ '\n')).length⟩

theorem after_positionAfter (before : List Char) (c : Char) :
    (positionAfter before).after c = positionAfter (before ++ [c]) := by
  unfold positionAfter Position.after
  by_cases hc : c = '\n'
  · simp [hc, Nat.add_assoc]
  · simp [hc, Nat.add_comm]

theorem advance_positionAfter (before text : List Char) :
    (positionAfter before).advance text = positionAfter (before ++ text) := by
  induction text generalizing before with
  | nil => simp
  | cons c cs ih => simp [after_positionAfter, ih]

/-! ## Blanks and lexemes -/

/-- `run` has the property `P` in front of `rest`, and no longer start of `text` has it. -/
structure Longest (P : List Char → List Char → Prop) (text run rest : List Char) : Prop where
  split : text = run ++ rest
  holds : P run rest
  maximal : ∀ run' rest', text = run' ++ rest' → P run' rest' → run'.length ≤ run.length

/-- `run` holds only blanks when `rest` follows. A comment takes all that stands before the next
line feed, or before the end. -/
inductive Blanks : List Char → List Char → Prop where
  | nil (rest : List Char) : Blanks [] rest
  | blank {c : Char} {run rest : List Char} (hc : isBlank c = true) (h : Blanks run rest) :
    Blanks (c :: run) rest
  | comment {body run rest : List Char} (hbody : '\n' ∉ body)
    (hend : run ++ rest = [] ∨ (run ++ rest).head? = some '\n') (h : Blanks run rest) :
    Blanks (';' :: body ++ run) rest

/-- What stands between the quotes of a string, and the content it spells. -/
inductive StringBody : List Char → List Char → Prop where
  | nil : StringBody [] []
  | plain {c : Char} {raw content : List Char} (hquote : c ≠ '"') (hescape : c ≠ '\\')
    (h : StringBody raw content) : StringBody (c :: raw) (c :: content)
  | escaped (c : Char) {raw content : List Char} (h : StringBody raw content) :
    StringBody ('\\' :: c :: raw) (unescape c :: content)

/-- No quote closes the string whose opening quote stands in front of `text`. -/
def NeverClosed (text : List Char) : Prop :=
  ∀ raw content rest, StringBody raw content → text ≠ raw ++ '"' :: rest

/-- The parts of a numeral are those of `-?[0-9]+(\.[0-9]*)?`. -/
structure NumeralSpelling.IsProper (n : NumeralSpelling) : Prop where
  whole_ne_nil : n.whole ≠ []
  whole_digits : ∀ c ∈ n.whole, isDigit c = true
  fraction_digits : ∀ c ∈ n.fraction, isDigit c = true
  fraction_eq_nil : n.point = false → n.fraction = []

def IsNumeral (text : List Char) : Prop := ∃ n : NumeralSpelling, n.IsProper ∧ n.text = text

def StartsNumeral (text : List Char) : Prop :=
  ∃ d rest, isDigit d = true ∧ (text = d :: rest ∨ text = '-' :: d :: rest)

def IsName (text : List Char) : Prop := text ≠ [] ∧ ∀ c ∈ text, isDelimiter c = false

/-- A lexeme, the text behind it, and what it stands for. -/
inductive Lexeme : List Char → List Char → TokenKind → Prop where
  | opening (rest : List Char) : Lexeme ['('] rest .opening
  | closing (rest : List Char) : Lexeme [')'] rest .closing
  | string {raw content : List Char} (h : StringBody raw content) (rest : List Char) :
    Lexeme ('"' :: raw ++ ['"']) rest (.string (String.ofList content))
  | numeral {n : NumeralSpelling} {rest : List Char} (hn : n.IsProper)
    (hlongest : Longest (fun run _ => IsNumeral run) (n.text ++ rest) n.text rest) :
    Lexeme n.text rest (.number n.value)
  | name {name rest : List Char} (hstart : ¬ StartsNumeral (name ++ rest))
    (hlongest : Longest (fun run _ => IsName run) (name ++ rest) name rest) :
    Lexeme name rest (.symbol (String.ofList name))

/-! ## Pieces of a text -/

/-- A lexeme with the blanks in front of it. -/
structure Piece where
  blanks : List Char
  lexeme : List Char
  kind : TokenKind

def Piece.text (p : Piece) : List Char := p.blanks ++ p.lexeme

structure Cut where
  pieces : List Piece
  /-- The blanks behind the last lexeme. -/
  blanks : List Char
  /-- The string that is never closed, with its quote; empty if there is none. -/
  unclosed : List Char

namespace Cut

def before (c : Cut) : List Char := c.pieces.flatMap Piece.text ++ c.blanks

def text (c : Cut) : List Char := c.before ++ c.unclosed

end Cut

inductive CutsInto : List Char → Cut → Prop where
  | finish {text blanks : List Char} (h : Longest Blanks text blanks []) :
    CutsInto text ⟨[], blanks, []⟩
  | unclosed {text blanks body : List Char} (h : Longest Blanks text blanks ('"' :: body))
    (hbody : NeverClosed body) : CutsInto text ⟨[], blanks, '"' :: body⟩
  | piece {text blanks lexeme rest : List Char} {kind : TokenKind} {cut : Cut}
    (h : Longest Blanks text blanks (lexeme ++ rest)) (hlexeme : Lexeme lexeme rest kind)
    (hrest : CutsInto rest cut) :
    CutsInto text ⟨⟨blanks, lexeme, kind⟩ :: cut.pieces, cut.blanks, cut.unclosed⟩

/-- The tokens of some pieces that stand behind `before`. -/
def tokensAfter (before : List Char) : List Piece → List Token
  | [] => []
  | p :: later =>
    ⟨p.kind, positionAfter (before ++ p.blanks)⟩ :: tokensAfter (before ++ p.text) later

/-- What a text behind `before` is read as: its tokens and the one that says it is finished, or
the place of the quote that no other one closes. -/
def Cut.outcomeAfter (before : List Char) (c : Cut) : Except LexError (List Token) :=
  if c.unclosed = [] then
    .ok (tokensAfter before c.pieces ++ [⟨.finish, positionAfter (before ++ c.text)⟩])
  else .error ⟨positionAfter (before ++ c.before)⟩

end GuardedLisp.Source
