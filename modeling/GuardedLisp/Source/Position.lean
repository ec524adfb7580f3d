/-!
# Positions in a text

A position is a line and a column, both counted from 1. The character after a
line feed stands in column 1 of the next line; every other character takes one
column, whatever its width or its encoding.
-/

namespace GuardedLisp.Source

structure Position where
  line : Nat
  column : Nat
  deriving DecidableEq, Repr, Inhabited

namespace Position

def start : Position := ⟨1, 1⟩

/-- The position that follows a character standing at `p`. -/
def after (p : Position) (c : Char) : Position :=
  if c = '\n' then ⟨p.line + 1, 1⟩ else ⟨p.line, p.column + 1⟩

/-- The position that follows a text starting at `p`. -/
def advance (p : Position) (text : List Char) : Position := text.foldl after p

/-- Each character of a text starting at `p`, with its own position. -/
def locate (p : Position) : List Char → List (Char × Position)
  | [] => []
  | c :: cs => (c, p) :: locate (p.after c) cs

/-- Earlier in the text: on an earlier line, or on the same line further left. -/
def Before (p q : Position) : Prop := p.line < q.line ∨ p.line = q.line ∧ p.column < q.column

theorem before_after (p : Position) (c : Char) : p.Before (p.after c) := by
  unfold Before after
  split <;> simp

theorem Before.trans {p q r : Position} (hpq : p.Before q) (hqr : q.Before r) : p.Before r := by
  unfold Before at *
  omega

@[simp] theorem advance_nil (p : Position) : p.advance [] = p := rfl

@[simp] theorem advance_cons (p : Position) (c : Char) (cs : List Char) :
    p.advance (c :: cs) = (p.after c).advance cs := rfl

theorem advance_append (p : Position) (s t : List Char) :
    p.advance (s ++ t) = (p.advance s).advance t := by
  simp [advance]

@[simp] theorem length_locate (p : Position) (cs : List Char) :
    (p.locate cs).length = cs.length := by
  induction cs generalizing p with
  | nil => rfl
  | cons c cs ih => simp [locate, ih]

theorem locate_append (p : Position) (s t : List Char) :
    p.locate (s ++ t) = p.locate s ++ (p.advance s).locate t := by
  induction s generalizing p with
  | nil => rfl
  | cons c cs ih => simp [locate, ih]

theorem map_fst_locate (p : Position) (cs : List Char) : (p.locate cs).map Prod.fst = cs := by
  induction cs generalizing p with
  | nil => rfl
  | cons c cs ih => simp [locate, ih]

end Position

end GuardedLisp.Source
