import GuardedLisp.Source.TokenStream

/-!
# A reader of plain texts

The same tokens without a cursor: what is still to be read is a list of
characters and a position, and a run of characters is taken off its front. The
cursor's scanning finds what this reader finds; the properties of tokens are
proved of the reader.
-/

namespace GuardedLisp.Source

open Decimal (isDigit Numeral)

def isBlank (c : Char) : Bool := c = ' ' || c = '\n' || c = '\r' || c = '\t'

/-- Ends a symbol. -/
def isDelimiter (c : Char) : Bool := isBlank c || c = '(' || c = ')' || c = '"' || c = ';'

/-- A text still to be read, and where its first character stands. -/
structure Remaining where
  position : Position
  chars : List Char
  deriving DecidableEq, Repr

namespace Remaining

def ofText (text : String) : Remaining := ⟨.start, text.toList⟩

/-- Passes over `text`, which leaves `rest`. -/
def past (r : Remaining) (text rest : List Char) : Remaining :=
  ⟨r.position.advance text, rest⟩

/-- Passes over the blanks in front; `comment` says whether a comment is open. -/
def skipBlanksFrom (comment : Bool) (position : Position) : List Char → Remaining
  | [] => ⟨position, []⟩
  | c :: cs =>
    if comment then skipBlanksFrom (c != '\n') (position.after c) cs
    else if isBlank c then skipBlanksFrom false (position.after c) cs
    else if c = ';' then skipBlanksFrom true (position.after c) cs
    else ⟨position, c :: cs⟩

def skipBlanks (r : Remaining) : Remaining := skipBlanksFrom false r.position r.chars

end Remaining

/-- The content of a string whose opening quote was passed, and what follows its closing quote;
`done` holds the characters read so far, newest first. -/
def readString (done : List Char) (position : Position) : List Char → Option (String × Remaining)
  | [] => none
  | c :: cs =>
    if c = '"' then some (String.ofList done.reverse, ⟨position.after c, cs⟩)
    else if c = '\\' then
      match cs with
      | [] => none
      | e :: rest => readString (unescape e :: done) ((position.after c).after e) rest
    else readString (c :: done) (position.after c) cs

/-- Whether a text starts with a digit, or with a minus sign and a digit. -/
def startsNumeral : List Char → Bool
  | '-' :: d :: _ => isDigit d
  | d :: _ => isDigit d
  | [] => false

/-- The numeral in front of a text: its sign, the digits before the point, whether there is a
point, and the digits behind it. -/
structure NumeralSpelling where
  negative : Bool
  whole : List Char
  point : Bool
  fraction : List Char

namespace NumeralSpelling

def text (n : NumeralSpelling) : List Char :=
  (if n.negative then ['-'] else []) ++ n.whole ++ (if n.point then ['.'] else []) ++ n.fraction

def value (n : NumeralSpelling) : Float := (Numeral.ofDigits n.negative n.whole n.fraction).value

/-- The longest numeral that a text starts with. -/
def ofFront (cs : List Char) : NumeralSpelling :=
  let negative := cs.head? == some '-'
  let unsigned := if negative then cs.drop 1 else cs
  let tail := unsigned.dropWhile isDigit
  let point := tail.head? == some '.'
  ⟨negative, unsigned.takeWhile isDigit, point,
    if point then (tail.drop 1).takeWhile isDigit else []⟩

end NumeralSpelling

namespace Remaining

/-- Reads the lexeme in front of a text without blanks in front. -/
def readLexeme (r : Remaining) : Except LexError (TokenKind × Remaining) :=
  match r.chars with
  | [] => .ok (.finish, r)
  | c :: cs =>
    if c = '(' then .ok (.opening, ⟨r.position.after c, cs⟩)
    else if c = ')' then .ok (.closing, ⟨r.position.after c, cs⟩)
    else if c = '"' then
      match readString [] (r.position.after c) cs with
      | some (content, rest) => .ok (.string content, rest)
      | none => .error ⟨r.position⟩
    else if startsNumeral r.chars then
      let spelling := NumeralSpelling.ofFront r.chars
      .ok (.number spelling.value, r.past spelling.text (r.chars.drop spelling.text.length))
    else
      let name := c :: cs.takeWhile fun a => !isDelimiter a
      .ok (.symbol (String.ofList name), r.past name (cs.dropWhile fun a => !isDelimiter a))

/-- The first token of a text and what follows it. -/
def readToken (r : Remaining) : Except LexError (Token × Remaining) :=
  let start := r.skipBlanks
  start.readLexeme.map fun (kind, rest) => (⟨kind, start.position⟩, rest)

end Remaining

/-! ### Reading makes progress -/

namespace Remaining

theorem length_skipBlanksFrom_le (comment : Bool) (p : Position) (cs : List Char) :
    (skipBlanksFrom comment p cs).chars.length ≤ cs.length := by
  induction cs generalizing comment p with
  | nil => simp [skipBlanksFrom]
  | cons c cs ih =>
    unfold skipBlanksFrom
    split
    · exact Nat.le_succ_of_le (ih _ _)
    · split
      · exact Nat.le_succ_of_le (ih _ _)
      · split
        · exact Nat.le_succ_of_le (ih _ _)
        · simp

theorem length_skipBlanks_le (r : Remaining) : r.skipBlanks.chars.length ≤ r.chars.length :=
  length_skipBlanksFrom_le _ _ _

/-- A blank is never left in front. -/
theorem head_skipBlanksFrom (comment : Bool) (p : Position) (cs : List Char) {c : Char}
    (h : c ∈ (skipBlanksFrom comment p cs).chars.head?) : isBlank c = false ∧ c ≠ ';' := by
  induction cs generalizing comment p with
  | nil => simp [skipBlanksFrom] at h
  | cons d ds ih =>
    unfold skipBlanksFrom at h
    split at h
    · exact ih _ _ h
    · split at h
      · exact ih _ _ h
      · split at h
        · exact ih _ _ h
        · simp_all

end Remaining

theorem length_readString {done : List Char} {p : Position} {cs : List Char} {s : String}
    {rest : Remaining} (h : readString done p cs = some (s, rest)) :
    rest.chars.length < cs.length := by
  fun_induction readString done p cs with
  | case1 => simp at h
  | case2 => simp at h; simp [← h.2]
  | case3 => simp at h
  | case4 => rename_i ih; have := ih h; simp; omega
  | case5 => rename_i ih; have := ih h; simp; omega

theorem NumeralSpelling.whole_ofFront_ne_nil {cs : List Char} (h : startsNumeral cs = true) :
    (ofFront cs).whole ≠ [] := by
  show (if cs.head? == some '-' then cs.drop 1 else cs).takeWhile isDigit ≠ []
  unfold startsNumeral at h
  split at h
  · simp [h]
  · rename_i d ds hminus
    by_cases hd : d = '-'
    · subst hd; simp [isDigit] at h
    · simp [hd, h]
  · simp at h

/-- Every lexeme takes at least one character. -/
theorem Remaining.length_readLexeme {r rest : Remaining} {k : TokenKind}
    (h : r.readLexeme = .ok (k, rest)) : k = .finish ∨ rest.chars.length < r.chars.length := by
  obtain ⟨p, cs⟩ := r
  unfold readLexeme at h
  cases cs with
  | nil => simp at h; exact .inl h.1.symm
  | cons c cs =>
    refine .inr ?_
    dsimp only at h
    split at h
    · cases h; simp
    · split at h
      · cases h; simp
      · split at h
        · split at h
          · rename_i hs
            cases h
            have := length_readString hs
            simp; omega
          · cases h
        · split at h
          · rename_i hn
            cases h
            have := List.length_pos_iff.2 (NumeralSpelling.whole_ofFront_ne_nil hn)
            simp only [past, List.length_drop, NumeralSpelling.text, List.length_append,
              List.length_cons]
            omega
          · cases h
            have := (List.dropWhile_sublist (l := cs) fun a => !isDelimiter a).length_le
            simp only [past, List.length_cons]
            omega

theorem Remaining.length_readToken {r rest : Remaining} {t : Token}
    (h : r.readToken = .ok (t, rest)) :
    t.kind = .finish ∨ rest.chars.length < r.chars.length := by
  have hblank := r.length_skipBlanks_le
  unfold readToken at h
  cases hl : r.skipBlanks.readLexeme with
  | error e => simp [hl, Except.map] at h
  | ok found =>
    simp only [hl, Except.map, Except.ok.injEq, Prod.mk.injEq] at h
    obtain ⟨rfl, rfl⟩ := h
    rcases length_readLexeme hl with hk | hlt
    · exact .inl hk
    · exact .inr (by omega)

/-- The tokens of a text up to its end. -/
def Remaining.tokens (r : Remaining) : Except LexError (List Token) :=
  match _h : r.readToken with
  | .error e => .error e
  | .ok (t, rest) =>
    if _hk : t.kind = .finish then .ok [t]
    else rest.tokens.map (t :: ·)
termination_by r.chars.length
decreasing_by exact (length_readToken _h).resolve_left _hk

namespace Remaining

theorem tokens_of_error {r : Remaining} {e : LexError} (h : r.readToken = .error e) :
    r.tokens = .error e := by
  rw [tokens]
  split <;> simp_all

theorem tokens_of_finish {r rest : Remaining} {t : Token} (h : r.readToken = .ok (t, rest))
    (ht : t.kind = .finish) : r.tokens = .ok [t] := by
  rw [tokens]
  split <;> simp_all

theorem tokens_of_token {r rest : Remaining} {t : Token} (h : r.readToken = .ok (t, rest))
    (ht : t.kind ≠ .finish) : r.tokens = rest.tokens.map (t :: ·) := by
  rw [tokens]
  split <;> simp_all

end Remaining

end GuardedLisp.Source
