import GuardedLisp.Decimal.Numeral
import GuardedLisp.Source.Cursor
import GuardedLisp.Source.Syntax

/-!
# Token streams

A text is scanned with a cursor, one lexeme at a time. Blanks come first: spaces,
tabs, carriage returns, line feeds, and `;` with what follows it on its line.
Then comes one lexeme.

* `(` or `)`.
* A string, from `"` to the first `"` that no backslash escapes. `\n`, `\t` and
  `\r` stand for control characters, a backslash before any other character for
  that character.
* A numeral, digits with at most one `.`, and perhaps `-` in front of them, where
  the text starts with a digit, or with `-` and a digit.
* A symbol, up to the next blank, parenthesis, `"` or `;`.

No separator is needed between two lexemes: `12abc` is a numeral and a symbol.

A stream hands out the tokens of a text one by one. It ends after the `finish`
token, or after the first fault, and yields nothing from then on. `tokenize`
reads a text to its end: the result is the first fault, or all tokens with
`finish` as the last one.
-/

namespace GuardedLisp.Source

def blanks : List Char := [' ', '\n', '\r', '\t']

def digits : List Char := ['0', '1', '2', '3', '4', '5', '6', '7', '8', '9']

/-- The characters that end a symbol. -/
def delimiters : List Char := [' ', '\n', '\r', '\t', '(', ')', '"', ';']

/-- What a backslash and this character stand for in a string. -/
def unescape (c : Char) : Char :=
  if c = 'n' then '\n' else if c = 't' then '\t' else if c = 'r' then '\r' else c

namespace Cursor

/-! ## Rounds come to an end -/

theorem length_ahead_passWhile_le (c : Cursor) (p : Char → Bool) :
    (c.passWhile p).2.ahead.length ≤ c.ahead.length := by
  have hremaining : (c.passWhile p).2.remaining = c.remaining := c.remaining_fill _
  have hindex : (c.passWhile p).2.index = c.index + (c.ahead.takeWhile p).length := rfl
  rw [ahead_eq, ahead_eq, hremaining, hindex, List.length_drop, List.length_drop]
  omega

theorem length_ahead_next_lt {c d : Cursor} {a : Char} (h : c.next = (some a, d)) :
    d.ahead.length < c.ahead.length := by
  have hcurrent : c.next.2.current = some a := congrArg Prod.fst h
  have hindex : -1 ≤ c.index := by
    have hle : c.next.2.index ≤ c.index + 1 := Int.min_le_left _ _
    rw [current_eq] at hcurrent
    split at hcurrent
    · cases hcurrent
    · omega
  have hhead := next_eq_head hindex
  rw [h] at hhead
  obtain ⟨as, has⟩ := List.head?_eq_some_iff.1 hhead.symm
  have hahead := (ahead_next hindex has).2
  rw [h] at hahead
  rw [has, hahead]
  exact Nat.lt_succ_self _

theorem length_ahead_accept_lt {c d : Cursor} {a : Char} (h : c.accept a = (true, d)) :
    d.ahead.length < c.ahead.length := by
  unfold accept acceptIf at h
  rcases hnext : c.next with ⟨found, moved⟩
  rw [hnext] at h
  cases found with
  | none => cases h
  | some b =>
    by_cases hb : (b == a) = true
    · simp only [Option.filter, hb, if_true, Option.isSome_some, Prod.mk.injEq, true_and] at h
      exact h ▸ length_ahead_next_lt hnext
    · simp [Option.filter, hb] at h

/-! ## Scanning -/

/-- Passes over the blanks in front, with the comments among them. -/
def skipBlanks (c : Cursor) : Cursor :=
  match _h : (c.skipAll blanks).2.accept ';' with
  | (true, comment) => (comment.skipUntil ['\n']).2.skipBlanks
  | (false, behind) => behind.discard
termination_by c.ahead.length
decreasing_by
  have hcomment := comment.length_ahead_passWhile_le fun a => !(['\n'].contains a)
  have hbehind := length_ahead_accept_lt _h
  have hblanks := c.length_ahead_passWhile_le blanks.contains
  exact Nat.lt_of_le_of_lt hcomment (Nat.lt_of_lt_of_le hbehind hblanks)

/-- Whether a digit follows, or a minus sign and a digit; the cursor stays where it is. -/
def startsNumber (c : Cursor) : Bool × Cursor :=
  let (found, ahead) := (c.accept '-').2.peek
  (found.any digits.contains, (ahead.seek c.index).2)

/-- What a lexeme stands for that looks like a number: a symbol if it spells none. -/
def ofLexeme (lexeme : String) : TokenKind :=
  match Decimal.read lexeme.toList with
  | some value => .number value
  | none => .symbol lexeme

/-- Passes over digits with at most one point. -/
def skipNumeral (c : Cursor) : Cursor :=
  let (point, behind) := (c.skipAll digits).2.accept '.'
  if point then (behind.skipAll digits).2 else behind

/-- A sign that was seen before, and a numeral. -/
def scanNumber (c : Cursor) : TokenKind × Cursor :=
  let (lexeme, later) := (c.accept '-').2.skipNumeral.extract
  (ofLexeme lexeme, later)

/-- The content of a string whose opening quote was passed, up to its closing quote, if there is
one; `content` was read before. -/
def scanContent (content : String) (c : Cursor) : Option (String × Cursor) :=
  match _h : c.next with
  | (none, _) => none
  | (some a, behind) =>
    if a = '"' then some (content, behind)
    else if a = '\\' then
      match _he : behind.next with
      | (none, _) => none
      | (some e, later) => later.scanContent (content.push (unescape e))
    else behind.scanContent (content.push a)
termination_by c.ahead.length
decreasing_by
  · exact Nat.lt_trans (length_ahead_next_lt _he) (length_ahead_next_lt _h)
  · exact length_ahead_next_lt _h

def scanString (start : Position) (c : Cursor) : Except LexError (TokenKind × Cursor) :=
  match (c.accept '"').2.scanContent "" with
  | some (content, behind) => .ok (.string content, behind.discard)
  | none => .error ⟨start⟩

def scanSymbol (c : Cursor) : TokenKind × Cursor :=
  let (name, later) := (c.skipUntil delimiters).2.extract
  (.symbol name, later)

/-- Scans the lexeme behind the blanks; `start` is its position. -/
def scanLexeme (start : Position) (c : Cursor) : Except LexError (TokenKind × Cursor) :=
  match c.peek with
  | (none, c) => .ok (.finish, c)
  | (some a, c) =>
    if a = '(' then .ok (.opening, c.next.2.discard)
    else if a = ')' then .ok (.closing, c.next.2.discard)
    else if a = '"' then c.scanString start
    else
      let (number, c) := c.startsNumber
      .ok (if number then c.scanNumber else c.scanSymbol)

/-- Scans the next token; the cursor is left behind its lexeme, which is dropped. -/
def scanToken (c : Cursor) : Except LexError (Token × Cursor) :=
  let (start, c) := c.skipBlanks.lexemeStart
  (c.scanLexeme start).map fun (kind, later) => (⟨kind, start⟩, later)

/-! ## Scanning makes progress -/

namespace Between

variable {run ahead : List Char} {c : Cursor}

/-- Neither a blank nor a comment is left in front. -/
theorem skipBlanks (h : c.Between run ahead) : ∃ later, c.skipBlanks.Between [] later ∧
    later.length ≤ ahead.length ∧ ∀ a ∈ later.head?, a ∉ blanks ∧ a ≠ ';' := by
  fun_induction Cursor.skipBlanks c generalizing run ahead with
  | case1 c comment heq ih =>
    rcases (h.skipAll blanks).accept_cases ';' with
      ⟨text, d, htext, haccept, hd⟩ | ⟨d, -, haccept, -⟩ <;> rw [heq] at haccept <;> cases haccept
    obtain ⟨later, hlater, hle, hhead⟩ := ih (hd.skipUntil _)
    have hdropped := (List.dropWhile_sublist (l := ahead) blanks.contains).length_le
    have hfeed := (List.dropWhile_sublist (l := text) fun a => !(['\n'].contains a)).length_le
    rw [htext, List.length_cons] at hdropped
    exact ⟨later, hlater, by omega, hhead⟩
  | case2 c behind heq =>
    rcases (h.skipAll blanks).accept_cases ';' with
      ⟨-, d, -, haccept, -⟩ | ⟨d, hhead, haccept, hd⟩ <;> rw [heq] at haccept <;> cases haccept
    refine ⟨_, hd.discard, (List.dropWhile_sublist _).length_le, fun a ha => ⟨?_, ?_⟩⟩
    · have hstop := List.head?_dropWhile_not blanks.contains ahead
      rw [Option.mem_def.1 ha] at hstop
      simpa using hstop
    · rintro rfl
      exact hhead ha

/-- A step that finds a character passes over it. -/
theorem next_cases {a : Char} {d : Cursor} (h : c.Between run ahead) (hd : c.next = (some a, d)) :
    ∃ later, ahead = a :: later ∧ d.Between (run ++ [a]) later := by
  have hhead := h.next_eq
  rw [hd] at hhead
  obtain ⟨later, rfl⟩ := List.head?_eq_some_iff.1 hhead.symm
  have hnext := h.next
  rw [hd] at hnext
  exact ⟨later, rfl, hnext⟩

theorem scanContent (h : c.Between run ahead) {content s : String} {d : Cursor}
    (hd : c.scanContent content = some (s, d)) :
    ∃ run' later, d.Between run' later ∧ later.length ≤ ahead.length := by
  fun_induction Cursor.scanContent content c generalizing run ahead with
  | case1 | case3 => cases hd
  | case2 content c behind heq =>
    cases hd
    obtain ⟨later, rfl, hlater⟩ := h.next_cases heq
    exact ⟨_, later, hlater, Nat.le_succ _⟩
  | case4 content c behind e escaped hescape heq _ ih =>
    obtain ⟨text, rfl, htext⟩ := h.next_cases heq
    obtain ⟨tail, rfl, htail⟩ := htext.next_cases hescape
    obtain ⟨run', later, hlater, hle⟩ := ih htail hd
    exact ⟨run', later, hlater, by simp only [List.length_cons]; omega⟩
  | case5 content c a behind heq _ _ ih =>
    obtain ⟨text, rfl, htext⟩ := h.next_cases heq
    obtain ⟨run', later, hlater, hle⟩ := ih htext hd
    exact ⟨run', later, hlater, Nat.le_succ_of_le hle⟩

theorem scanString (h : c.Between [] ('"' :: ahead)) {start : Position} {k : TokenKind}
    {d : Cursor} (hd : c.scanString start = .ok (k, d)) :
    ∃ later, d.Between [] later ∧ later.length ≤ ahead.length := by
  rw [Cursor.scanString, h.accept_cons] at hd
  split at hd
  · next content behind hcontent =>
    cases hd
    obtain ⟨run', later, hlater, hle⟩ := h.next.scanContent hcontent
    exact ⟨later, hlater.discard, hle⟩
  · cases hd

theorem startsNumber (h : c.Between [] ahead) : c.startsNumber.2.Between [] ahead ∧
    (c.startsNumber.1 = true ↔
      ∃ d later, d ∈ digits ∧ (ahead = d :: later ∨ ahead = '-' :: d :: later)) := by
  have hindex : c.index = -1 := by
    have hplace := h.index
    rw [List.length_nil] at hplace
    omega
  have hminus : '-' ∉ digits := by decide
  have hback {run' text : List Char} (hsign : (c.accept '-').2.Between run' text) :
      c.startsNumber.2.Between [] (run' ++ text) := by
    rw [Cursor.startsNumber, hindex]
    exact hsign.peek.seek
  have hfound {run' text : List Char} (hsign : (c.accept '-').2.Between run' text) :
      c.startsNumber.1 = true ↔ ∃ d later, d ∈ digits ∧ text = d :: later := by
    change (c.accept '-').2.peek.1.any digits.contains = true ↔ _
    rw [hsign.peek_eq]
    cases text <;> simp
  rcases h.accept_cases '-' with ⟨text, d, rfl, haccept, hsign⟩ | ⟨d, hhead, haccept, hsign⟩ <;>
    rw [← show (c.accept '-').2 = d by rw [haccept]] at hsign
  · refine ⟨hback hsign, (hfound hsign).trans ⟨?_, ?_⟩⟩
    · rintro ⟨d, later, hd, rfl⟩
      exact ⟨d, later, hd, .inr rfl⟩
    · rintro ⟨d, later, hd, hsplit | hsplit⟩ <;> cases hsplit
      · exact absurd hd hminus
      · exact ⟨d, later, hd, rfl⟩
  · refine ⟨hback hsign, (hfound hsign).trans ⟨?_, ?_⟩⟩
    · rintro ⟨d, later, hd, rfl⟩
      exact ⟨d, later, hd, .inl rfl⟩
    · rintro ⟨d, later, hd, hsplit | hsplit⟩ <;> cases hsplit
      · exact ⟨d, later, hd, rfl⟩
      · exact absurd rfl hhead

theorem skipNumeral {d : Char} {text : List Char} (h : c.Between run (d :: text))
    (hd : d ∈ digits) :
    ∃ run' later, c.skipNumeral.Between run' later ∧ later.length ≤ text.length := by
  have hwhole := h.skipAll digits
  rw [List.dropWhile_cons_of_pos (by simpa using hd)] at hwhole
  have hdropped := (List.dropWhile_sublist (l := text) digits.contains).length_le
  rw [Cursor.skipNumeral]
  rcases hwhole.accept_cases '.' with ⟨later, e, hlater, hpoint, he⟩ | ⟨e, -, hpoint, he⟩
  · have hfraction := (List.dropWhile_sublist (l := later) digits.contains).length_le
    rw [hlater, List.length_cons] at hdropped
    rw [hpoint]
    exact ⟨_, _, he.skipAll digits, by omega⟩
  · rw [hpoint]
    exact ⟨_, _, he, hdropped⟩

/-- The lexeme holds the digit that was seen. -/
theorem scanNumber (h : c.Between [] ahead) {d : Char} {text : List Char} (hd : d ∈ digits)
    (hsplit : ahead = d :: text ∨ ahead = '-' :: d :: text) :
    ∃ later, c.scanNumber.2.Between [] later ∧ later.length < ahead.length := by
  have hminus : d ≠ '-' := by
    rintro rfl
    exact absurd hd (by decide)
  obtain ⟨sign, hsign, hlt⟩ : ∃ sign, (c.accept '-').2.Between sign (d :: text) ∧
      text.length < ahead.length := by
    rcases h.accept_cases '-' with ⟨later, e, rfl, haccept, he⟩ | ⟨e, hhead, haccept, he⟩ <;>
      rw [haccept] <;> rcases hsplit with hsplit | hsplit <;> cases hsplit
    · exact absurd rfl hminus
    · exact ⟨_, he, by simp only [List.length_cons]; omega⟩
    · exact ⟨_, he, Nat.lt_succ_self _⟩
    · exact absurd rfl hhead
  obtain ⟨run', later, hlater, hle⟩ := hsign.skipNumeral hd
  exact ⟨later, hlater.extract, by omega⟩

theorem scanSymbol {a : Char} (h : c.Between [] (a :: ahead)) (ha : a ∉ delimiters) :
    ∃ later, c.scanSymbol.2.Between [] later ∧ later.length ≤ ahead.length := by
  have hname := (h.skipUntil delimiters).extract
  rw [List.dropWhile_cons_of_pos (by simpa using ha)] at hname
  exact ⟨_, hname, (List.dropWhile_sublist _).length_le⟩

/-- A lexeme takes a character at least. -/
theorem scanLexeme (h : c.Between [] ahead) (hhead : ∀ a ∈ ahead.head?, a ∉ blanks ∧ a ≠ ';')
    {start : Position} {k : TokenKind} {d : Cursor} (hd : c.scanLexeme start = .ok (k, d)) :
    ∃ later, d.Between [] later ∧ (k = .finish ∨ later.length < ahead.length) := by
  have hpeek := h.peek
  have hfound := h.peek_eq
  unfold Cursor.scanLexeme at hd
  split at hd
  · next c' heq =>
    rw [heq] at hpeek
    cases hd
    exact ⟨ahead, hpeek, .inl rfl⟩
  · next a c' heq =>
    rw [heq] at hpeek hfound
    obtain ⟨text, rfl⟩ := List.head?_eq_some_iff.1 hfound.symm
    split at hd
    · cases hd
      exact ⟨text, hpeek.next.discard, .inr (Nat.lt_succ_self _)⟩
    split at hd
    · cases hd
      exact ⟨text, hpeek.next.discard, .inr (Nat.lt_succ_self _)⟩
    split at hd
    · next ha =>
      subst ha
      obtain ⟨later, hlater, hle⟩ := hpeek.scanString hd
      exact ⟨later, hlater, .inr (Nat.lt_succ_of_le hle)⟩
    · next hopening hclosing hquote =>
      obtain ⟨hkept, hnumber⟩ := hpeek.startsNumber
      obtain rfl : _ = d := congrArg Prod.snd (Except.ok.inj hd)
      split
      · next hstart =>
        obtain ⟨e, tail, he, hsplit⟩ := hnumber.1 hstart
        obtain ⟨later, hlater, hlt⟩ := hkept.scanNumber he hsplit
        exact ⟨later, hlater, .inr hlt⟩
      · have hsymbol : a ∉ delimiters := by
          have := hhead a rfl
          simp_all [delimiters, blanks]
        obtain ⟨later, hlater, hle⟩ := hkept.scanSymbol hsymbol
        exact ⟨later, hlater, .inr (Nat.lt_succ_of_le hle)⟩

end Between

theorem scanToken_def (c : Cursor) : c.scanToken =
    (c.skipBlanks.lexemeStart.2.scanLexeme c.skipBlanks.lexemeStart.1).map fun (kind, later) =>
      (⟨kind, c.skipBlanks.lexemeStart.1⟩, later) := rfl

/-- The next token begins in front of a lexeme, and only `finish` takes no character. -/
theorem progress_scanToken {c d : Cursor} {t : Token} (h : c.index = -1)
    (hd : c.scanToken = .ok (t, d)) :
    d.index = -1 ∧ (t.kind = .finish ∨ d.remaining.length < c.remaining.length) := by
  obtain ⟨ahead, hahead, hle, hhead⟩ := (between_nil h).skipBlanks
  rw [scanToken_def] at hd
  cases hlexeme : c.skipBlanks.lexemeStart.2.scanLexeme c.skipBlanks.lexemeStart.1 with
  | error e => rw [hlexeme] at hd; cases hd
  | ok found =>
    rw [hlexeme] at hd
    cases hd
    obtain ⟨later, hlater, hprogress⟩ := hahead.lexemeStart.scanLexeme hhead hlexeme
    have hindex := hlater.index
    have hremaining := hlater.split
    rw [List.length_nil] at hindex
    rw [List.nil_append] at hremaining
    refine ⟨by omega, hprogress.imp_right fun hlt => ?_⟩
    rw [hremaining]
    exact Nat.lt_of_lt_of_le hlt hle

end Cursor

/-! ## Streams -/

structure TokenStream where
  cursor : Cursor
  ended : Bool
  /-- No lexeme was begun. -/
  fresh : cursor.index = -1

namespace TokenStream

def ofText (text : String) : TokenStream := ⟨.ofText text, false, rfl⟩

def next (s : TokenStream) : Option (Except LexError Token) × TokenStream :=
  if s.ended then (none, s)
  else
    match h : s.cursor.scanToken with
    | .error e => (some (.error e), { s with ended := true })
    | .ok (t, later) =>
      (some (.ok t), ⟨later, t.kind = .finish, (Cursor.progress_scanToken s.fresh h).1⟩)

/-- The items of the first `count` calls of `next`. -/
def take (s : TokenStream) : Nat → List (Option (Except LexError Token))
  | 0 => []
  | count + 1 => let (item, later) := s.next; item :: later.take count

/-- A bound on the tokens still to come. -/
def size (s : TokenStream) : Nat := if s.ended then 0 else s.cursor.remaining.length + 1

theorem size_next_lt {s later : TokenStream} {t : Token} (h : s.next = (some (.ok t), later)) :
    later.size < s.size := by
  unfold next at h
  split at h
  · cases h
  · next hended =>
    split at h
    · cases h
    · next t' d heq =>
      cases h
      rcases (Cursor.progress_scanToken s.fresh heq).2 with hfinish | hlt
      · simp [size, hfinish, hended]
      · simp only [size, hended, decide_eq_true_eq]
        split
        · simp
        · simp; omega

/-- All tokens still to come, or the first fault. -/
def collect (s : TokenStream) : Except LexError (List Token) :=
  match _h : s.next with
  | (none, _) => .ok []
  | (some (.error e), _) => .error e
  | (some (.ok t), later) => later.collect.map (t :: ·)
termination_by s.size
decreasing_by exact size_next_lt _h

end TokenStream

def tokenize (text : String) : Except LexError (List Token) := (TokenStream.ofText text).collect

end GuardedLisp.Source
