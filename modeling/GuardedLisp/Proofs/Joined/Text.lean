import GuardedLisp.Proofs.Parsing.Blame
import GuardedLisp.Proofs.Printing.Rescan

/-!
# A text behind another one

A line feed ends a lexeme and a comment. So a text that can be read is read the same
with a line feed and any text behind it, and the other text is read as it would be by
itself, some lines further down (`ofText_joined`).
-/

namespace GuardedLisp.Source

/-! ## What a line feed ends -/

theorem separated_lineFeed (later : List Char) : Separated ('\n' :: later) := by
  rintro c ⟨⟩
  rfl

theorem Blanks.joined {run rest : List Char} (h : Blanks run rest) (later : List Char) :
    Blanks run (rest ++ '\n' :: later) := by
  induction h with
  | nil => exact .nil _
  | blank hc _ ih => exact .blank hc ih
  | @comment body run rest hbody hend _ ih =>
    refine .comment hbody (.inr ?_) ih
    rcases hend with hend | hend
    · rw [← List.append_assoc, hend]
      rfl
    · rw [← List.append_assoc, List.head?_append, hend]
      rfl

/-- What can go on without delimiters ends there, too. -/
theorem Longest.joined {P : List Char → Prop} {run rest : List Char}
    (hP : ∀ run', P run' → ∀ c ∈ run', isDelimiter c = false)
    (h : Longest (fun run _ => P run) (run ++ rest) run rest) (later : List Char) :
    Longest (fun run _ => P run) (run ++ (rest ++ '\n' :: later)) run (rest ++ '\n' :: later) where
  split := rfl
  holds := h.holds
  maximal run' rest' hsplit hrun' := by
    rw [← List.append_assoc] at hsplit
    -- a longer one would hold the line feed
    rcases List.append_eq_append_iff.1 hsplit with ⟨more, hmore, hrest⟩ | ⟨more, hmore, -⟩
    · cases more with
      | nil => exact h.maximal run' [] (by simp [hmore]) hrun'
      | cons c more =>
        obtain ⟨rfl, -⟩ := List.cons.inj hrest
        exact absurd (hP run' hrun' '\n' (by simp [hmore])) (by decide)
    · exact h.maximal run' more hmore hrun'

theorem Lexeme.joined {run rest : List Char} {kind : TokenKind} (h : Lexeme run rest kind)
    (later : List Char) : Lexeme run (rest ++ '\n' :: later) kind := by
  cases h with
  | opening => exact .opening _
  | closing => exact .closing _
  | string hbody => exact .string hbody _
  | numeral hn hlongest =>
    exact .numeral hn (hlongest.joined (fun _ h _ => h.isDelimiter_eq) later)
  | name hstart hlongest =>
    refine .name ?_ (hlongest.joined (fun _ h => h.2) later)
    rw [← List.append_assoc]
    refine not_startsNumeral_append ?_ hstart (separated_lineFeed later)
    simp [hlongest.holds.1]

/-! ## Tokens -/

/-- Blanks are passed over. -/
theorem Remaining.tokens_of_blanks {run rest : List Char} (h : Blanks run rest) (p : Position) :
    tokens ⟨p, run ++ rest⟩ = tokens ⟨p.advance run, rest⟩ := by
  refine tokens_congr ?_
  simp only [readToken, skipBlanks, skipBlanksFrom_run h]

/-- The tokens of a text, with more text behind it. -/
theorem CutsInto.tokens_joined {text : List Char} {cut : Cut} (h : CutsInto text cut)
    (hclosed : cut.unclosed = []) (before later : List Char) :
    Remaining.tokens ⟨positionAfter before, text ++ '\n' :: later⟩ =
      (Remaining.tokens ⟨positionAfter (before ++ text ++ ['\n']), later⟩).map
        (tokensAfter before cut.pieces ++ ·) := by
  induction h generalizing before with
  | @finish text blanks h =>
    have hsplit : text = blanks := by simpa using h.split
    have hfeed : Blanks ['\n'] later := .blank rfl (.nil later)
    rw [← hsplit] at h
    have hblanks := Remaining.tokens_of_blanks (h.holds.joined later) (positionAfter before)
    have hline := Remaining.tokens_of_blanks hfeed (positionAfter (before ++ text))
    rw [advance_positionAfter] at hblanks hline
    rw [List.nil_append] at hblanks
    rw [hblanks, ← List.singleton_append, hline, tokensAfter]
    cases Remaining.tokens ⟨positionAfter (before ++ text ++ ['\n']), later⟩ <;> rfl
  | unclosed h => cases hclosed
  | @piece text blanks lexeme rest kind cut h hlexeme _ ih =>
    have hblanks := Remaining.tokens_of_blanks (h.holds.joined later) (positionAfter before)
    have hlonger := hlexeme.joined later
    have hpiece := Remaining.tokens_of_piece hlonger.longest_nil hlonger
      (positionAfter (before ++ blanks))
    rw [advance_positionAfter, List.append_assoc] at hblanks
    rw [advance_positionAfter, advance_positionAfter, List.nil_append, List.append_nil] at hpiece
    rw [h.split, List.append_assoc, List.append_assoc, hblanks, hpiece, ih hclosed]
    cases hlater : Remaining.tokens
      ⟨positionAfter (before ++ blanks ++ lexeme ++ rest ++ ['\n']), later⟩ <;>
    simp_all [Except.map, tokensAfter, Piece.text]

/-! ## Further down -/

/-- This many lines further down. -/
def Position.down (lines : Nat) (p : Position) : Position := ⟨p.line + lines, p.column⟩

def Token.down (lines : Nat) (t : Token) : Token := { t with position := t.position.down lines }

def LexError.down (lines : Nat) (e : LexError) : LexError := ⟨e.position.down lines⟩

def ParseError.down (lines : Nat) (e : ParseError) : ParseError :=
  { e with position := e.position.down lines }

/-- Behind a line feed positions count as from the beginning of a text. -/
theorem positionAfter_line (above before : List Char) :
    positionAfter (above ++ '\n' :: before) =
      (positionAfter before).down (above.count '\n' + 1) := by
  have hcolumn : (before.reverse ++ '\n' :: above.reverse).takeWhile (· ≠ '\n') =
      before.reverse.takeWhile (· ≠ '\n') := by
    rw [List.takeWhile_append]
    split
    · next h =>
      rw [List.takeWhile_cons_of_neg (by simp), List.append_nil]
      exact ((List.takeWhile_prefix _).eq_of_length h).symm
    · rfl
  have hline : (above ++ '\n' :: before).count '\n' =
      before.count '\n' + (above.count '\n' + 1) := by
    rw [List.count_append, List.count_cons_self]
    omega
  have hreverse : (above ++ '\n' :: before).reverse = before.reverse ++ '\n' :: above.reverse := by
    simp
  simp only [positionAfter, Position.down, hline, hreverse, hcolumn, Nat.add_assoc]

theorem tokensAfter_line (above before : List Char) (pieces : List Piece) :
    tokensAfter (above ++ '\n' :: before) pieces =
      (tokensAfter before pieces).map (Token.down (above.count '\n' + 1)) := by
  induction pieces generalizing before with
  | nil => rfl
  | cons p pieces ih =>
    rw [tokensAfter, tokensAfter, List.map_cons, List.append_assoc, List.append_assoc,
      List.cons_append, List.cons_append, ih, positionAfter_line]
    rfl

/-- The tokens of a text below these lines. -/
theorem Cut.outcomeAfter_line (c : Cut) (above : List Char) :
    c.outcomeAfter (above ++ ['\n']) =
      ((c.outcomeAfter []).map (List.map (Token.down (above.count '\n' + 1)))).mapError
        (LexError.down (above.count '\n' + 1)) := by
  simp only [outcomeAfter, List.append_assoc, List.singleton_append, List.nil_append,
    positionAfter_line, tokensAfter_line]
  split
  · simp [Except.map, Except.mapError, Token.down]
  · rfl

/-! ## Reading on -/

namespace Reading

/-- Where these tokens are read as data, reading goes on behind these data. -/
theorem read_append {ts : List Token} (hts : ∀ t ∈ ts, t.kind ≠ .finish) {r : Reading}
    {data : List Datum} (h : r.read ts = .ok data) (later : List Token) :
    r.read (ts ++ later) = (Reading.mk [] data.reverse).read later := by
  induction ts generalizing r with
  | nil =>
    obtain ⟨unclosed, finished⟩ := r
    cases unclosed with
    | nil =>
      cases h
      rw [List.reverse_reverse]
      rfl
    | cons l outer => cases h
  | cons t ts ih =>
    obtain ⟨ht, hts⟩ := List.forall_mem_cons.1 hts
    rw [List.cons_append, read_cons ht]
    rw [read_cons ht] at h
    cases hs : r.step t with
    | error e => rw [hs] at h; cases h
    | ok s =>
      rw [hs] at h
      exact ih hts h

/-- The reading that holds these data besides, this many lines further down. -/
def behind (data : List Datum) (lines : Nat) (r : Reading) : Reading :=
  ⟨r.unclosed.map fun l => { l with opening := l.opening.down lines }, r.finished ++ data.reverse⟩

variable (data : List Datum) (lines : Nat)

theorem push_behind (r : Reading) (d : Datum) :
    (r.behind data lines).push d = (r.push d).behind data lines := by
  obtain ⟨unclosed, finished⟩ := r
  cases unclosed <;> rfl

theorem step_behind (r : Reading) (t : Token) :
    (r.behind data lines).step (t.down lines) =
      ((r.step t).map (behind data lines)).mapError (ParseError.down lines) := by
  obtain ⟨kind, position⟩ := t
  cases kind with
  | opening =>
    simp only [step, Token.down, openList, behind, List.length_map]
    split <;> rfl
  | closing =>
    obtain ⟨unclosed, finished⟩ := r
    cases unclosed with
    | nil => rfl
    | cons l outer => exact congrArg Except.ok (push_behind data lines ⟨outer, finished⟩ _)
  | finish => rfl
  | _ => exact congrArg Except.ok (push_behind data lines r _)

theorem finish_behind (r : Reading) :
    (r.behind data lines).finish =
      (r.finish.map (data ++ ·)).mapError (ParseError.down lines) := by
  obtain ⟨unclosed, finished⟩ := r
  cases unclosed with
  | nil => simp [behind, finish, Except.map, Except.mapError]
  | cons l outer => rfl

/-- What comes behind other data is read as it is by itself. -/
theorem read_behind (r : Reading) (ts : List Token) :
    (r.behind data lines).read (ts.map (Token.down lines)) =
      ((r.read ts).map (data ++ ·)).mapError (ParseError.down lines) := by
  induction ts generalizing r with
  | nil => exact finish_behind data lines r
  | cons t ts ih =>
    by_cases ht : t.kind = .finish
    · rw [List.map_cons, read_finish ht, read_finish (t := t.down lines) ht, finish_behind]
    · rw [List.map_cons, read_cons ht, read_cons (t := t.down lines) ht, step_behind]
      cases r.step t with
      | error e => rfl
      | ok s => exact ih s

end Reading

/-- **A text behind another one.** If the first text can be read, the second one is read behind it
as by itself: the data are the first text's and then its own, or it has the same fault, by as many
lines further down as the first text and the line feed take. -/
theorem ofText_joined {a b : String} {data : List Datum} (ha : Program.ofText a = .ok data) :
    Program.ofText (a ++ "\n" ++ b) = ((Program.ofText b).map (data ++ ·)).mapError
      (ParseError.down (a.toList.count '\n' + 1)) := by
  obtain ⟨cut, hcut⟩ := exists_cutsInto a.toList
  obtain ⟨cut', hcut'⟩ := exists_cutsInto b.toList
  have hclosed : cut.unclosed = [] := by
    by_contra hunclosed
    rw [hcut.ofText_eq_error hunclosed] at ha
    cases ha
  rw [hcut.ofText_eq hclosed] at ha
  have htokens : tokenize (a ++ "\n" ++ b) =
      (((cut'.outcomeAfter []).map (List.map (Token.down (a.toList.count '\n' + 1)))).mapError
        (LexError.down (a.toList.count '\n' + 1))).map (tokensAfter [] cut.pieces ++ ·) := by
    have hjoined := hcut.tokens_joined hclosed [] b.toList
    rw [List.nil_append, hcut'.tokens_eq, Cut.outcomeAfter_line] at hjoined
    rw [← hjoined, tokenize_eq, Remaining.ofText]
    congr 2
    simp
  rw [Program.ofText, Program.ofText, htokens, hcut'.tokenize_eq]
  cases cut'.outcomeAfter [] with
  | error e => rfl
  | ok ts =>
    have hread := Reading.read_append (fun _ => hcut.kind_ne_finish) ha
      (ts.map (Token.down (a.toList.count '\n' + 1)))
    have hbehind := Reading.read_behind data (a.toList.count '\n' + 1) .start ts
    exact hread.trans hbehind

end GuardedLisp.Source
