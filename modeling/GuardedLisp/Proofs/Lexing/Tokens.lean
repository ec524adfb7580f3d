import GuardedLisp.Proofs.Lexing.Scanning

/-!
# Texts are split as the grammar says

A text is cut into pieces in exactly one way (`exists_cutsInto`, `CutsInto.unique`),
and its tokens are those of its pieces (`tokenize_eq_outcome`).
-/

namespace GuardedLisp.Source

theorem Lexeme.ne_nil {lexeme rest : List Char} {kind : TokenKind} (h : Lexeme lexeme rest kind) :
    lexeme ≠ [] := by
  cases h with
  | opening | closing | string => simp
  | numeral hn _ => simp [NumeralSpelling.text, hn.whole_ne_nil]
  | name _ hlongest => exact hlongest.holds.1

theorem Lexeme.kind_ne_finish {lexeme rest : List Char} {kind : TokenKind}
    (h : Lexeme lexeme rest kind) : kind ≠ .finish := by
  cases h <;> exact TokenKind.noConfusion

namespace Remaining

theorem readToken_of_longest {text blanks rest : List Char} (h : Longest Blanks text blanks rest)
    (p : Position) : readToken ⟨p, text⟩ =
      (readLexeme ⟨p.advance blanks, rest⟩).map fun (kind, later) =>
        (⟨kind, p.advance blanks⟩, later) := by
  rw [readToken, h.skipBlanks]

/-- Blanks and nothing behind them are the end of the text. -/
theorem readToken_of_blanks {text blanks : List Char} (h : Longest Blanks text blanks [])
    (before : List Char) : readToken ⟨positionAfter before, text⟩ =
      .ok (⟨.finish, positionAfter (before ++ blanks)⟩,
        ⟨positionAfter (before ++ blanks), []⟩) := by
  rw [readToken_of_longest h, advance_positionAfter]
  rfl

/-- A string that is never closed is blamed on its quote. -/
theorem readToken_of_unclosed {text blanks body : List Char}
    (h : Longest Blanks text blanks ('"' :: body)) (hbody : NeverClosed body)
    (before : List Char) : readToken ⟨positionAfter before, text⟩ =
      .error ⟨positionAfter (before ++ blanks)⟩ := by
  rw [readToken_of_longest h, advance_positionAfter, readLexeme_of_neverClosed hbody]
  rfl

section piece

variable {text blanks lexeme rest : List Char} {kind : TokenKind}
  (h : Longest Blanks text blanks (lexeme ++ rest)) (hlexeme : Lexeme lexeme rest kind)

include h hlexeme

theorem readToken_of_piece (p : Position) : readToken ⟨p, text⟩ =
    .ok (⟨kind, p.advance blanks⟩, ⟨p.advance (blanks ++ lexeme), rest⟩) := by
  rw [readToken_of_longest h, readLexeme_of_lexeme hlexeme, ← Position.advance_append]
  rfl

/-- A piece is read as one token, whatever follows it. -/
theorem tokens_of_piece (p : Position) : tokens ⟨p, text⟩ =
    (tokens ⟨p.advance (blanks ++ lexeme), rest⟩).map (⟨kind, p.advance blanks⟩ :: ·) :=
  tokens_of_token (readToken_of_piece h hlexeme p) hlexeme.kind_ne_finish

end piece

end Remaining

/-- Every text is cut into pieces. -/
theorem exists_cutsInto (text : List Char) : ∃ cut, CutsInto text cut := by
  obtain ⟨blanks, hblanks, -⟩ := Remaining.longest_skipBlanks ⟨.start, text⟩
  have hhead : ∀ c ∈ (Remaining.skipBlanks ⟨.start, text⟩).chars.head?, _ :=
    fun c hc => Remaining.head_skipBlanksFrom _ _ _ hc
  rcases Remaining.lexeme_or_neverClosed hhead with
    hnil | ⟨body, hbody, hnever⟩ | ⟨lexeme, rest, kind, hsplit, hlexeme⟩
  · exact ⟨_, .finish (hnil ▸ hblanks)⟩
  · exact ⟨_, .unclosed (hbody ▸ hblanks) hnever⟩
  · have hlength : rest.length < text.length := by
      have hlexeme := List.length_pos_iff.2 hlexeme.ne_nil
      have htext := congrArg List.length (hsplit ▸ hblanks.split)
      simp only [List.length_append] at htext
      omega
    obtain ⟨cut, hcut⟩ := exists_cutsInto rest
    exact ⟨_, .piece (hsplit ▸ hblanks) hlexeme hcut⟩
termination_by text.length

theorem CutsInto.text_eq {text : List Char} {cut : Cut} (h : CutsInto text cut) :
    cut.text = text := by
  induction h with
  | finish h => simp [h.split, Cut.text, Cut.before]
  | unclosed h _ => simp [h.split, Cut.text, Cut.before]
  | piece h _ _ ih =>
    rw [h.split, ← ih]
    simp [Cut.text, Cut.before, Piece.text]

/-- The tokens of a text are those of its pieces. -/
theorem CutsInto.tokens_eq {text : List Char} {cut : Cut} (h : CutsInto text cut)
    (before : List Char) :
    Remaining.tokens ⟨positionAfter before, text⟩ = cut.outcomeAfter before := by
  induction h generalizing before with
  | finish h =>
    rw [Remaining.tokens_of_finish (Remaining.readToken_of_blanks h before) rfl]
    simp [Cut.outcomeAfter, Cut.text, Cut.before, tokensAfter]
  | unclosed h hbody =>
    rw [Remaining.tokens_of_error (Remaining.readToken_of_unclosed h hbody before)]
    simp [Cut.outcomeAfter, Cut.before]
  | @piece text blanks lexeme rest kind cut h hlexeme hrest ih =>
    rw [Remaining.tokens_of_piece h hlexeme, advance_positionAfter, advance_positionAfter, ih]
    unfold Cut.outcomeAfter
    split <;> simp [Except.map, Cut.text, Cut.before, Piece.text, tokensAfter]

theorem CutsInto.tokenize_eq {text : String} {cut : Cut} (h : CutsInto text.toList cut) :
    tokenize text = cut.outcomeAfter [] :=
  (Source.tokenize_eq text).trans (h.tokens_eq [])

/-- A text starts with one lexeme only. -/
theorem Lexeme.unique {run rest run' rest' : List Char} {kind kind' : TokenKind}
    (h : Lexeme run rest kind) (h' : Lexeme run' rest' kind')
    (hsplit : run ++ rest = run' ++ rest') : run = run' ∧ rest = rest' ∧ kind = kind' := by
  have hread := Remaining.readLexeme_of_lexeme h .start
  rw [hsplit, Remaining.readLexeme_of_lexeme h'] at hread
  simp only [Except.ok.injEq, Prod.mk.injEq, Remaining.mk.injEq] at hread
  obtain ⟨rfl, -, rfl⟩ := hread
  exact ⟨List.append_cancel_right hsplit, rfl, rfl⟩

theorem NeverClosed.ne_lexeme {body run rest : List Char} {kind : TokenKind}
    (h : NeverClosed body) (h' : Lexeme run rest kind) : '"' :: body ≠ run ++ rest := by
  intro hsplit
  have hread := Remaining.readLexeme_of_lexeme h' .start
  rw [← hsplit, Remaining.readLexeme_of_neverClosed h] at hread
  cases hread

/-- There is only one way to cut a text. -/
theorem CutsInto.unique {text : List Char} {cut cut' : Cut} (h : CutsInto text cut)
    (h' : CutsInto text cut') : cut = cut' := by
  induction h generalizing cut' with
  | finish h =>
    cases h' with
    | finish h' => rw [(h.unique h').1]
    | unclosed h' _ => cases (h.unique h').2
    | piece h' hlexeme' _ =>
      exact absurd (List.append_eq_nil_iff.1 (h.unique h').2.symm).1 hlexeme'.ne_nil
  | unclosed h hbody =>
    cases h' with
    | finish h' => cases (h.unique h').2
    | unclosed h' _ =>
      obtain ⟨rfl, hrest⟩ := h.unique h'
      rw [hrest]
    | piece h' hlexeme' _ => exact absurd (h.unique h').2 (hbody.ne_lexeme hlexeme')
  | piece h hlexeme _ ih =>
    cases h' with
    | finish h' =>
      exact absurd (List.append_eq_nil_iff.1 (h.unique h').2).1 hlexeme.ne_nil
    | unclosed h' hbody' => exact absurd (h.unique h').2.symm (hbody'.ne_lexeme hlexeme)
    | piece h' hlexeme' hrest' =>
      obtain ⟨rfl, hsplit⟩ := h.unique h'
      obtain ⟨rfl, rfl, rfl⟩ := hlexeme.unique hlexeme' hsplit
      rw [ih hrest']

/-- A text is cut in exactly one way, of which nothing is lost. It is read as the tokens of its
pieces, each with the place of its lexeme, and one `finish` behind them, unless a string in it is
never closed: then that is said of the place of its quote. -/
theorem tokenize_eq_outcome (text : String) :
    ∃ cut : Cut, (∀ other, CutsInto text.toList other ↔ other = cut) ∧
      cut.text = text.toList ∧
      (cut.unclosed = [] → tokenize text = .ok (tokensAfter [] cut.pieces ++
        [⟨.finish, positionAfter text.toList⟩])) ∧
      (cut.unclosed ≠ [] → ∃ e : LexError, tokenize text = .error e ∧
        e.position = positionAfter cut.before ∧
        e.message = s!"line {e.position.line}, column {e.position.column}: " ++
          "Unterminated string literal") := by
  obtain ⟨cut, hcut⟩ := exists_cutsInto text.toList
  have htokens := hcut.tokenize_eq
  refine ⟨cut, fun other => ⟨fun h => h.unique hcut, fun h => h ▸ hcut⟩, hcut.text_eq, ?_, ?_⟩
  · intro hclosed
    rw [htokens, Cut.outcomeAfter, if_pos hclosed, hcut.text_eq, List.nil_append]
  · intro hunclosed
    refine ⟨⟨positionAfter cut.before⟩, ?_, rfl, ?_⟩
    · rw [htokens, Cut.outcomeAfter, if_neg hunclosed, List.nil_append]
    · simp only [LexError.message, unterminatedString, toString]

end GuardedLisp.Source
