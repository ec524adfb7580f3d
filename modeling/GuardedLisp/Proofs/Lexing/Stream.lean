import GuardedLisp.Proofs.Parsing.Blame
import GuardedLisp.Proofs.Printing.Rescan

/-!
# The calls of a token stream

The calls of a stream hand out one item for each piece of the text and one for
its end, and nothing from then on (`CutsInto.take_eq`). What stands in front of
a string that is never closed is cut as if the text ended there
(`CutsInto.closed`), so its tokens do not depend on that string.
-/

namespace GuardedLisp.Source

/-! ## Texts that end sooner -/

/-- A comment does not reach a quote that stands behind the blanks. -/
theorem Blanks.of_quote {run rest body : List Char} (h : Blanks run (rest ++ '"' :: body)) :
    Blanks run rest := by
  generalize hlater : rest ++ '"' :: body = later at h
  induction h with
  | nil => exact .nil rest
  | blank hc _ ih => exact .blank hc (ih hlater)
  | @comment comment run later hcomment hend _ ih =>
    subst hlater
    refine .comment hcomment ?_ (ih rfl)
    rcases hend with hnil | hfeed
    · simp at hnil
    · rw [← List.append_assoc] at hfeed
      cases hfront : run ++ rest with
      | nil => simp [hfront] at hfeed
      | cons c cs => exact .inr (by simpa [hfront] using hfeed)

/-- Blanks are passed over to their end where no blank follows. -/
theorem Blanks.longest {run rest : List Char} (h : Blanks run rest)
    (hrest : ∀ c ∈ rest.head?, isBlank c = false ∧ c ≠ ';') :
    Longest Blanks (run ++ rest) run rest where
  split := rfl
  holds := h
  maximal run' rest' hsplit h' := by
    have hle := Remaining.length_skipBlanksFrom_le false (Position.start.advance run') rest'
    rw [← Remaining.skipBlanksFrom_run h', ← hsplit, Remaining.skipBlanksFrom_run h,
      Remaining.skipBlanksFrom_of_head hrest] at hle
    change rest.length ≤ rest'.length at hle
    have hlength := congrArg List.length hsplit
    simp only [List.length_append] at hlength
    omega

theorem Longest.of_append {P : List Char → Prop} {run rest more : List Char}
    (h : Longest (fun run _ => P run) (run ++ (rest ++ more)) run (rest ++ more)) :
    Longest (fun run _ => P run) (run ++ rest) run rest where
  split := rfl
  holds := h.holds
  maximal run' rest' hsplit hrun' :=
    h.maximal run' (rest' ++ more) (by rw [← List.append_assoc, hsplit, List.append_assoc]) hrun'

/-- A lexeme stays one where the text ends sooner. -/
theorem Lexeme.of_append {lexeme rest more : List Char} {kind : TokenKind}
    (h : Lexeme lexeme (rest ++ more) kind) : Lexeme lexeme rest kind := by
  cases h with
  | opening => exact .opening rest
  | closing => exact .closing rest
  | string hbody => exact .string hbody rest
  | numeral hn hlongest => exact .numeral hn hlongest.of_append
  | name hstart hlongest =>
    refine .name (fun h => hstart ?_) hlongest.of_append
    rw [← List.append_assoc]
    exact h.append more

/-! ## Cuts -/

namespace CutsInto

variable {text : List Char} {cut : Cut}

theorem unclosed_eq (h : CutsInto text cut) :
    cut.unclosed = [] ∨ ∃ body, cut.unclosed = '"' :: body ∧ NeverClosed body := by
  induction h with
  | finish => exact .inl rfl
  | unclosed _ hbody => exact .inr ⟨_, rfl, hbody⟩
  | piece _ _ _ ih => exact ih

/-- What stands in front of a string that is never closed is cut in the same way when the text
ends there. -/
theorem closed (h : CutsInto text cut) {body : List Char} (hbody : cut.unclosed = '"' :: body) :
    CutsInto cut.before ⟨cut.pieces, cut.blanks, []⟩ := by
  induction h with
  | finish => cases hbody
  | @unclosed text blanks body h _ =>
    have hquote : Blanks blanks ([] ++ '"' :: body) := h.holds
    have hblanks := hquote.of_quote
    have hlongest := hblanks.longest (fun c hc => by cases hc)
    rw [List.append_nil] at hlongest
    exact .finish hlongest
  | @piece text blanks lexeme rest kind cut h hlexeme hrest ih =>
    have hsplit : rest = cut.before ++ '"' :: body := by
      rw [← hrest.text_eq, Cut.text, hbody]
    subst hsplit
    have hshort := hlexeme.of_append
    have hquote : Blanks blanks ((lexeme ++ cut.before) ++ '"' :: body) := by
      rw [List.append_assoc]
      exact h.holds
    have hlongest := hquote.of_quote.longest fun c hc => hshort.head hc
    have hbefore : blanks ++ (lexeme ++ cut.before) =
        (⟨⟨blanks, lexeme, kind⟩ :: cut.pieces, cut.blanks, cut.unclosed⟩ : Cut).before := by
      simp [Cut.before, Piece.text]
    rw [← hbefore]
    exact .piece hlongest hshort (ih hbody)

theorem length_pieces_le (h : CutsInto text cut) : cut.pieces.length ≤ text.length := by
  induction h with
  | finish | unclosed => exact Nat.zero_le _
  | piece h hlexeme _ ih =>
    have hpos := List.length_pos_iff.2 hlexeme.ne_nil
    have hlength := congrArg List.length h.split
    simp only [List.length_append] at hlength
    simp only [List.length_cons]
    omega

end CutsInto

/-! ## The items of a text -/

/-- The last item of a cut text: that it is finished, or the place of the quote that no other one
closes. -/
def Cut.ending (before : List Char) (c : Cut) : Except LexError Token :=
  if c.unclosed = [] then .ok ⟨.finish, positionAfter (before ++ c.text)⟩
  else .error ⟨positionAfter (before ++ c.before)⟩

/-- The items of a cut text that stands behind `before`. -/
def Cut.items (before : List Char) (c : Cut) : List (Except LexError Token) :=
  (tokensAfter before c.pieces).map .ok ++ [c.ending before]

/-- The place that an item names. -/
def placeOf : Except LexError Token → Position
  | .ok t => t.position
  | .error e => e.position

theorem length_tokensAfter (before : List Char) (pieces : List Piece) :
    (tokensAfter before pieces).length = pieces.length := by
  induction pieces generalizing before with
  | nil => rfl
  | cons p later ih => simp [tokensAfter, ih]

theorem Cut.items_piece (before : List Char) (p : Piece) (c : Cut) :
    Cut.items before ⟨p :: c.pieces, c.blanks, c.unclosed⟩ =
      .ok ⟨p.kind, positionAfter (before ++ p.blanks)⟩ :: c.items (before ++ p.text) := by
  simp [Cut.items, Cut.ending, tokensAfter, Cut.text, Cut.before]

theorem exists_placeOf_tokensAfter {before : List Char} {pieces : List Piece} {t : Token}
    (h : t ∈ tokensAfter before pieces) :
    ∃ more, t.position = positionAfter (before ++ more) := by
  induction pieces generalizing before with
  | nil => cases h
  | cons p later ih =>
    rcases List.mem_cons.1 h with rfl | h
    · exact ⟨p.blanks, rfl⟩
    · obtain ⟨more, hmore⟩ := ih h
      exact ⟨p.text ++ more, by rw [hmore, List.append_assoc]⟩

theorem Cut.exists_placeOf_items {before : List Char} {c : Cut} {item : Except LexError Token}
    (h : item ∈ c.items before) : ∃ more, placeOf item = positionAfter (before ++ more) := by
  rcases List.mem_append.1 h with h | h
  · obtain ⟨t, ht, rfl⟩ := List.mem_map.1 h
    exact exists_placeOf_tokensAfter ht
  · rw [List.mem_singleton.1 h, Cut.ending]
    split
    · exact ⟨c.text, rfl⟩
    · exact ⟨c.before, rfl⟩

/-- The places of the items follow one another: a lexeme takes a character at least. -/
theorem CutsInto.pairwise_places {text : List Char} {cut : Cut} (h : CutsInto text cut)
    (before : List Char) : ((cut.items before).map placeOf).Pairwise Position.Before := by
  induction h generalizing before with
  | finish | unclosed => exact List.pairwise_singleton _ _
  | @piece text blanks lexeme rest kind cut h hlexeme _ ih =>
    rw [Cut.items_piece, List.map_cons, List.pairwise_cons]
    refine ⟨fun place hplace => ?_, ih _⟩
    obtain ⟨item, hitem, rfl⟩ := List.mem_map.1 hplace
    obtain ⟨more, hmore⟩ := Cut.exists_placeOf_items hitem
    obtain ⟨c, cs, rfl⟩ := List.exists_cons_of_ne_nil hlexeme.ne_nil
    have hbefore := before_positionAfter_append (before ++ blanks) c (cs ++ more)
    rw [hmore]
    simpa [placeOf, Piece.text] using hbefore

/-! ## Calls -/

namespace TokenStream

theorem take_succ {s later : TokenStream} {item : Option (Except LexError Token)}
    (h : s.next = (item, later)) (count : Nat) :
    s.take (count + 1) = item :: later.take count := by
  rw [take, h]

theorem take_of_ended {s : TokenStream} (h : s.ended = true) (count : Nat) :
    s.take count = List.replicate count none := by
  induction count with
  | zero => rfl
  | succ count ih => rw [take_succ (next_of_ended h), ih, List.replicate_succ]

end TokenStream

theorem map_getElem?_cons {α : Type} (item : α) (items : List α) (count : Nat) :
    (List.range (count + 1)).map (fun n => (item :: items)[n]?) =
      some item :: (List.range count).map fun n => items[n]? := by
  simp [List.range_succ_eq_map, Function.comp_def]

/-- The n-th call hands out the n-th item, and nothing once there are no more. -/
theorem CutsInto.take_eq {text : List Char} {cut : Cut} (h : CutsInto text cut)
    {whole before : List Char} {s : TokenStream}
    (hs : s.Reads whole ⟨positionAfter before, text⟩) (count : Nat) :
    s.take count = (List.range count).map fun n => (cut.items before)[n]? := by
  have hended {later : TokenStream} (hlater : later.ended = true) (count : Nat) :
      later.take count =
        (List.range count).map fun n => ([] : List (Except LexError Token))[n]? := by
    simp [TokenStream.take_of_ended hlater]
  induction h generalizing before s count with
  | finish h =>
    cases count with
    | zero => rfl
    | succ count =>
      obtain ⟨later, hnext, hlater⟩ := hs.next_of_ok (Remaining.readToken_of_blanks h before)
      rw [if_pos rfl] at hlater
      rw [TokenStream.take_succ hnext, hended hlater, ← map_getElem?_cons]
      simp [Cut.items, Cut.ending, Cut.text, Cut.before, tokensAfter]
  | unclosed h hbody =>
    cases count with
    | zero => rfl
    | succ count =>
      obtain ⟨later, hnext, hlater⟩ :=
        hs.next_of_error (Remaining.readToken_of_unclosed h hbody before)
      rw [TokenStream.take_succ hnext, hended hlater, ← map_getElem?_cons]
      simp [Cut.items, Cut.ending, Cut.before, tokensAfter]
  | @piece text blanks lexeme rest kind cut h hlexeme _ ih =>
    cases count with
    | zero => rfl
    | succ count =>
      obtain ⟨later, hnext, hlater⟩ := hs.next_of_ok (Remaining.readToken_of_piece h hlexeme _)
      rw [if_neg hlexeme.kind_ne_finish, advance_positionAfter] at hlater
      rw [TokenStream.take_succ hnext, Cut.items_piece, map_getElem?_cons, ih hlater,
        advance_positionAfter]
      rfl

/-- **A token stream makes progress and ends once.** A text of k characters is handed out in at
most k + 1 items, each with a later place than the one before it; every call after them yields
nothing. The items are the tokens of the text where it can be read to its end. Otherwise they are
the tokens of what stands in front of the opening quote that no other one closes, without their
`finish`, and then the error at that quote. -/
theorem take_ofText (text : String) : ∃ items : List (Except LexError Token),
    items.length ≤ text.length + 1 ∧
    (∀ count, (TokenStream.ofText text).take count =
      (List.range count).map fun n => items[n]?) ∧
    (items.map placeOf).Pairwise Position.Before ∧
    match tokenize text with
    | .ok tokens => items = tokens.map .ok
    | .error e => ∃ before body tokens, text.toList = before ++ '"' :: body ∧ NeverClosed body ∧
        e.position = positionAfter before ∧
        tokenize (String.ofList before) = .ok (tokens ++ [⟨.finish, e.position⟩]) ∧
        items = tokens.map .ok ++ [.error e] := by
  obtain ⟨cut, hcut⟩ := exists_cutsInto text.toList
  have htokens := hcut.tokenize_eq
  refine ⟨cut.items [], ?_, hcut.take_eq (TokenStream.reads_ofText text),
    hcut.pairwise_places [], ?_⟩
  · have hle := hcut.length_pieces_le
    rw [String.length_toList] at hle
    simpa [Cut.items, length_tokensAfter] using hle
  rw [htokens]
  rcases hcut.unclosed_eq with hclosed | ⟨body, hbody, hnever⟩
  · simp [Cut.outcomeAfter, Cut.items, Cut.ending, hclosed]
  · have hfront : CutsInto (String.ofList cut.before).toList ⟨cut.pieces, cut.blanks, []⟩ := by
      rw [String.toList_ofList]
      exact hcut.closed hbody
    have hunclosed : cut.unclosed ≠ [] := by simp [hbody]
    simp only [Cut.outcomeAfter, if_neg hunclosed, List.nil_append]
    refine ⟨cut.before, body, tokensAfter [] cut.pieces, ?_, hnever, rfl, ?_, ?_⟩
    · rw [← hcut.text_eq, Cut.text, hbody]
    · rw [hfront.tokenize_eq]
      simp [Cut.outcomeAfter, Cut.text, Cut.before]
    · simp [Cut.items, Cut.ending, hunclosed]

end GuardedLisp.Source
