import GuardedLisp.Proofs.Lexing.Lexeme
import GuardedLisp.Proofs.Walks.Conservation

/-!
# Scanning finds what reading finds

The cursor's buffer, its index and its positions are hidden state of the scanning.
Between two requests the text is what was dropped, the lexeme so far, and what is
ahead (`Cursor.Scans`), and each step of the scanning does to what is ahead what the
reader of plain texts does. So a token is scanned as it is read, from whatever state
the tokens before it left (`Cursor.Scans.scanToken`), and a whole text too
(`tokenize_eq`).
-/

namespace GuardedLisp.Source

open Decimal (isDigit Numeral)

/-! ## Sets of characters -/

theorem mem_digits_iff {c : Char} : c ∈ digits ↔ isDigit c = true := by
  constructor
  · exact List.all_eq_true.1 (by decide : digits.all isDigit = true) c
  · intro h
    have hall : ∀ n < 58, 48 ≤ n → Char.ofNat n ∈ digits := by decide
    simp only [isDigit, Bool.and_eq_true, decide_eq_true_eq, Char.le_def, UInt32.le_iff_toNat_le]
      at h
    have hc := hall c.toNat (Nat.lt_succ_of_le h.2) h.1
    rwa [Char.ofNat_toNat] at hc

namespace Cursor

variable (c : Cursor)

theorem skipAll_digits : c.skipAll digits = c.passWhile isDigit := by
  refine congrArg c.passWhile (funext fun a => ?_)
  rw [Bool.eq_iff_iff, List.contains_iff_mem, mem_digits_iff]

theorem skipAll_blanks : c.skipAll blanks = c.passWhile isBlank := by
  refine congrArg c.passWhile (funext fun a => ?_)
  simp [blanks, isBlank, Bool.or_assoc]

theorem skipUntil_line : c.skipUntil ['\n'] = c.passWhile (· != '\n') := by
  refine congrArg c.passWhile (funext fun a => ?_)
  rw [List.contains_cons, List.contains_nil, Bool.or_false, bne]

theorem skipUntil_delimiters :
    c.skipUntil delimiters = c.passWhile fun a => !isDelimiter a := by
  refine congrArg c.passWhile (funext fun a => ?_)
  simp [delimiters, isDelimiter, isBlank, Bool.or_assoc]

end Cursor

/-! ## Texts of numerals -/

namespace NumeralSpelling

/-- The text of a numeral spells its value. -/
theorem read_text {n : NumeralSpelling} (hn : n.IsProper) : Decimal.read n.text = some n.value := by
  obtain ⟨d, ds, hwhole, hd⟩ := isDigit_head hn
  have hsign : Decimal.splitSign n.text =
      (n.negative, n.whole ++ ((if n.point then ['.'] else []) ++ n.fraction)) := by
    have hminus : d ≠ '-' := by rintro rfl; cases hd
    have hplus : d ≠ '+' := by rintro rfl; cases hd
    cases hnegative : n.negative with
    | true => simp [text, hnegative, Decimal.splitSign]
    | false => simp [text, hnegative, hwhole, Decimal.splitSign, hminus, hplus]
  -- No name of a value that is not finite starts with a digit.
  have hword {name : String} (hname : name.toList.head?.any isDigit = false) :
      String.ofList ((n.whole ++ ((if n.point then ['.'] else []) ++ n.fraction)).map
        Char.toLower) ≠ name := by
    rintro rfl
    have hlower : isDigit d.toLower = true :=
      List.all_eq_true.1 (by decide : (digits.all fun d => isDigit d.toLower) = true) d
        (mem_digits_iff.2 hd)
    simp [hwhole, hlower] at hname
  have hdot : isDigit '.' = false := rfl
  have hfraction := List.takeWhile_eq_self_iff.2 hn.fraction_digits
  have htail : n.fraction.dropWhile isDigit = [] := List.dropWhile_eq_nil_iff.2 hn.fraction_digits
  unfold Decimal.read
  rw [hsign]
  simp only [hword (by decide : "inf".toList.head?.any isDigit = false),
    hword (by decide : "infinity".toList.head?.any isDigit = false),
    hword (by decide : "nan".toList.head?.any isDigit = false), false_or, if_false,
    List.takeWhile_append_of_pos hn.whole_digits, List.dropWhile_append_of_pos hn.whole_digits]
  cases hpoint : n.point with
  | true =>
    simp [hdot, hfraction, htail, hn.whole_ne_nil, Decimal.readExponent, value, Numeral.ofDigits]
  | false =>
    simp [hn.fraction_eq_nil hpoint, hn.whole_ne_nil, Decimal.readExponent, value, Numeral.ofDigits]

end NumeralSpelling

/-! ## What is ahead of a cursor -/

theorem push_reverse (content : List Char) (a : Char) :
    (String.ofList content.reverse).push a = String.ofList (a :: content).reverse := by
  rw [String.push_eq_append, List.reverse_cons, String.ofList_append]
  rfl

namespace Remaining

theorem past_past (r : Remaining) (run rest more later : List Char) :
    (r.past run rest).past more later = r.past (run ++ more) later := by
  rw [past, past, past, Position.advance_append]

theorem skipBlanksFrom_blanks (p : Position) (cs : List Char) :
    skipBlanksFrom false p cs =
      skipBlanksFrom false (p.advance (cs.takeWhile isBlank)) (cs.dropWhile isBlank) := by
  induction cs generalizing p with
  | nil => rfl
  | cons c cs ih =>
    by_cases hc : isBlank c = true
    · simp [skipBlanksFrom, hc, ih (p.after c)]
    · simp [hc]

/-- A comment goes on to the end of its line, and blanks may follow it. -/
theorem skipBlanks_of_comment {r : Remaining} {later : List Char}
    (h : r.chars.dropWhile isBlank = ';' :: later) :
    let comment := (r.past (r.chars.takeWhile isBlank) (';' :: later)).past [';'] later
    r.skipBlanks = (comment.past (later.takeWhile (· != '\n'))
      (later.dropWhile (· != '\n'))).skipBlanks := by
  intro comment
  have hbody : '\n' ∉ later.takeWhile (· != '\n') := fun hfeed => by
    simpa using List.mem_takeWhile_imp hfeed
  have hend : later.dropWhile (· != '\n') = [] ∨
      (later.dropWhile (· != '\n')).head? = some '\n' := by
    have hstop := List.head?_dropWhile_not (· != '\n') later
    cases hrest : later.dropWhile (· != '\n') with
    | nil => exact .inl rfl
    | cons c cs => rw [hrest] at hstop; simpa using hstop
  have hcomment := skipBlanksFrom_comment hbody hend comment.position
  rw [List.takeWhile_append_dropWhile] at hcomment
  rw [skipBlanks, skipBlanksFrom_blanks, h]
  exact hcomment

theorem skipBlanks_of_no_comment {r : Remaining}
    (h : (r.chars.dropWhile isBlank).head? ≠ some ';') :
    r.skipBlanks = r.past (r.chars.takeWhile isBlank) (r.chars.dropWhile isBlank) := by
  rw [skipBlanks, skipBlanksFrom_blanks, past]
  refine skipBlanksFrom_of_head (fun c hc => ⟨?_, ?_⟩) _
  · have hstop := List.head?_dropWhile_not isBlank r.chars
    rw [Option.mem_def.1 hc] at hstop
    simpa using hstop
  · rintro rfl
    exact h hc

end Remaining

namespace Cursor

/-- The cursor stands in a text: `done` was dropped, the lexeme so far is `run`, and `ahead`
follows. -/
structure Scans (text done run : List Char) (ahead : Remaining) (c : Cursor) : Prop where
  reads : Reads text done c
  between : c.Between run ahead.chars
  position : ahead.position = positionAfter (done ++ run)

section scanContent

variable {c d e : Cursor} {content : String} {a : Char}

theorem scanContent_of_end (h : c.next = (none, d)) : c.scanContent content = none := by
  rw [scanContent]
  split <;> simp_all

theorem scanContent_of_quote (h : c.next = (some '"', d)) :
    c.scanContent content = some (content, d) := by
  rw [scanContent]
  split <;> simp_all

theorem scanContent_of_escape (h : c.next = (some '\\', d)) (he : d.next = (some a, e)) :
    c.scanContent content = e.scanContent (content.push (unescape a)) := by
  rw [scanContent]
  split <;> simp_all
  split <;> simp_all

theorem scanContent_of_open_escape (h : c.next = (some '\\', d)) (he : d.next = (none, e)) :
    c.scanContent content = none := by
  rw [scanContent]
  split <;> simp_all
  split <;> simp_all

theorem scanContent_of_plain (h : c.next = (some a, d)) (hquote : a ≠ '"') (hescape : a ≠ '\\') :
    c.scanContent content = d.scanContent (content.push a) := by
  rw [scanContent]
  split <;> simp_all

end scanContent

variable {text done run : List Char} {ahead : Remaining} {c : Cursor}

namespace Scans

theorem past {more later : List Char} {d : Cursor} (h : c.Scans text done run ahead)
    (hreads : Reads text done d) (hbetween : d.Between (run ++ more) later) :
    d.Scans text done (run ++ more) (ahead.past more later) where
  reads := hreads
  between := hbetween
  position := by
    rw [Remaining.past, h.position, advance_positionAfter, List.append_assoc]

theorem peek (h : c.Scans text done run ahead) : c.peek.2.Scans text done run ahead :=
  ⟨h.reads.peek, h.between.peek, h.position⟩

theorem passWhile (h : c.Scans text done run ahead) (p : Char → Bool) :
    (c.passWhile p).2.Scans text done (run ++ ahead.chars.takeWhile p)
      (ahead.past (ahead.chars.takeWhile p) (ahead.chars.dropWhile p)) :=
  h.past (h.reads.passWhile p) (h.between.passWhile p)

theorem next_cases (h : c.Scans text done run ahead) :
    (ahead.chars = [] ∧ c.next = (none, c.next.2)) ∨ ∃ a later d, ahead.chars = a :: later ∧
      c.next = (some a, d) ∧ d.Scans text done (run ++ [a]) (ahead.past [a] later) := by
  have hfound := h.between.next_eq
  cases hchars : ahead.chars with
  | nil =>
    rw [hchars] at hfound
    exact .inl ⟨rfl, Prod.ext hfound rfl⟩
  | cons a later =>
    rw [hchars] at hfound
    have hnext : c.next.2.Between (run ++ [a]) later := Between.next (hchars ▸ h.between)
    exact .inr ⟨a, later, _, rfl, Prod.ext hfound rfl, h.past h.reads.next hnext⟩

theorem accept_cases (h : c.Scans text done run ahead) (a : Char) :
    (∃ later d, ahead.chars = a :: later ∧ c.accept a = (true, d) ∧
      d.Scans text done (run ++ [a]) (ahead.past [a] later)) ∨
    (∃ d, ahead.chars.head? ≠ some a ∧ c.accept a = (false, d) ∧ d.Scans text done run ahead) := by
  have hreads : Reads text done (c.accept a).2 := h.reads.acceptIf _
  rcases h.between.accept_cases a with
    ⟨later, d, hchars, haccept, hd⟩ | ⟨d, hchars, haccept, hd⟩ <;> rw [haccept] at hreads
  · exact .inl ⟨later, d, hchars, haccept, h.past hreads hd⟩
  · exact .inr ⟨d, hchars, haccept, hreads, hd, h.position⟩

theorem discard (h : c.Scans text done run ahead) : c.discard.Scans text (done ++ run) [] ahead where
  reads := by
    have hreads := h.reads.discard
    rwa [h.between.index, Int.toNat_natCast, h.between.held_eq, List.take_left] at hreads
  between := h.between.discard
  position := by rw [h.position, List.append_nil]

/-- The lexeme's text is given back as it is dropped. -/
theorem extract (h : c.Scans text done run ahead) : ∃ d, c.extract = (String.ofList run, d) ∧
    d.Scans text (done ++ run) [] ahead :=
  ⟨_, Prod.ext h.between.extract_eq rfl, h.discard⟩

/-! ## Blanks -/

theorem skipBlanks (h : c.Scans text done run ahead) :
    ∃ done', c.skipBlanks.Scans text done' [] ahead.skipBlanks := by
  fun_induction Cursor.skipBlanks c generalizing run ahead with
  | case1 c comment heq ih =>
    have hblanks := h.passWhile isBlank
    rw [skipAll_blanks] at heq
    rcases hblanks.accept_cases ';' with
      ⟨later, d, hlater, haccept, hd⟩ | ⟨d, -, haccept, -⟩ <;> rw [heq] at haccept <;> cases haccept
    rw [skipUntil_line] at ih ⊢
    rw [Remaining.skipBlanks_of_comment hlater]
    exact ih (hd.passWhile _)
  | case2 c behind heq =>
    have hblanks := h.passWhile isBlank
    rw [skipAll_blanks] at heq
    rcases hblanks.accept_cases ';' with
      ⟨later, d, -, haccept, -⟩ | ⟨d, hhead, haccept, hd⟩ <;> rw [heq] at haccept <;> cases haccept
    rw [Remaining.skipBlanks_of_no_comment hhead]
    exact ⟨_, hd.discard⟩

/-! ## Strings -/

theorem scanContent (h : c.Scans text done run ahead) (content : List Char) :
    (readString content ahead.position ahead.chars = none ∧
      c.scanContent (String.ofList content.reverse) = none) ∨
    ∃ s rest run' d, readString content ahead.position ahead.chars = some (s, rest) ∧
      c.scanContent (String.ofList content.reverse) = some (s, d) ∧
      d.Scans text done run' rest := by
  obtain ⟨p, cs⟩ := ahead
  fun_induction readString content p cs generalizing run c with
  | case1 content p =>
    rcases h.next_cases with ⟨-, hnext⟩ | ⟨_, _, _, hcs, -⟩
    · rw [scanContent_of_end hnext]
      exact .inl ⟨rfl, rfl⟩
    · cases hcs
  | case2 content p cs =>
    rcases h.next_cases with ⟨hcs, -⟩ | ⟨a, later, d, hcs, hnext, hd⟩ <;> cases hcs
    rw [scanContent_of_quote hnext]
    exact .inr ⟨_, _, _, d, rfl, rfl, hd⟩
  | case3 content p =>
    rcases h.next_cases with ⟨hcs, -⟩ | ⟨a, later, d, hcs, hnext, hd⟩ <;> cases hcs
    rcases hd.next_cases with ⟨-, hend⟩ | ⟨_, _, _, hcs, -⟩
    · rw [scanContent_of_open_escape hnext hend]
      exact .inl ⟨rfl, rfl⟩
    · cases hcs
  | case4 content p e rest hquote ih =>
    rcases h.next_cases with ⟨hcs, -⟩ | ⟨a, later, d, hcs, hnext, hd⟩ <;> cases hcs
    rcases hd.next_cases with ⟨hcs, -⟩ | ⟨e, later, f, hcs, hescape, hf⟩ <;> cases hcs
    rw [scanContent_of_escape hnext hescape, push_reverse]
    exact ih hf
  | case5 content p a cs hquote hescape ih =>
    rcases h.next_cases with ⟨hcs, -⟩ | ⟨a, later, d, hcs, hnext, hd⟩ <;> cases hcs
    rw [scanContent_of_plain hnext hquote hescape, push_reverse]
    exact ih hd

/-! ## Numerals and symbols -/

theorem skipNumeral (h : c.Scans text done run ahead) :
    let unsigned := (NumeralSpelling.ofUnsigned false ahead.chars).text
    ∃ rest, ahead.chars = unsigned ++ rest ∧
      c.skipNumeral.Scans text done (run ++ unsigned) (ahead.past unsigned rest) := by
  have hwhole := h.passWhile isDigit
  have hsplit := List.takeWhile_append_dropWhile (p := isDigit) (l := ahead.chars)
  rw [Cursor.skipNumeral, skipAll_digits]
  rcases hwhole.accept_cases '.' with ⟨later, d, hlater, hpoint, hd⟩ | ⟨d, hhead, hpoint, hd⟩
  · change ahead.chars.dropWhile isDigit = '.' :: later at hlater
    have hunsigned : (NumeralSpelling.ofUnsigned false ahead.chars).text =
        ahead.chars.takeWhile isDigit ++ ['.'] ++ later.takeWhile isDigit := by
      simp [NumeralSpelling.text, NumeralSpelling.ofUnsigned, hlater]
    have hfraction := hd.passWhile isDigit
    rw [Remaining.past_past, Remaining.past_past, List.append_assoc run,
      List.append_assoc run] at hfraction
    simp only [hpoint, hunsigned, if_true, skipAll_digits]
    refine ⟨later.dropWhile isDigit, ?_, hfraction⟩
    rw [List.append_assoc, List.takeWhile_append_dropWhile, List.append_assoc,
      List.singleton_append, ← hlater, hsplit]
  · change (ahead.chars.dropWhile isDigit).head? ≠ some '.' at hhead
    have hunsigned : (NumeralSpelling.ofUnsigned false ahead.chars).text =
        ahead.chars.takeWhile isDigit := by
      simp [NumeralSpelling.text, NumeralSpelling.ofUnsigned, hhead]
    rw [hpoint, hunsigned]
    exact ⟨_, hsplit.symm, hd⟩

theorem scanNumber (h : c.Scans text done [] ahead) (hstart : startsNumeral ahead.chars = true) :
    let numeral := NumeralSpelling.ofFront ahead.chars
    ∃ done' d, c.scanNumber = (.number numeral.value, d) ∧
      d.Scans text done' [] (ahead.past numeral.text (ahead.chars.drop numeral.text.length)) := by
  intro numeral
  have hnumeral : numeral.IsProper := NumeralSpelling.isProper_ofFront hstart
  have hkind : ofLexeme (String.ofList numeral.text) = .number numeral.value := by
    rw [ofLexeme, String.toList_ofList, NumeralSpelling.read_text hnumeral]
  obtain ⟨rest, hchars, hd⟩ : ∃ rest, ahead.chars = numeral.text ++ rest ∧
      (c.accept '-').2.skipNumeral.Scans text done numeral.text
        (ahead.past numeral.text rest) := by
    rcases h.accept_cases '-' with ⟨later, d, hlater, haccept, hd⟩ | ⟨d, hhead, haccept, hd⟩ <;>
      rw [haccept]
    · have htext : numeral.text = '-' :: (NumeralSpelling.ofUnsigned false later).text := by
        simp only [numeral, hlater, NumeralSpelling.ofFront_minus]
        simp [NumeralSpelling.text, NumeralSpelling.ofUnsigned]
      obtain ⟨rest, hrest, hunsigned⟩ := hd.skipNumeral
      rw [Remaining.past_past] at hunsigned
      rw [hlater, htext]
      exact ⟨rest, congrArg ('-' :: ·) hrest, hunsigned⟩
    · have htext : numeral = NumeralSpelling.ofUnsigned false ahead.chars :=
        NumeralSpelling.ofFront_of_head_ne hhead
      rw [htext]
      exact hd.skipNumeral
  obtain ⟨e, hextract, he⟩ := hd.extract
  have hrest : ahead.chars.drop numeral.text.length = rest := by rw [hchars, List.drop_left]
  refine ⟨_, e, ?_, hrest.symm ▸ he⟩
  rw [Cursor.scanNumber, hextract]
  exact congrArg (·, e) hkind

theorem scanSymbol {a : Char} {as : List Char} (h : c.Scans text done [] ahead)
    (hahead : ahead.chars = a :: as) (ha : isDelimiter a = false) :
    let name := a :: as.takeWhile fun b => !isDelimiter b
    ∃ done' d, c.scanSymbol = (.symbol (String.ofList name), d) ∧
      d.Scans text done' [] (ahead.past name (as.dropWhile fun b => !isDelimiter b)) := by
  intro name
  have hname := h.passWhile fun b => !isDelimiter b
  rw [hahead, List.takeWhile_cons_of_pos (by rw [ha]; rfl),
    List.dropWhile_cons_of_pos (by rw [ha]; rfl), List.nil_append] at hname
  obtain ⟨d, hextract, hd⟩ := hname.extract
  refine ⟨_, d, ?_, hd⟩
  rw [Cursor.scanSymbol, skipUntil_delimiters, hextract]

theorem startsNumber (h : c.Scans text done [] ahead) :
    c.startsNumber.2.Scans text done [] ahead ∧
      c.startsNumber.1 = startsNumeral ahead.chars := by
  obtain ⟨hbetween, hfound⟩ := h.between.startsNumber
  refine ⟨⟨(h.reads.acceptIf _).peek.seek _, hbetween, h.position⟩, ?_⟩
  rw [Bool.eq_iff_iff, hfound, startsNumeral_iff, StartsNumeral]
  simp only [mem_digits_iff]

end Scans

/-! ## Tokens -/

/-- Scanning has the same outcome as reading: the same fault, or the same item, and the cursor
stands in front of what is left to read. -/
inductive Agrees (text : List Char) {α : Type} :
    Except LexError (α × Remaining) → Except LexError (α × Cursor) → Prop where
  | error (e : LexError) : Agrees text (.error e) (.error e)
  | ok (item : α) {rest : Remaining} {done : List Char} {c : Cursor}
    (h : c.Scans text done [] rest) : Agrees text (.ok (item, rest)) (.ok (item, c))

namespace Scans

theorem scanString {p : Position} {later : List Char}
    (h : c.Scans text done [] ⟨p, '"' :: later⟩) :
    Agrees text (Remaining.readLexeme ⟨p, '"' :: later⟩) (c.scanString p) := by
  have hread : Remaining.readLexeme ⟨p, '"' :: later⟩ =
      (readString [] (p.after '"') later).elim (.error ⟨p⟩) fun found =>
        .ok (.string found.1, found.2) := by
    simp only [Remaining.readLexeme]
    cases readString [] (p.after '"') later <;> rfl
  rcases h.accept_cases '"' with ⟨_, d, hlater, haccept, hd⟩ | ⟨d, hhead, -, -⟩
  · cases hlater
    rw [hread, Cursor.scanString, haccept]
    have hfront : d.Scans text done ['"'] ⟨p.after '"', later⟩ := hd
    rcases hfront.scanContent [] with ⟨hnone, hscan⟩ | ⟨s, rest, run', e, hsome, hscan, he⟩
    · rw [hnone]
      change d.scanContent "" = none at hscan
      rw [hscan]
      exact .error _
    · rw [hsome]
      change d.scanContent "" = some (s, e) at hscan
      rw [hscan]
      exact .ok _ he.discard
  · exact absurd rfl hhead

/-- **A lexeme is scanned as it is read.** -/
theorem scanLexeme (h : c.Scans text done [] ahead)
    (hhead : ∀ a ∈ ahead.chars.head?, isBlank a = false ∧ a ≠ ';') :
    Agrees text ahead.readLexeme (c.scanLexeme ahead.position) := by
  obtain ⟨p, cs⟩ := ahead
  have hpeek := h.peek
  have hfound := h.between.peek_eq
  unfold Cursor.scanLexeme
  split
  · next d heq =>
    rw [heq] at hfound hpeek
    obtain rfl : cs = [] := List.head?_eq_none_iff.1 hfound.symm
    exact .ok _ hpeek
  · next a d heq =>
    rw [heq] at hfound hpeek
    obtain ⟨later, rfl⟩ : ∃ later, cs = a :: later := List.head?_eq_some_iff.1 hfound.symm
    have hnext : d.next.2.Scans text done [a] ⟨p.after a, later⟩ :=
      hpeek.past hpeek.reads.next hpeek.between.next
    split
    · next ha =>
      subst ha
      exact .ok TokenKind.opening hnext.discard
    split
    · next ha =>
      subst ha
      exact .ok TokenKind.closing hnext.discard
    split
    · next ha =>
      subst ha
      exact hpeek.scanString
    · next hopening hclosing hquote =>
      obtain ⟨hkept, hnumber⟩ := hpeek.startsNumber
      simp only [hnumber]
      split
      · next hstart =>
        obtain ⟨done', e, hscan, he⟩ := hkept.scanNumber hstart
        rw [Remaining.readLexeme_of_startsNumeral (startsNumeral_iff.1 hstart), hscan]
        exact .ok _ he
      · next hstart =>
        have ha : isDelimiter a = false := by
          have := hhead a rfl
          simp [isDelimiter, this, hopening, hclosing, hquote]
        obtain ⟨done', e, hscan, he⟩ := hkept.scanSymbol rfl ha
        rw [Remaining.readLexeme_of_not_isDelimiter ha (mt startsNumeral_iff.2 hstart), hscan]
        exact .ok _ he

/-- **A token is scanned as it is read**, in whatever state the tokens before it left the
cursor. -/
theorem scanToken (h : c.Scans text done [] ahead) :
    Agrees text ahead.readToken c.scanToken := by
  obtain ⟨done', hblanks⟩ := h.skipBlanks
  have hhead : ∀ a ∈ ahead.skipBlanks.chars.head?, isBlank a = false ∧ a ≠ ';' :=
    fun a ha => Remaining.head_skipBlanksFrom _ _ _ ha
  have hstart : c.skipBlanks.lexemeStart.1 = ahead.skipBlanks.position := by
    rw [hblanks.reads.lexemeStart_eq, hblanks.position, List.append_nil]
  have hfilled : c.skipBlanks.lexemeStart.2.Scans text done' [] ahead.skipBlanks :=
    ⟨hblanks.reads.fill 0, hblanks.between.lexemeStart, hblanks.position⟩
  have hlexeme := hfilled.scanLexeme hhead
  rw [Remaining.readToken, scanToken_def, hstart]
  generalize ahead.skipBlanks.readLexeme = read at hlexeme ⊢
  generalize c.skipBlanks.lexemeStart.2.scanLexeme ahead.skipBlanks.position = scanned
    at hlexeme ⊢
  cases hlexeme with
  | error e => exact .error e
  | ok k hrest => exact .ok _ hrest

end Scans

end Cursor

/-! ## Streams and whole texts -/

namespace TokenStream

/-- The stream goes on with what is left to read. -/
structure Reads (text : List Char) (r : Remaining) (s : TokenStream) : Prop where
  running : s.ended = false
  scans : ∃ done, s.cursor.Scans text done [] r

variable {text : List Char} {r rest : Remaining} {s : TokenStream} {t : Token}

theorem reads_ofText (text : String) : Reads text.toList (.ofText text) (ofText text) :=
  ⟨rfl, [], .ofText text, ⟨rfl, rfl, Nat.zero_le _⟩, rfl⟩

theorem next_of_ended (h : s.ended = true) : s.next = (none, s) := by
  rw [next, if_pos h]

theorem Reads.next_of_error (hs : s.Reads text r) {e : LexError} (h : r.readToken = .error e) :
    ∃ later, s.next = (some (.error e), later) ∧ later.ended = true := by
  obtain ⟨hended, done, hcursor⟩ := hs
  have hscan := hcursor.scanToken
  rw [h] at hscan
  generalize hscanned : s.cursor.scanToken = scanned at hscan
  cases hscan
  rw [next, if_neg (by simp [hended])]
  split
  · next e' heq =>
    rw [hscanned] at heq
    cases heq
    exact ⟨_, rfl, rfl⟩
  · next heq => rw [hscanned] at heq; cases heq

theorem Reads.next_of_ok (hs : s.Reads text r) (h : r.readToken = .ok (t, rest)) :
    ∃ later, s.next = (some (.ok t), later) ∧
      if t.kind = .finish then later.ended = true else later.Reads text rest := by
  obtain ⟨hended, done, hcursor⟩ := hs
  have hscan := hcursor.scanToken
  rw [h] at hscan
  generalize hscanned : s.cursor.scanToken = scanned at hscan
  cases hscan with
  | ok _ hrest =>
    rw [next, if_neg (by simp [hended])]
    split
    · next heq => rw [hscanned] at heq; cases heq
    · next t' d heq =>
      rw [hscanned] at heq
      cases heq
      refine ⟨_, rfl, ?_⟩
      split
      · next hfinish => simp [hfinish]
      · next hfinish => exact ⟨by simp [hfinish], _, hrest⟩

theorem collect_of_ended (h : s.ended = true) : s.collect = .ok [] := by
  rw [collect]
  split <;> simp_all [next_of_ended h]

theorem collect_of_error {later : TokenStream} {e : LexError}
    (h : s.next = (some (.error e), later)) : s.collect = .error e := by
  rw [collect]
  split <;> simp_all

theorem collect_of_ok {later : TokenStream} (h : s.next = (some (.ok t), later)) :
    s.collect = later.collect.map (t :: ·) := by
  rw [collect]
  split <;> simp_all

theorem Reads.collect_eq (hs : s.Reads text r) : s.collect = r.tokens := by
  fun_induction Remaining.tokens r generalizing s with
  | case1 r e h =>
    obtain ⟨later, hnext, -⟩ := hs.next_of_error h
    exact collect_of_error hnext
  | case2 r t rest h hfinish =>
    obtain ⟨later, hnext, hlater⟩ := hs.next_of_ok h
    rw [if_pos hfinish] at hlater
    rw [collect_of_ok hnext, collect_of_ended hlater]
    rfl
  | case3 r t rest h hfinish ih =>
    obtain ⟨later, hnext, hlater⟩ := hs.next_of_ok h
    rw [if_neg hfinish] at hlater
    rw [collect_of_ok hnext, ih hlater]

end TokenStream

theorem tokenize_eq (text : String) : tokenize text = (Remaining.ofText text).tokens :=
  (TokenStream.reads_ofText text).collect_eq

end GuardedLisp.Source
