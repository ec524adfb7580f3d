import GuardedLisp.Proofs.Lexing.Grammar
import Mathlib.Data.List.TakeWhile

/-!
# Lexemes are read as the grammar says

Blanks, contents of strings, numerals and names are each read to their end. What
the grammar allows is what the reader takes (`readLexeme_of_lexeme`), and where
blanks were passed over there is always something that it allows
(`lexeme_or_neverClosed`).
-/

namespace GuardedLisp.Source

open Decimal (isDigit)

/-! ## Blanks -/

theorem Blanks.extendComment {run rest : List Char} {c : Char} (hc : c ≠ '\n')
    (h : Blanks (';' :: run) rest) : Blanks (';' :: c :: run) rest := by
  cases h with
  | blank hblank _ => simp [isBlank] at hblank
  | @comment body _ _ hbody hend h =>
    have hlonger : '\n' ∉ c :: body := by simp [hc.symm, hbody]
    exact .comment hlonger hend h

namespace Remaining

/-- What is passed over are blanks; with a comment open, they go on with it. -/
theorem exists_run_skipBlanksFrom (comment : Bool) (p : Position) (cs : List Char) :
    ∃ run, cs = run ++ (skipBlanksFrom comment p cs).chars ∧
      (skipBlanksFrom comment p cs).position = p.advance run ∧
      Blanks (if comment then ';' :: run else run) (skipBlanksFrom comment p cs).chars := by
  induction cs generalizing comment p with
  | nil =>
    refine ⟨[], rfl, rfl, ?_⟩
    cases comment with
    | false => exact .nil _
    | true => exact .comment List.not_mem_nil (.inl rfl) (.nil _)
  | cons c cs ih =>
    unfold skipBlanksFrom
    split
    · obtain ⟨run, hcs, hp, hrun⟩ := ih (c != '\n') (p.after c)
      refine ⟨c :: run, congrArg (c :: ·) hcs, hp, ?_⟩
      by_cases hc : c = '\n'
      · subst hc
        exact .comment List.not_mem_nil (.inr rfl) (.blank rfl hrun)
      · simp only [bne_iff_ne.2 hc] at hrun ⊢
        exact hrun.extendComment hc
    · split
      · next hblank =>
        obtain ⟨run, hcs, hp, hrun⟩ := ih false (p.after c)
        exact ⟨c :: run, congrArg (c :: ·) hcs, hp, .blank hblank hrun⟩
      · split
        · next hc =>
          obtain ⟨run, hcs, hp, hrun⟩ := ih true (p.after c)
          exact ⟨c :: run, congrArg (c :: ·) hcs, hp, hc ▸ hrun⟩
        · exact ⟨[], rfl, rfl, .nil _⟩

theorem skipBlanksFrom_of_head {cs : List Char} (h : ∀ c ∈ cs.head?, isBlank c = false ∧ c ≠ ';')
    (p : Position) : skipBlanksFrom false p cs = ⟨p, cs⟩ := by
  cases cs with
  | nil => rfl
  | cons c cs => simp [skipBlanksFrom, h c rfl]

theorem skipBlanksFrom_comment {body rest : List Char} (hbody : '\n' ∉ body)
    (hend : rest = [] ∨ rest.head? = some '\n') (p : Position) :
    skipBlanksFrom true p (body ++ rest) = skipBlanksFrom false (p.advance body) rest := by
  induction body generalizing p with
  | nil =>
    rcases hend with rfl | hend
    · rfl
    · obtain ⟨cs, rfl⟩ : ∃ cs, rest = '\n' :: cs := by
        cases rest with
        | nil => cases hend
        | cons c cs => exact ⟨cs, by rw [Option.some.inj hend]⟩
      rfl
  | cons c cs ih =>
    obtain ⟨hc, hcs⟩ := not_or.1 (mt List.mem_cons.2 hbody)
    simp [skipBlanksFrom, bne_iff_ne.2 (Ne.symm hc), ih hcs]

theorem skipBlanksFrom_run {run rest : List Char} (h : Blanks run rest) (p : Position) :
    skipBlanksFrom false p (run ++ rest) = skipBlanksFrom false (p.advance run) rest := by
  induction h generalizing p with
  | nil => rfl
  | blank hc _ ih => simp [skipBlanksFrom, hc, ih]
  | comment hbody hend _ ih =>
    simp [skipBlanksFrom, isBlank, skipBlanksFrom_comment hbody hend, ih, Position.advance_append]

/-- The blanks that are passed over are the longest run of them. -/
theorem longest_skipBlanks (r : Remaining) :
    ∃ run, Longest Blanks r.chars run r.skipBlanks.chars ∧
      r.skipBlanks.position = r.position.advance run := by
  obtain ⟨run, hsplit, hp, hrun⟩ := exists_run_skipBlanksFrom false r.position r.chars
  refine ⟨run, ⟨hsplit, hrun, fun run' rest' hsplit' hrun' => ?_⟩, hp⟩
  have hle := length_skipBlanksFrom_le false (r.position.advance run') rest'
  rw [← skipBlanksFrom_run hrun', ← hsplit'] at hle
  have hlength := congrArg List.length (hsplit.symm.trans hsplit')
  simp only [List.length_append] at hlength
  omega

end Remaining

theorem Longest.unique {P : List Char → List Char → Prop} {text run rest run' rest' : List Char}
    (h : Longest P text run rest) (h' : Longest P text run' rest') : run = run' ∧ rest = rest' :=
  List.append_inj (h.split.symm.trans h'.split)
    (Nat.le_antisymm (h'.maximal run rest h.split h.holds) (h.maximal run' rest' h'.split h'.holds))

theorem Longest.skipBlanks {text blanks rest : List Char} (h : Longest Blanks text blanks rest)
    (p : Position) : Remaining.skipBlanks ⟨p, text⟩ = ⟨p.advance blanks, rest⟩ := by
  obtain ⟨run, hrun, hp⟩ := Remaining.longest_skipBlanks ⟨p, text⟩
  obtain ⟨rfl, hrest⟩ := h.unique hrun
  exact congrArg₂ Remaining.mk hp hrest.symm

/-! ## Strings -/

theorem readString_quote (done : List Char) (p : Position) (cs : List Char) :
    readString done p ('"' :: cs) = some (String.ofList done.reverse, ⟨p.after '"', cs⟩) := by
  rw [readString.eq_def]; simp

theorem readString_plain {c : Char} (hquote : c ≠ '"') (hescape : c ≠ '\\') (done : List Char)
    (p : Position) (cs : List Char) :
    readString done p (c :: cs) = readString (c :: done) (p.after c) cs := by
  rw [readString.eq_def]; simp [hquote, hescape]

theorem readString_escaped (c : Char) (done : List Char) (p : Position) (cs : List Char) :
    readString done p ('\\' :: c :: cs) =
      readString (unescape c :: done) ((p.after '\\').after c) cs := by
  rw [readString.eq_def]; simp

theorem readString_of_body {raw content : List Char} (h : StringBody raw content)
    (done : List Char) (p : Position) (rest : List Char) :
    readString done p (raw ++ '"' :: rest) =
      some (String.ofList (done.reverse ++ content), ⟨p.advance (raw ++ ['"']), rest⟩) := by
  induction h generalizing done p with
  | nil => simp [readString_quote]
  | plain hquote hescape _ ih => simp [readString_plain hquote hescape, ih]
  | escaped c _ ih => simp [readString_escaped, ih]

theorem exists_body_of_readString {done : List Char} {p : Position} {text : List Char}
    {found : String × Remaining} (h : readString done p text = some found) :
    ∃ raw content rest, StringBody raw content ∧ text = raw ++ '"' :: rest := by
  fun_induction readString done p text with
  | case1 => cases h
  | case2 done p cs => exact ⟨[], [], cs, .nil, rfl⟩
  | case3 => cases h
  | case4 done p e rest hquote ih =>
    obtain ⟨raw, content, rest', hraw, rfl⟩ := ih h
    exact ⟨_, _, rest', .escaped e hraw, rfl⟩
  | case5 done p c cs hquote hescape ih =>
    obtain ⟨raw, content, rest', hraw, rfl⟩ := ih h
    exact ⟨_, _, rest', .plain hquote hescape hraw, rfl⟩

theorem readString_eq_none_iff {done : List Char} {p : Position} {text : List Char} :
    readString done p text = none ↔ NeverClosed text := by
  refine ⟨?_, fun h => ?_⟩
  · rintro h raw content rest hraw rfl
    rw [readString_of_body hraw] at h
    cases h
  · by_contra hsome
    obtain ⟨found, hfound⟩ := Option.ne_none_iff_exists'.1 hsome
    obtain ⟨raw, content, rest, hraw, hsplit⟩ := exists_body_of_readString hfound
    exact h raw content rest hraw hsplit

/-! ## Numerals -/

theorem startsNumeral_iff {text : List Char} :
    startsNumeral text = true ↔ StartsNumeral text := by
  have hminus : isDigit '-' = false := rfl
  unfold startsNumeral StartsNumeral
  split
  · next d rest =>
    refine ⟨fun h => ⟨d, rest, h, .inr rfl⟩, ?_⟩
    rintro ⟨d', rest', h, hsplit | hsplit⟩ <;> cases hsplit
    · simp [hminus] at h
    · exact h
  · next d rest hne =>
    refine ⟨fun h => ⟨d, rest, h, .inl rfl⟩, ?_⟩
    rintro ⟨d', rest', h, hsplit | hsplit⟩ <;> cases hsplit
    · exact h
    · exact absurd rfl (hne d' rest' rfl)
  · simp

namespace NumeralSpelling

/-- The longest numeral in front of a text without a sign. -/
def ofUnsigned (negative : Bool) (cs : List Char) : NumeralSpelling :=
  let tail := cs.dropWhile isDigit
  let point := tail.head? == some '.'
  ⟨negative, cs.takeWhile isDigit, point, if point then (tail.drop 1).takeWhile isDigit else []⟩

theorem ofFront_minus (cs : List Char) : ofFront ('-' :: cs) = ofUnsigned true cs := rfl

theorem ofFront_of_head_ne {cs : List Char} (h : cs.head? ≠ some '-') :
    ofFront cs = ofUnsigned false cs := by
  simp [ofFront, ofUnsigned, h]

theorem ofFront_cases (text : List Char) :
    (∃ cs, text = '-' :: cs ∧ ofFront text = ofUnsigned true cs) ∨
      ofFront text = ofUnsigned false text := by
  cases text with
  | nil => exact .inr rfl
  | cons c cs =>
    by_cases hc : c = '-'
    · exact .inl ⟨cs, by rw [hc], by rw [hc, ofFront_minus]⟩
    · exact .inr (ofFront_of_head_ne (by simpa using hc))

theorem isProper_ofUnsigned {negative : Bool} {cs : List Char}
    (h : (ofUnsigned negative cs).whole ≠ []) : (ofUnsigned negative cs).IsProper where
  whole_ne_nil := h
  whole_digits _ := List.mem_takeWhile_imp
  fraction_digits c hc := by
    simp only [ofUnsigned] at hc
    split at hc
    · exact List.mem_takeWhile_imp hc
    · cases hc
  fraction_eq_nil hpoint := by
    simp only [ofUnsigned] at hpoint ⊢
    rw [hpoint]
    rfl

theorem isProper_ofFront {text : List Char} (h : startsNumeral text = true) :
    (ofFront text).IsProper := by
  have hwhole := whole_ofFront_ne_nil h
  rcases ofFront_cases text with ⟨cs, -, hcs⟩ | hcs <;>
    (rw [hcs] at hwhole ⊢; exact isProper_ofUnsigned hwhole)

theorem ofUnsigned_append {ds : List Char} (hds : ∀ c ∈ ds, isDigit c = true) (negative : Bool)
    (tail : List Char) : ofUnsigned negative (ds ++ tail) =
      { ofUnsigned negative tail with whole := ds ++ tail.takeWhile isDigit } := by
  simp only [ofUnsigned, List.takeWhile_append_of_pos hds, List.dropWhile_append_of_pos hds]

theorem ofUnsigned_point (negative : Bool) (tail : List Char) :
    ofUnsigned negative ('.' :: tail) = ⟨negative, [], true, tail.takeWhile isDigit⟩ := by
  have hdot : isDigit '.' = false := rfl
  simp [ofUnsigned, hdot]

theorem text_ofUnsigned_prefix (cs : List Char) : (ofUnsigned false cs).text <+: cs := by
  have hsplit := List.takeWhile_append_dropWhile (p := isDigit) (l := cs)
  by_cases hdot : (cs.dropWhile isDigit).head? = some '.'
  · obtain ⟨tail, htail⟩ := List.head?_eq_some_iff.1 hdot
    refine ⟨tail.dropWhile isDigit, ?_⟩
    rw [htail] at hsplit
    simp [text, ofUnsigned, htail, hsplit]
  · exact ⟨cs.dropWhile isDigit, by simp [text, ofUnsigned, hdot]⟩

/-- What is read as a numeral stands in front of the text. -/
theorem text_ofFront_prefix (text : List Char) : (ofFront text).text <+: text := by
  rcases ofFront_cases text with ⟨cs, rfl, hcs⟩ | hcs
  · have hsign : (ofUnsigned true cs).text = '-' :: (ofUnsigned false cs).text := by
      simp [NumeralSpelling.text, ofUnsigned]
    rw [hcs, hsign]
    exact List.cons_prefix_cons.2 ⟨rfl, text_ofUnsigned_prefix cs⟩
  · rw [hcs]
    exact text_ofUnsigned_prefix text

section Proper

variable {n : NumeralSpelling} (hn : n.IsProper)

include hn

theorem isDigit_head : ∃ d ds, n.whole = d :: ds ∧ isDigit d = true := by
  obtain ⟨d, ds, hwhole⟩ := List.exists_cons_of_ne_nil hn.whole_ne_nil
  exact ⟨d, ds, hwhole, hn.whole_digits d (by simp [hwhole])⟩

theorem ofFront_text_append (rest : List Char) :
    ofFront (n.text ++ rest) = ofUnsigned n.negative
      (n.whole ++ ((if n.point then ['.'] else []) ++ n.fraction ++ rest)) := by
  obtain ⟨d, ds, hwhole, hd⟩ := isDigit_head hn
  have hminus : d ≠ '-' := by rintro rfl; cases hd
  cases hsign : n.negative with
  | true => simp [text, hsign, ofFront_minus]
  | false =>
    rw [ofFront_of_head_ne (by simpa [text, hsign, hwhole] using hminus)]
    simp [text, hsign]

/-- With its point a numeral takes all digits that follow it. -/
theorem ofFront_of_point (hpoint : n.point = true) (rest : List Char) :
    ofFront (n.text ++ rest) = { n with fraction := n.fraction ++ rest.takeWhile isDigit } := by
  rw [ofFront_text_append hn, ofUnsigned_append hn.whole_digits, hpoint]
  have hdot : isDigit '.' = false := rfl
  simp [ofUnsigned_point, hdot, List.takeWhile_append_of_pos hn.fraction_digits]

/-- Without one it takes all digits that follow it, and then there may be a point. -/
theorem ofFront_of_no_point (hpoint : n.point = false) (rest : List Char) :
    ofFront (n.text ++ rest) =
      { ofUnsigned n.negative rest with whole := n.whole ++ rest.takeWhile isDigit } := by
  rw [ofFront_text_append hn, ofUnsigned_append hn.whole_digits, hpoint,
    hn.fraction_eq_nil hpoint]
  simp

theorem length_text_le (rest : List Char) :
    n.text.length ≤ (ofFront (n.text ++ rest)).text.length := by
  cases hpoint : n.point with
  | true =>
    rw [ofFront_of_point hn hpoint]
    simp [text]
  | false =>
    rw [ofFront_of_no_point hn hpoint]
    cases hsign : n.negative <;>
      simp [text, hpoint, hsign, hn.fraction_eq_nil hpoint, ofUnsigned]

theorem ofFront_text : ofFront n.text = n := by
  cases hpoint : n.point with
  | true => simpa using ofFront_of_point hn hpoint []
  | false =>
    have h := ofFront_of_no_point hn hpoint []
    have hfraction := hn.fraction_eq_nil hpoint
    obtain ⟨negative, whole, point, fraction⟩ := n
    subst hpoint hfraction
    simpa [ofUnsigned] using h

end Proper

end NumeralSpelling

/-- The numeral that is read is the longest one. -/
theorem longest_ofFront {text : List Char} (h : StartsNumeral text) :
    ∃ rest, text = (NumeralSpelling.ofFront text).text ++ rest ∧
      Longest (fun run _ => IsNumeral run) text (NumeralSpelling.ofFront text).text rest := by
  obtain ⟨rest, hrest⟩ := NumeralSpelling.text_ofFront_prefix text
  have hproper := NumeralSpelling.isProper_ofFront (startsNumeral_iff.2 h)
  refine ⟨rest, hrest.symm, hrest.symm, ⟨_, hproper, rfl⟩, ?_⟩
  rintro _ rest' hsplit ⟨n, hn, rfl⟩
  have hle := NumeralSpelling.length_text_le hn rest'
  rwa [← hsplit] at hle

/-! ## Lexemes -/

/-- The name that is read is the longest one. -/
theorem longest_name {c : Char} (hc : isDelimiter c = false) (cs : List Char) :
    Longest (fun run _ => IsName run) (c :: cs) (c :: cs.takeWhile fun a => !isDelimiter a)
      (cs.dropWhile fun a => !isDelimiter a) where
  split := by simp [List.takeWhile_append_dropWhile]
  holds := by
    refine ⟨List.cons_ne_nil _ _, ?_⟩
    rintro a (_ | ⟨_, ha⟩)
    · exact hc
    · simpa using List.mem_takeWhile_imp ha
  maximal run' rest' hsplit hrun' := by
    have hall : ∀ a ∈ run', (!isDelimiter a) = true := fun a ha => by simp [hrun'.2 a ha]
    have htake : (run' ++ rest').takeWhile (fun a => !isDelimiter a) = _ :=
      List.takeWhile_append_of_pos hall
    rw [← hsplit, List.takeWhile_cons_of_pos (by simp [hc])] at htake
    rw [htake, List.length_append]
    exact Nat.le_add_right _ _

theorem StartsNumeral.head {c : Char} {cs : List Char} (h : StartsNumeral (c :: cs)) :
    isDigit c = true ∨ c = '-' := by
  obtain ⟨d, rest, hd, h | h⟩ := h <;> cases h
  · exact .inl hd
  · exact .inr rfl

theorem Longest.ofFront_eq {n : NumeralSpelling} {rest : List Char} (hn : n.IsProper)
    (hstart : StartsNumeral (n.text ++ rest))
    (h : Longest (fun run _ => IsNumeral run) (n.text ++ rest) n.text rest) :
    NumeralSpelling.ofFront (n.text ++ rest) = n := by
  obtain ⟨rest', -, hlongest⟩ := longest_ofFront hstart
  have hproper := NumeralSpelling.isProper_ofFront (startsNumeral_iff.2 hstart)
  have htext := (h.unique hlongest).1
  rw [← NumeralSpelling.ofFront_text hproper, ← htext, NumeralSpelling.ofFront_text hn]

theorem NumeralSpelling.IsProper.startsNumeral {n : NumeralSpelling} (hn : n.IsProper)
    (rest : List Char) : StartsNumeral (n.text ++ rest) := by
  obtain ⟨d, ds, hwhole, hd⟩ := NumeralSpelling.isDigit_head hn
  refine ⟨d, ds ++ (if n.point then ['.'] else []) ++ n.fraction ++ rest, hd, ?_⟩
  cases hsign : n.negative with
  | false => exact .inl (by simp [NumeralSpelling.text, hsign, hwhole])
  | true => exact .inr (by simp [NumeralSpelling.text, hsign, hwhole])

namespace Remaining

theorem readLexeme_of_startsNumeral {text : List Char} (h : StartsNumeral text) (p : Position) :
    readLexeme ⟨p, text⟩ = .ok (.number (NumeralSpelling.ofFront text).value,
      ⟨p.advance (NumeralSpelling.ofFront text).text,
        text.drop (NumeralSpelling.ofFront text).text.length⟩) := by
  cases text with
  | nil => obtain ⟨_, _, -, h | h⟩ := h <;> cases h
  | cons c cs =>
    have hc : c ≠ '(' ∧ c ≠ ')' ∧ c ≠ '"' := by
      refine ⟨?_, ?_, ?_⟩ <;> rintro rfl <;> simpa [isDigit] using h.head
    simp [readLexeme, hc, startsNumeral_iff.2 h, past]

theorem readLexeme_of_not_isDelimiter {c : Char} {cs : List Char} (hc : isDelimiter c = false)
    (h : ¬ StartsNumeral (c :: cs)) (p : Position) :
    readLexeme ⟨p, c :: cs⟩ =
      .ok (.symbol (String.ofList (c :: cs.takeWhile fun a => !isDelimiter a)),
        ⟨p.advance (c :: cs.takeWhile fun a => !isDelimiter a),
          cs.dropWhile fun a => !isDelimiter a⟩) := by
  have hc : c ≠ '(' ∧ c ≠ ')' ∧ c ≠ '"' := by
    refine ⟨?_, ?_, ?_⟩ <;> rintro rfl <;> simp [isDelimiter] at hc
  simp [readLexeme, hc, mt startsNumeral_iff.1 h, past]

/-- The reader takes the lexeme that stands in front. -/
theorem readLexeme_of_lexeme {lexeme rest : List Char} {kind : TokenKind}
    (h : Lexeme lexeme rest kind) (p : Position) :
    readLexeme ⟨p, lexeme ++ rest⟩ = .ok (kind, ⟨p.advance lexeme, rest⟩) := by
  cases h with
  | opening => simp [readLexeme]
  | closing => simp [readLexeme]
  | string hbody => simp [readLexeme, readString_of_body hbody]
  | @numeral n _ hn hlongest =>
    have hstart := hn.startsNumeral rest
    rw [readLexeme_of_startsNumeral hstart, hlongest.ofFront_eq hn hstart, List.drop_left]
  | name hstart hlongest =>
    obtain ⟨c, cs, rfl⟩ := List.exists_cons_of_ne_nil hlongest.holds.1
    have hc := hlongest.holds.2 c List.mem_cons_self
    obtain ⟨hname, hrest⟩ := hlongest.unique (longest_name hc (cs ++ rest))
    rw [List.cons_append] at hstart ⊢
    rw [readLexeme_of_not_isDelimiter hc hstart, ← hname, ← hrest]

theorem readLexeme_of_neverClosed {body : List Char} (h : NeverClosed body) (p : Position) :
    readLexeme ⟨p, '"' :: body⟩ = .error ⟨p⟩ := by
  simp [readLexeme, readString_eq_none_iff.2 h]

/-- Where blanks were passed over, a text ends, a string is never closed, or a lexeme stands. -/
theorem lexeme_or_neverClosed {text : List Char}
    (h : ∀ c ∈ text.head?, isBlank c = false ∧ c ≠ ';') :
    text = [] ∨ (∃ body, text = '"' :: body ∧ NeverClosed body) ∨
      ∃ lexeme rest kind, text = lexeme ++ rest ∧ Lexeme lexeme rest kind := by
  rcases text with _ | ⟨c, cs⟩
  · exact .inl rfl
  refine .inr ?_
  obtain ⟨hblank, hsemicolon⟩ := h c rfl
  by_cases hstart : StartsNumeral (c :: cs)
  · obtain ⟨rest, hsplit, hlongest⟩ := longest_ofFront hstart
    have hproper := NumeralSpelling.isProper_ofFront (startsNumeral_iff.2 hstart)
    exact .inr ⟨_, rest, _, hsplit, .numeral hproper (hsplit ▸ hlongest)⟩
  by_cases hdelimiter : isDelimiter c = true
  · simp only [isDelimiter, hblank, hsemicolon, Bool.false_or, Bool.or_eq_true,
      decide_eq_true_eq, decide_false, Bool.or_false] at hdelimiter
    rcases hdelimiter with (rfl | rfl) | rfl
    · exact .inr ⟨_, cs, _, rfl, .opening cs⟩
    · exact .inr ⟨_, cs, _, rfl, .closing cs⟩
    · by_cases hclosed : NeverClosed cs
      · exact .inl ⟨cs, rfl, hclosed⟩
      · simp only [NeverClosed, not_forall, not_not, exists_prop] at hclosed
        obtain ⟨raw, content, rest, hbody, rfl⟩ := hclosed
        exact .inr ⟨_, rest, _, by simp, .string hbody rest⟩
  · have hlongest := longest_name (Bool.eq_false_iff.2 hdelimiter) cs
    have hsplit := hlongest.split
    exact .inr ⟨_, _, _, hsplit, .name (hsplit ▸ hstart) (hsplit ▸ hlongest)⟩

end Remaining

end GuardedLisp.Source
