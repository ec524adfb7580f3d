import GuardedLisp.Proofs.Decimal.Layout
import GuardedLisp.Proofs.Lexing.Tokens
import GuardedLisp.Proofs.Printing.Reread

/-!
# Printed texts are split where they were joined

A token that a text can hold is printed as one lexeme, which ends where the
printed text goes on with a delimiter (`TokenKind.lexeme_text`). So the text of
some data is split into the texts of their tokens, and nothing else
(`Datum.readsAs_charsAll`).
-/

namespace GuardedLisp.Source

open Decimal (Layout isDigit)
open Text (IsCoded misread escape codePointEscape)

/-! ## Strings -/

theorem StringBody.append {raw raw' content content' : List Char} (h : StringBody raw content)
    (h' : StringBody raw' content') : StringBody (raw ++ raw') (content ++ content') := by
  induction h with
  | nil => exact h'
  | plain hquote hescape _ ih => exact .plain hquote hescape ih
  | escaped c _ ih => exact .escaped c ih

theorem StringBody.plainRun {cs : List Char} (h : ∀ c ∈ cs, c ≠ '"' ∧ c ≠ '\\') :
    StringBody cs cs := by
  induction cs with
  | nil => exact .nil
  | cons c cs ih =>
    obtain ⟨⟨hquote, hescape⟩, hcs⟩ := List.forall_mem_cons.1 h
    exact .plain hquote hescape (ih hcs)

theorem exists_digitChar_of_mem_toDigits {b n : Nat} (hb : 1 < b) {c : Char}
    (h : c ∈ Nat.toDigits b n) : ∃ k, c = Nat.digitChar k := by
  induction n using Nat.strongRecOn with
  | ind n ih =>
    rw [Nat.toDigits_eq_if hb] at h
    split at h
    · exact ⟨n, List.mem_singleton.1 h⟩
    · rcases List.mem_append.1 h with h | h
      · exact ih (n / b) (Nat.div_lt_self (by omega) hb) h
      · exact ⟨n % b, List.mem_singleton.1 h⟩

theorem body_codePointEscape (c : Char) :
    StringBody (codePointEscape c) ((codePointEscape c).drop 1) := by
  have hrun : ∀ d ∈ '\x7b' :: Nat.toDigits 16 c.toNat ++ ['\x7d'], d ≠ '"' ∧ d ≠ '\\' := by
    intro d hd
    rcases List.mem_append.1 hd with hd | hd
    · rcases List.mem_cons.1 hd with rfl | hd
      · decide
      · obtain ⟨k, rfl⟩ := exists_digitChar_of_mem_toDigits (by decide) hd
        exact ⟨Nat.digitChar_ne _ (by decide), Nat.digitChar_ne _ (by decide)⟩
    · rw [List.mem_singleton.1 hd]
      decide
  exact .escaped 'u' (.plainRun hrun)

/-- What stands for a character in a printed string is read as `misread` says. -/
theorem body_escape (c : Char) : StringBody (escape c) (misread c) := by
  by_cases hc : IsCoded c
  · rw [misread, if_pos hc]
    rcases hc with h | h <;> rw [h]
    · exact .escaped '0' .nil
    · exact body_codePointEscape c
  · rw [misread, if_neg hc]
    unfold escape
    split_ifs with hquote hbackslash hfeed hreturn htab hnul hcode
    · subst hquote
      exact .escaped '"' .nil
    · subst hbackslash
      exact .escaped '\\' .nil
    · subst hfeed
      exact .escaped 'n' .nil
    · subst hreturn
      exact .escaped 'r' .nil
    · subst htab
      exact .escaped 't' .nil
    · subst hnul
      exact absurd (.inl rfl) hc
    · refine absurd (.inr ?_) hc
      simp only [escape, hquote, hbackslash, hfeed, hreturn, htab, hnul, hcode, if_true, if_false]
    · exact .plain hquote hbackslash .nil

theorem body_flatMap_escape (cs : List Char) :
    StringBody (cs.flatMap escape) (cs.flatMap misread) := by
  induction cs with
  | nil => exact .nil
  | cons c cs ih => exact (body_escape c).append ih

/-! ## Tokens -/

/-- A delimiter follows, or nothing. -/
def Separated (rest : List Char) : Prop := ∀ c ∈ rest.head?, isDelimiter c = true

namespace TokenKind

/-- What every token of a text satisfies. -/
def Legible : TokenKind → Prop
  | number x => x.isNaN = false
  | symbol name => IsName name.toList ∧ ¬ StartsNumeral name.toList
  | string _ | opening | closing => True
  | finish => False

def text : TokenKind → List Char
  | opening => ['(']
  | closing => [')']
  | number x => (Layout.plain.text x).toList
  | string s => (Text.quoted s).toList
  | symbol name => name.toList
  | finish => []

end TokenKind

theorem StartsNumeral.append {text : List Char} (h : StartsNumeral text) (rest : List Char) :
    StartsNumeral (text ++ rest) := by
  obtain ⟨d, later, hd, rfl | rfl⟩ := h
  · exact ⟨d, later ++ rest, hd, .inl rfl⟩
  · exact ⟨d, later ++ rest, hd, .inr rfl⟩

theorem Lexeme.legible {lexeme rest : List Char} {kind : TokenKind}
    (h : Lexeme lexeme rest kind) : kind.Legible := by
  cases h with
  | opening | closing | string => trivial
  | numeral => exact Decimal.Numeral.isNaN_value _
  | name hstart hlongest =>
    rw [TokenKind.Legible, String.toList_ofList]
    exact ⟨hlongest.holds, fun h => hstart (h.append rest)⟩

/-- What holds no delimiter ends where one follows. -/
theorem longest_of_separated {P : List Char → Prop} {run rest : List Char} (hrun : P run)
    (hP : ∀ run', P run' → ∀ c ∈ run', isDelimiter c = false) (hrest : Separated rest) :
    Longest (fun run _ => P run) (run ++ rest) run rest where
  split := rfl
  holds := hrun
  maximal run' rest' hsplit hrun' := by
    by_contra hlt
    have hprefix : run <+: run' :=
      List.prefix_of_prefix_length_le ⟨rest, hsplit⟩ (List.prefix_append _ _) (by omega)
    obtain ⟨more, rfl⟩ := hprefix
    cases more with
    | nil => simp at hlt
    | cons c more =>
      rw [List.append_assoc, List.append_cancel_left_eq] at hsplit
      have hc := hrest c (by rw [hsplit]; rfl)
      exact absurd hc (by simp [hP _ hrun' c (by simp)])

theorem isDelimiter_of_isDigit {c : Char} (h : isDigit c = true) : isDelimiter c = false := by
  by_contra hc
  simp only [isDelimiter, isBlank, Bool.not_eq_false, Bool.or_eq_true, decide_eq_true_eq] at hc
  rcases hc with ((((((rfl | rfl) | rfl) | rfl) | rfl) | rfl) | rfl) | rfl <;>
    exact absurd h (by decide)

theorem IsNumeral.isDelimiter_eq {text : List Char} (h : IsNumeral text) {c : Char}
    (hc : c ∈ text) : isDelimiter c = false := by
  obtain ⟨n, hn, rfl⟩ := h
  simp only [NumeralSpelling.text, List.mem_append] at hc
  rcases hc with ((hsign | hwhole) | hpoint) | hfraction
  · split at hsign
    · rw [List.mem_singleton.1 hsign]
      rfl
    · cases hsign
  · exact isDelimiter_of_isDigit (hn.whole_digits c hwhole)
  · split at hpoint
    · rw [List.mem_singleton.1 hpoint]
      rfl
    · cases hpoint
  · exact isDelimiter_of_isDigit (hn.fraction_digits c hfraction)

theorem not_startsNumeral_append {name rest : List Char} (hname : name ≠ [])
    (hstart : ¬ StartsNumeral name) (hrest : Separated rest) : ¬ StartsNumeral (name ++ rest) := by
  rintro ⟨d, later, hd, h⟩
  obtain ⟨c, cs, rfl⟩ := List.exists_cons_of_ne_nil hname
  rcases h with h | h
  · obtain ⟨rfl, -⟩ := List.cons.inj h
    exact hstart ⟨c, cs, hd, .inl rfl⟩
  · obtain ⟨rfl, htail⟩ := List.cons.inj h
    cases cs with
    | nil =>
      obtain rfl : rest = d :: later := htail
      exact absurd (hrest d rfl) (by simp [isDelimiter_of_isDigit hd])
    | cons d' cs =>
      obtain ⟨rfl, -⟩ := List.cons.inj htail
      exact hstart ⟨d', cs, hd, .inr rfl⟩

theorem lexeme_of_isName {name rest : List Char} (hname : IsName name)
    (hstart : ¬ StartsNumeral name) (hrest : Separated rest) :
    Lexeme name rest (.symbol (String.ofList name)) :=
  .name (not_startsNumeral_append hname.1 hstart hrest)
    (longest_of_separated hname (fun _ h => h.2) hrest)

theorem lexeme_of_isProper {n : NumeralSpelling} (hn : n.IsProper) {rest : List Char}
    (hrest : Separated rest) : Lexeme n.text rest (.number n.value) :=
  .numeral hn (longest_of_separated ⟨n, hn, rfl⟩ (fun _ h _ => h.isDelimiter_eq) hrest)

theorem lexeme_quoted (s : String) (rest : List Char) :
    Lexeme (Text.quoted s).toList rest (TokenKind.string s).reread := by
  have hbody := Lexeme.string (body_flatMap_escape s.toList) rest
  simpa [Text.quoted, TokenKind.reread] using hbody

/-- The words that infinite numbers are written as. -/
theorem lexeme_infinite {x : Float} (hx : x.isInf = true) {rest : List Char}
    (hrest : Separated rest) :
    Lexeme (Layout.plain.text x).toList rest (.symbol (Layout.plain.text x)) := by
  have hname : IsName (Layout.plain.text x).toList ∧
      ¬ StartsNumeral (Layout.plain.text x).toList := by
    rcases Layout.text_of_isInf hx with h | h <;> rw [h]
    · exact ⟨⟨by decide, by simp [isDelimiter, isBlank]⟩, mt startsNumeral_iff.2 (by decide)⟩
    · exact ⟨⟨by decide, by simp [isDelimiter, isBlank]⟩, mt startsNumeral_iff.2 (by decide)⟩
  have hlexeme := lexeme_of_isName hname.1 hname.2 hrest
  rwa [String.ofList_toList] at hlexeme

theorem TokenKind.lexeme_text {k : TokenKind} (hk : k.Legible) {rest : List Char}
    (hrest : Separated rest) : Lexeme k.text rest k.reread := by
  cases k with
  | opening => exact .opening rest
  | closing => exact .closing rest
  | finish => exact absurd hk id
  | string s => exact lexeme_quoted s rest
  | symbol name =>
    have hlexeme := lexeme_of_isName hk.1 hk.2 hrest
    rwa [String.ofList_toList] at hlexeme
  | number x =>
    cases hinf : x.isInf with
    | true =>
      have hlexeme := lexeme_infinite hinf hrest
      rw [text, reread, hinf]
      exact hlexeme
    | false =>
      obtain ⟨n, hn, htext, hvalue⟩ := Decimal.exists_spelling hk hinf
      have hlexeme := lexeme_of_isProper hn hrest
      rw [text, htext, String.toList_ofList, reread, hinf, ← hvalue]
      exact hlexeme

/-! ## Sequences of tokens -/

theorem Remaining.tokens_congr {r r' : Remaining} (h : r.readToken = r'.readToken) :
    r.tokens = r'.tokens := by
  cases hread : r'.readToken with
  | error e => rw [tokens_of_error hread, tokens_of_error (h.trans hread)]
  | ok found =>
    obtain ⟨t, rest⟩ := found
    by_cases ht : t.kind = .finish
    · rw [tokens_of_finish hread ht, tokens_of_finish (h.trans hread) ht]
    · rw [tokens_of_token hread ht, tokens_of_token (h.trans hread) ht]

theorem isBlank_of_not_isDelimiter {c : Char} (h : isDelimiter c = false) :
    isBlank c = false ∧ c ≠ ';' := by
  simp only [isDelimiter, Bool.or_eq_false_iff, decide_eq_false_iff_not] at h
  exact ⟨h.1.1.1.1, h.2⟩

/-- A lexeme does not start with a blank. -/
theorem Lexeme.head {run rest : List Char} {kind : TokenKind} (h : Lexeme run rest kind)
    {c : Char} (hc : c ∈ (run ++ rest).head?) : isBlank c = false ∧ c ≠ ';' := by
  obtain ⟨d, ds, hrun⟩ := List.exists_cons_of_ne_nil h.ne_nil
  obtain rfl : d = c := by simpa [hrun] using hc
  cases h with
  | opening | closing | string =>
    obtain ⟨rfl, -⟩ := List.cons.inj hrun
    decide
  | numeral hn _ =>
    have hstart := hn.startsNumeral rest
    rw [hrun] at hstart
    rcases hstart.head with hdigit | rfl
    · exact isBlank_of_not_isDelimiter (isDelimiter_of_isDigit hdigit)
    · decide
  | name _ hlongest =>
    exact isBlank_of_not_isDelimiter (hlongest.holds.2 d (by rw [hrun]; exact List.mem_cons_self))

theorem Lexeme.longest_nil {run rest : List Char} {kind : TokenKind} (h : Lexeme run rest kind) :
    Longest Blanks (run ++ rest) [] (run ++ rest) where
  split := rfl
  holds := .nil _
  maximal blanks rest' hsplit hblanks := by
    cases hblanks with
    | nil => exact le_rfl
    | blank hc _ => exact absurd hc (by simp [(h.head (by rw [hsplit]; rfl)).1])
    | comment => exact absurd rfl (h.head (c := ';') (by rw [hsplit]; rfl)).2

/-- In front of `rest`, `run` is read as tokens of these kinds. -/
def ReadsAs (run rest : List Char) (kinds : List TokenKind) : Prop :=
  ∀ p, ∃ ts : List Token, ts.map Token.kind = kinds ∧
    Remaining.tokens ⟨p, run ++ rest⟩ =
      (Remaining.tokens ⟨p.advance run, rest⟩).map (ts ++ ·)

namespace ReadsAs

variable {run run' rest : List Char} {kinds kinds' : List TokenKind}

theorem nil (rest : List Char) : ReadsAs [] rest [] := by
  intro p
  refine ⟨[], rfl, ?_⟩
  cases h : Remaining.tokens ⟨p, rest⟩ <;> simp [h, Except.map]

theorem append (h : ReadsAs run (run' ++ rest) kinds) (h' : ReadsAs run' rest kinds') :
    ReadsAs (run ++ run') rest (kinds ++ kinds') := by
  intro p
  obtain ⟨ts, hts, htokens⟩ := h p
  obtain ⟨ts', hts', htokens'⟩ := h' (p.advance run)
  refine ⟨ts ++ ts', by rw [List.map_append, hts, hts'], ?_⟩
  rw [List.append_assoc, htokens, htokens', Position.advance_append]
  cases Remaining.tokens ⟨(p.advance run).advance run', rest⟩ <;> simp [Except.map]

theorem blank {c : Char} (hc : isBlank c = true) (h : ReadsAs run rest kinds) :
    ReadsAs (c :: run) rest kinds := by
  intro p
  obtain ⟨ts, hts, htokens⟩ := h (p.after c)
  refine ⟨ts, hts, ?_⟩
  rw [List.cons_append, Position.advance_cons, ← htokens]
  refine Remaining.tokens_congr ?_
  simp [Remaining.readToken, Remaining.skipBlanks, Remaining.skipBlanksFrom, hc]

theorem lexeme {kind : TokenKind} (h : Lexeme run rest kind) : ReadsAs run rest [kind] :=
  fun p => ⟨[⟨kind, p⟩], rfl, Remaining.tokens_of_piece h.longest_nil h p⟩

end ReadsAs

namespace Datum

mutual

/-- The text of a datum: lists in parentheses, their items with single spaces between them. -/
def chars : Datum → List Char
  | number x => (Layout.plain.text x).toList
  | string s => (Text.quoted s).toList
  | symbol name => name.toList
  | list items => '(' :: charsAll items ++ [')']

/-- The texts of some data with single spaces between them. -/
def charsAll : List Datum → List Char
  | [] => []
  | [d] => d.chars
  | d :: ds => d.chars ++ ' ' :: charsAll ds

end

theorem charsAll_cons_cons (d d' : Datum) (ds : List Datum) :
    charsAll (d :: d' :: ds) = d.chars ++ ' ' :: charsAll (d' :: ds) := rfl

mutual

/-- The text of a datum is read as what its tokens are read as. -/
theorem readsAs_chars (d : Datum) (hd : ∀ k ∈ d.flatten, k.Legible) {rest : List Char}
    (hrest : Separated rest) : ReadsAs d.chars rest (d.flatten.map TokenKind.reread) := by
  cases d with
  | number x => exact .lexeme (TokenKind.lexeme_text (hd (.number x) List.mem_cons_self) hrest)
  | string s => exact .lexeme (TokenKind.lexeme_text (hd (.string s) List.mem_cons_self) hrest)
  | symbol name =>
    exact .lexeme (TokenKind.lexeme_text (hd (.symbol name) List.mem_cons_self) hrest)
  | list items =>
    have hitems : ∀ k ∈ flattenAll items, k.Legible := fun k hk => hd k (by simp [flatten, hk])
    have hclosing : Separated (')' :: rest) := fun c hc => by
      obtain rfl : ')' = c := Option.some.inj hc
      rfl
    have hopening : ReadsAs ['('] (charsAll items ++ ')' :: rest) [.opening] :=
      .lexeme (.opening _)
    rw [chars, flatten, List.map_append, List.map_cons]
    exact (hopening.append (readsAs_charsAll items hitems hclosing)).append
      (.lexeme (.closing rest))

theorem readsAs_charsAll (ds : List Datum) (hds : ∀ k ∈ flattenAll ds, k.Legible)
    {rest : List Char} (hrest : Separated rest) :
    ReadsAs (charsAll ds) rest ((flattenAll ds).map TokenKind.reread) := by
  match ds with
  | [] => exact .nil rest
  | [d] =>
    rw [flattenAll_singleton] at hds ⊢
    exact readsAs_chars d hds hrest
  | d :: d' :: ds =>
    have hd : ∀ k ∈ d.flatten, k.Legible := fun k hk => hds k (List.mem_append_left _ hk)
    have hlater : ∀ k ∈ flattenAll (d' :: ds), k.Legible :=
      fun k hk => hds k (List.mem_append_right _ hk)
    have hspace : Separated (' ' :: charsAll (d' :: ds) ++ rest) := fun c hc => by
      obtain rfl : ' ' = c := Option.some.inj hc
      rfl
    rw [charsAll_cons_cons, flattenAll, List.map_append]
    exact .append (readsAs_chars d hd hspace)
      (.blank rfl (readsAs_charsAll (d' :: ds) hlater hrest))

end

end Datum

end GuardedLisp.Source
