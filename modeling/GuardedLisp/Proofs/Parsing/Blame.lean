import GuardedLisp.Proofs.Lexing.Tokens
import GuardedLisp.Proofs.Parsing.Descent

/-!
# What is blamed for a rejected text

The tokens read without a fault leave some parentheses open (`LeavesOpen`). The
first token that cannot go on from there is blamed, or else the innermost `(`
that is open at the end (`Blames`); a string that is never closed is blamed
before all of these (`ofText_eq_error_iff`). The place that is named is that of
the very character.
-/

namespace GuardedLisp.Source

/-- The parentheses that are open after some tokens, innermost first; none of these tokens is a
fault. -/
inductive LeavesOpen : List Token → List Token → Prop where
  | nil : LeavesOpen [] []
  | atom {read stack : List Token} {t : Token} (h : LeavesOpen read stack)
    (hopening : t.kind ≠ .opening) (hclosing : t.kind ≠ .closing) (hfinish : t.kind ≠ .finish) :
    LeavesOpen (read ++ [t]) stack
  | opening {read stack : List Token} {t : Token} (h : LeavesOpen read stack)
    (ht : t.kind = .opening) (hroom : stack.length < maxNesting) :
    LeavesOpen (read ++ [t]) (t :: stack)
  | closing {read stack : List Token} {o t : Token} (h : LeavesOpen read (o :: stack))
    (ht : t.kind = .closing) : LeavesOpen (read ++ [t]) stack

/-- The first fault of some tokens. -/
inductive Blames (tokens : List Token) : Complaint → Prop where
  | closing {read later : List Token} {t : Token} (hsplit : tokens = read ++ t :: later)
    (hopen : LeavesOpen read []) (ht : t.kind = .closing) :
    Blames tokens ⟨t.position, "Unexpected )"⟩
  | tooDeep {read later stack : List Token} {t : Token} (hsplit : tokens = read ++ t :: later)
    (hopen : LeavesOpen read stack) (ht : t.kind = .opening) (hfull : stack.length = maxNesting) :
    Blames tokens ⟨t.position, "Expression nested too deeply"⟩
  | missing {o : Token} {stack : List Token} (hopen : LeavesOpen tokens (o :: stack)) :
    Blames tokens ⟨o.position, "Unexpected end of input, expected )"⟩

/-! ## The reader with a stack -/

namespace Reading

variable {r s : Reading} {t : Token}

theorem map_opening_push (r : Reading) (d : Datum) :
    (r.push d).unclosed.map OpenList.opening = r.unclosed.map OpenList.opening := by
  obtain ⟨unclosed, finished⟩ := r
  cases unclosed <;> rfl

theorem step_atom (hopening : t.kind ≠ .opening) (hclosing : t.kind ≠ .closing)
    (hfinish : t.kind ≠ .finish) (r : Reading) : ∃ d, r.step t = .ok (r.push d) := by
  cases hkind : t.kind with
  | opening => exact absurd hkind hopening
  | closing => exact absurd hkind hclosing
  | finish => exact absurd hkind hfinish
  | number x => exact ⟨.number x, by simp only [step, hkind]⟩
  | string s => exact ⟨.string s, by simp only [step, hkind]⟩
  | symbol s => exact ⟨.symbol s, by simp only [step, hkind]⟩

theorem step_opening (ht : t.kind = .opening) (hroom : r.unclosed.length < maxNesting) :
    r.step t = .ok ⟨⟨t.position, []⟩ :: r.unclosed, r.finished⟩ := by
  simp only [step, ht, openList, if_pos hroom]

theorem step_opening_full (ht : t.kind = .opening) (hfull : r.unclosed.length = maxNesting) :
    r.step t = .error ⟨.nestedTooDeeply, t.position⟩ := by
  simp only [step, ht, openList, hfull, lt_irrefl, if_false]

theorem step_closing_nil (ht : t.kind = .closing) (hr : r.unclosed = []) :
    r.step t = .error ⟨.unexpectedClosing, t.position⟩ := by
  simp only [step, ht, closeList, hr]

theorem step_closing {l : OpenList} {outer : List OpenList} (ht : t.kind = .closing)
    (hr : r.unclosed = l :: outer) :
    r.step t = .ok (push ⟨outer, r.finished⟩ (.list l.items.reverse)) := by
  simp only [step, ht, closeList, hr]

end Reading

/-- Reading goes on from `r` after some tokens. -/
def Resumes (read : List Token) (r : Reading) : Prop :=
  ∀ later, Program.ofTokens (read ++ later) = r.read later

theorem Resumes.snoc {read : List Token} {r s : Reading} {t : Token} (h : Resumes read r)
    (ht : t.kind ≠ .finish) (hs : r.step t = .ok s) : Resumes (read ++ [t]) s := by
  intro later
  rw [List.append_assoc, h, List.singleton_append, Reading.read_cons ht, hs]
  rfl

/-- Where the tokens leave these parentheses open, so does the reader. -/
theorem LeavesOpen.exists_reading {read stack : List Token} (h : LeavesOpen read stack) :
    ∃ r, Resumes read r ∧ r.unclosed.map OpenList.opening = stack.map Token.position := by
  induction h with
  | nil => exact ⟨.start, fun _ => rfl, rfl⟩
  | atom _ hopening hclosing hfinish ih =>
    obtain ⟨r, hread, hr⟩ := ih
    obtain ⟨d, hs⟩ := Reading.step_atom hopening hclosing hfinish r
    exact ⟨_, hread.snoc hfinish hs, by rw [Reading.map_opening_push, hr]⟩
  | opening _ ht hroom ih =>
    obtain ⟨r, hread, hr⟩ := ih
    have hlength := congrArg List.length hr
    simp only [List.length_map] at hlength
    have hs := Reading.step_opening ht (hlength ▸ hroom)
    exact ⟨_, hread.snoc (by simp [ht]) hs, by simp [hr]⟩
  | closing _ ht ih =>
    obtain ⟨r, hread, hr⟩ := ih
    obtain ⟨l, outer, hunclosed, -, houter⟩ := List.map_eq_cons_iff.1 hr
    have hs := Reading.step_closing ht hunclosed
    exact ⟨_, hread.snoc (by simp [ht]) hs, by rw [Reading.map_opening_push]; exact houter⟩

theorem LeavesOpen.length_le {read stack : List Token} (h : LeavesOpen read stack) :
    stack.length ≤ maxNesting := by
  induction h with
  | nil => exact Nat.zero_le _
  | atom _ _ _ _ ih => exact ih
  | opening _ _ hroom _ => exact hroom
  | closing _ _ ih => exact Nat.le_of_succ_le ih

/-- The fault of some tokens is what they are rejected for. -/
theorem Blames.exists_error {tokens : List Token} {c : Complaint} (h : Blames tokens c) :
    ∃ e, Program.ofTokens tokens = .error e ∧ e.complaint = c := by
  cases h with
  | @closing read later t hsplit hopen ht =>
    obtain ⟨r, hread, hr⟩ := hopen.exists_reading
    have hs := Reading.step_closing_nil ht (List.map_eq_nil_iff.1 hr)
    refine ⟨⟨.unexpectedClosing, t.position⟩, ?_, rfl⟩
    rw [hsplit, hread, Reading.read_cons (by simp [ht]), hs]
    rfl
  | @tooDeep read later stack t hsplit hopen ht hfull =>
    obtain ⟨r, hread, hr⟩ := hopen.exists_reading
    have hlength := congrArg List.length hr
    simp only [List.length_map] at hlength
    have hs := Reading.step_opening_full ht (hlength.trans hfull)
    refine ⟨⟨.nestedTooDeeply, t.position⟩, ?_, rfl⟩
    rw [hsplit, hread, Reading.read_cons (by simp [ht]), hs]
    rfl
  | @missing o stack hopen =>
    obtain ⟨r, hread, hr⟩ := hopen.exists_reading
    obtain ⟨l, outer, hunclosed, hl, -⟩ := List.map_eq_cons_iff.1 hr
    refine ⟨⟨.missingClosing, o.position⟩, ?_, rfl⟩
    have hfinish := hread []
    rw [List.append_nil] at hfinish
    simp only [hfinish, Reading.read, Reading.finish, hunclosed, hl]

/-- Tokens have a fault, or they leave some parentheses open. -/
theorem blames_or_leavesOpen {read stack : List Token} (h : LeavesOpen read stack)
    (later : List Token) (hlater : ∀ t ∈ later, t.kind ≠ .finish) :
    (∃ c, Blames (read ++ later) c) ∨ ∃ stack, LeavesOpen (read ++ later) stack := by
  induction later generalizing read stack with
  | nil => exact .inr ⟨stack, by rwa [List.append_nil]⟩
  | cons t later ih =>
    have hlater' := fun t ht => hlater t (List.mem_cons_of_mem _ ht)
    by_cases hopening : t.kind = .opening
    · rcases h.length_le.lt_or_eq with hroom | hfull
      · rw [List.append_cons]
        exact ih (h.opening hopening hroom) hlater'
      · exact .inl ⟨_, .tooDeep rfl h hopening hfull⟩
    by_cases hclosing : t.kind = .closing
    · cases stack with
      | nil => exact .inl ⟨_, .closing rfl h hclosing⟩
      | cons o stack =>
        rw [List.append_cons]
        exact ih (h.closing hclosing) hlater'
    rw [List.append_cons]
    exact ih (h.atom hopening hclosing (hlater t List.mem_cons_self)) hlater'

theorem ParseFault.message_injective : Function.Injective ParseFault.message := by
  intro fault fault' h
  cases fault <;> cases fault' <;> first | rfl | exact absurd h (by decide)

theorem ParseError.complaint_injective : Function.Injective ParseError.complaint := by
  intro e e' h
  obtain ⟨hposition, hmessage⟩ := Complaint.mk.inj h
  exact congrArg₂ ParseError.mk (ParseFault.message_injective hmessage) hposition

/-- Tokens are rejected for their first fault. -/
theorem ofTokens_eq_error_iff {tokens : List Token} (htokens : ∀ t ∈ tokens, t.kind ≠ .finish)
    (e : ParseError) : Program.ofTokens tokens = .error e ↔ Blames tokens e.complaint := by
  constructor
  · intro h
    rcases blames_or_leavesOpen .nil tokens htokens with ⟨c, hc⟩ | ⟨stack, hopen⟩
    · obtain ⟨e', he', rfl⟩ := hc.exists_error
      cases h.symm.trans he'
      exact hc
    · cases stack with
      | nil =>
        obtain ⟨r, hread, hr⟩ := hopen.exists_reading
        have hfinish := hread []
        rw [List.append_nil, List.nil_append, Reading.read, Reading.finish,
          List.map_eq_nil_iff.1 hr] at hfinish
        cases h.symm.trans hfinish
      | cons o stack =>
        have hc : Blames tokens _ := .missing hopen
        obtain ⟨e', he', hcomplaint⟩ := hc.exists_error
        cases h.symm.trans he'
        exact hcomplaint ▸ hc
  · intro h
    obtain ⟨e', he', hcomplaint⟩ := h.exists_error
    rwa [← ParseError.complaint_injective hcomplaint]

/-! ## Places in the text -/

/-- Going on in a text, the position grows. -/
theorem before_positionAfter_append (before : List Char) (c : Char) (text : List Char) :
    (positionAfter before).Before (positionAfter (before ++ c :: text)) := by
  induction text generalizing before c with
  | nil =>
    rw [← after_positionAfter]
    exact Position.before_after _ c
  | cons d text ih =>
    rw [List.append_cons]
    refine Position.Before.trans ?_ (ih (before ++ [c]) d)
    rw [← after_positionAfter]
    exact Position.before_after _ c

theorem positionAfter_ne (before : List Char) (c : Char) (text : List Char) :
    positionAfter before ≠ positionAfter (before ++ c :: text) := by
  intro heq
  have hlt := before_positionAfter_append before c text
  rw [← heq, Position.Before] at hlt
  omega

/-- A position names one place of a text. -/
theorem positionAfter_inj {before before' text : List Char} (h : before <+: text)
    (h' : before' <+: text) (heq : positionAfter before = positionAfter before') :
    before = before' := by
  rcases List.prefix_or_prefix_of_prefix h h' with ⟨more, rfl⟩ | ⟨more, rfl⟩
  · cases more with
    | nil => simp
    | cons c more => exact absurd heq (positionAfter_ne _ c more)
  · cases more with
    | nil => simp
    | cons c more => exact absurd heq.symm (positionAfter_ne _ c more)

theorem CutsInto.lexeme {text : List Char} {cut : Cut} (h : CutsInto text cut) {p : Piece}
    (hp : p ∈ cut.pieces) : ∃ rest, Lexeme p.lexeme rest p.kind := by
  induction h with
  | finish | unclosed => cases hp
  | piece _ hlexeme _ ih =>
    rcases List.mem_cons.1 hp with rfl | hp
    · exact ⟨_, hlexeme⟩
    · exact ih hp

/-- A token stands where its lexeme does. -/
theorem exists_piece_of_mem_tokensAfter {before : List Char} {pieces : List Piece} {t : Token}
    (h : t ∈ tokensAfter before pieces) :
    ∃ p ∈ pieces, t.kind = p.kind ∧ ∃ front later, t.position = positionAfter front ∧
      before ++ pieces.flatMap Piece.text = front ++ p.lexeme ++ later := by
  induction pieces generalizing before with
  | nil => cases h
  | cons p pieces ih =>
    rcases List.mem_cons.1 h with rfl | h
    · exact ⟨p, List.mem_cons_self, rfl, before ++ p.blanks, pieces.flatMap Piece.text, rfl,
        by simp [Piece.text]⟩
    · obtain ⟨q, hq, hkind, front, later, hposition, hsplit⟩ := ih h
      exact ⟨q, List.mem_cons_of_mem _ hq, hkind, front, later, hposition, by simpa using hsplit⟩

/-- The character that a fault is about. -/
def ParseFault.culprit : ParseFault → Char
  | unterminatedString => '"'
  | unexpectedClosing => ')'
  | nestedTooDeeply => '('
  | missingClosing => '('

theorem LeavesOpen.mem {read stack : List Token} (h : LeavesOpen read stack) {o : Token}
    (ho : o ∈ stack) : o ∈ read ∧ o.kind = .opening := by
  induction h with
  | nil => cases ho
  | atom _ _ _ _ ih => exact ⟨List.mem_append_left _ (ih ho).1, (ih ho).2⟩
  | opening _ ht _ ih =>
    rcases List.mem_cons.1 ho with rfl | ho
    · exact ⟨by simp, ht⟩
    · exact ⟨List.mem_append_left _ (ih ho).1, (ih ho).2⟩
  | closing _ _ ih =>
    have ho := ih (List.mem_cons_of_mem _ ho)
    exact ⟨List.mem_append_left _ ho.1, ho.2⟩

/-- What is blamed is a token of the kind that the message names. -/
theorem Blames.exists_token {tokens : List Token} {e : ParseError}
    (h : Blames tokens e.complaint) :
    ∃ t ∈ tokens, e.position = t.position ∧
      (t.kind = .closing ∧ e.fault.culprit = ')' ∨ t.kind = .opening ∧ e.fault.culprit = '(') := by
  generalize hc : e.complaint = c at h
  cases h with
  | @closing read later t hsplit hopen ht =>
    obtain rfl : e = ⟨.unexpectedClosing, t.position⟩ := ParseError.complaint_injective hc
    exact ⟨t, by simp [hsplit], rfl, .inl ⟨ht, rfl⟩⟩
  | @tooDeep read later stack t hsplit hopen ht hfull =>
    obtain rfl : e = ⟨.nestedTooDeeply, t.position⟩ := ParseError.complaint_injective hc
    exact ⟨t, by simp [hsplit], rfl, .inr ⟨ht, rfl⟩⟩
  | @missing o stack hopen =>
    obtain rfl : e = ⟨.missingClosing, o.position⟩ := ParseError.complaint_injective hc
    obtain ⟨ho, hkind⟩ := hopen.mem List.mem_cons_self
    exact ⟨o, ho, rfl, .inr ⟨hkind, rfl⟩⟩

theorem Lexeme.eq_of_parenthesis {lexeme rest : List Char} {kind : TokenKind}
    (h : Lexeme lexeme rest kind) :
    (kind = .closing → lexeme = [')']) ∧ (kind = .opening → lexeme = ['(']) := by
  cases h <;> simp

/-! ## Texts -/

theorem CutsInto.kind_ne_finish {text : List Char} {cut : Cut} (h : CutsInto text cut)
    {t : Token} (ht : t ∈ tokensAfter [] cut.pieces) : t.kind ≠ .finish := by
  obtain ⟨p, hp, hkind, -⟩ := exists_piece_of_mem_tokensAfter ht
  obtain ⟨rest, hlexeme⟩ := h.lexeme hp
  exact hkind ▸ hlexeme.kind_ne_finish

/-- The tokens of a text, when each string in it is closed. -/
theorem CutsInto.ofText_eq {text : String} {cut : Cut} (h : CutsInto text.toList cut)
    (hclosed : cut.unclosed = []) :
    Program.ofText text = Program.ofTokens (tokensAfter [] cut.pieces) := by
  have hkinds : ∀ t ∈ tokensAfter [] cut.pieces, decide (t.kind ≠ .finish) = true :=
    fun t ht => by simpa using h.kind_ne_finish ht
  have hread := Reading.read_beforeFinish .start
    (tokensAfter [] cut.pieces ++ [⟨.finish, positionAfter cut.text⟩])
  rw [beforeFinish, List.takeWhile_append_of_pos hkinds] at hread
  simp only [ne_eq, not_true_eq_false, decide_false, List.takeWhile_cons_of_neg,
    Bool.false_eq_true, not_false_eq_true, List.append_nil] at hread
  rw [Program.ofText, h.tokenize_eq, Cut.outcomeAfter, if_pos hclosed, List.nil_append]
  exact hread.symm

theorem CutsInto.ofText_eq_error {text : String} {cut : Cut} (h : CutsInto text.toList cut)
    (hunclosed : cut.unclosed ≠ []) :
    Program.ofText text = .error ⟨.unterminatedString, positionAfter cut.before⟩ := by
  rw [Program.ofText, h.tokenize_eq, Cut.outcomeAfter, if_neg hunclosed, List.nil_append]

theorem CutsInto.head_unclosed {text : List Char} {cut : Cut} (h : CutsInto text cut)
    (hunclosed : cut.unclosed ≠ []) : ∃ body, cut.unclosed = '"' :: body := by
  induction h with
  | finish => exact absurd rfl hunclosed
  | unclosed => exact ⟨_, rfl⟩
  | piece _ _ _ ih => exact ih hunclosed

/-- The place of a rejected text that is blamed. -/
theorem CutsInto.exists_place {text : String} {cut : Cut} (h : CutsInto text.toList cut)
    {e : ParseError} (he : Program.ofText text = .error e) :
    ∃ before after, text.toList = before ++ e.fault.culprit :: after ∧
      e.position = positionAfter before := by
  by_cases hclosed : cut.unclosed = []
  · rw [h.ofText_eq hclosed, ofTokens_eq_error_iff fun _ => h.kind_ne_finish] at he
    obtain ⟨t, ht, hposition, hkind⟩ := he.exists_token
    obtain ⟨p, hp, hpiece, front, later, hfront, hsplit⟩ := exists_piece_of_mem_tokensAfter ht
    obtain ⟨rest, hlexeme⟩ := h.lexeme hp
    have hculprit : p.lexeme = [e.fault.culprit] := by
      rcases hkind with ⟨hkind, hculprit⟩ | ⟨hkind, hculprit⟩ <;> rw [hculprit]
      · exact hlexeme.eq_of_parenthesis.1 (hpiece ▸ hkind)
      · exact hlexeme.eq_of_parenthesis.2 (hpiece ▸ hkind)
    refine ⟨front, later ++ cut.blanks, ?_, hposition.trans hfront⟩
    rw [List.nil_append, hculprit] at hsplit
    rw [← h.text_eq, Cut.text, Cut.before, hsplit, hclosed]
    simp
  · rw [h.ofText_eq_error hclosed] at he
    cases he
    obtain ⟨body, hbody⟩ := h.head_unclosed hclosed
    exact ⟨cut.before, body, by rw [← h.text_eq, Cut.text, hbody]; rfl, rfl⟩

/-- What a text that is cut into these pieces is rejected for. -/
theorem CutsInto.rejected_iff {text : String} {cut : Cut} (h : CutsInto text.toList cut)
    (e : ParseError) : Program.ofText text = .error e ↔
      if cut.unclosed = [] then Blames (tokensAfter [] cut.pieces) e.complaint
      else e.complaint = ⟨positionAfter cut.before, "Unterminated string literal"⟩ := by
  split
  · next hclosed => rw [h.ofText_eq hclosed, ofTokens_eq_error_iff fun _ => h.kind_ne_finish]
  · next hclosed =>
    rw [h.ofText_eq_error hclosed, Except.error.injEq, eq_comm,
      ← ParseError.complaint_injective.eq_iff]
    rfl

/-- A rejected text is rejected for the string in it that is never closed, or else for the first
fault of its tokens. The position is the one of the quote or parenthesis that is blamed, and of no
other character. The complaint of an expression that is missing at the end does not arise. -/
theorem ofText_eq_error_iff (text : String) (e : ParseError) :
    (Program.ofText text = .error e ↔ ∃ cut, CutsInto text.toList cut ∧
      if cut.unclosed = [] then Blames (tokensAfter [] cut.pieces) e.complaint
      else e.complaint = ⟨positionAfter cut.before, "Unterminated string literal"⟩) ∧
    (Program.ofText text = .error e →
      ∃ before after, text.toList = before ++ e.fault.culprit :: after ∧
        ∀ before', before' <+: text.toList →
          (e.position = positionAfter before' ↔ before' = before)) ∧
    (Program.ofText text = .error e → e.complaint.message ≠ "Unexpected end of input") ∧
    ∀ tokens, Descent.ofTokens tokens = (Program.ofTokens tokens).mapError ParseError.complaint ∧
      ∀ c, Descent.ofTokens tokens = .error c → c.message ≠ "Unexpected end of input" := by
  have hmessage : ∀ fault : ParseFault, fault.message ≠ "Unexpected end of input" := by
    intro fault
    cases fault <;> decide
  obtain ⟨cut, hcut⟩ := exists_cutsInto text.toList
  refine ⟨?_, fun he => ?_, fun _ => hmessage e.fault,
    fun tokens => ⟨Descent.ofTokens_eq tokens, fun c hc => ?_⟩⟩
  · rw [hcut.rejected_iff]
    refine ⟨fun h => ⟨cut, hcut, h⟩, ?_⟩
    rintro ⟨cut', hcut', h⟩
    rwa [hcut.unique hcut']
  · obtain ⟨before, after, hsplit, hposition⟩ := hcut.exists_place he
    refine ⟨before, after, hsplit, fun before' hbefore' => ⟨fun h => ?_, ?_⟩⟩
    · exact positionAfter_inj hbefore' ⟨_, hsplit.symm⟩ (h.symm.trans hposition)
    · rintro rfl
      exact hposition
  · rw [Descent.ofTokens_eq] at hc
    cases h : Program.ofTokens tokens with
    | ok data => rw [h] at hc; cases hc
    | error e' =>
      rw [h] at hc
      cases hc
      exact hmessage e'.fault

end GuardedLisp.Source
