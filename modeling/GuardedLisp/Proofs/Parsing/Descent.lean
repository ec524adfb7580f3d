import GuardedLisp.Proofs.Parsing.Flattening

/-!
# Reading by descent

The same language by a recursive procedure: an expression is an atom, or a `(`
and expressions up to its `)`, one call for each list inside the other ones. An
expression that starts at the end of the tokens is a fault of its own here,
`Unexpected end of input`, but no caller asks for one there: the procedure
answers as the reader with a stack does (`Descent.ofTokens_eq`).
-/

namespace GuardedLisp.Source

/-- What is said of a text, and of which place in it. -/
structure Complaint where
  position : Position
  message : String
  deriving DecidableEq

def ParseError.complaint (e : ParseError) : Complaint := ⟨e.position, e.fault.message⟩

namespace Descent

mutual

/-- Reads one expression inside `depth` open lists; `last` is the last token of all. -/
def expression (last : Token) (depth : Nat) (tokens : List Token) :
    Except Complaint (Datum × { rest : List Token // rest.length < tokens.length }) :=
  match tokens with
  | [] => .error ⟨last.position, "Unexpected end of input"⟩
  | t :: ts =>
    match t.kind with
    | .finish => .error ⟨t.position, "Unexpected end of input"⟩
    | .closing => .error ⟨t.position, "Unexpected )"⟩
    | .number x => .ok (.number x, ⟨ts, Nat.lt_succ_self _⟩)
    | .string s => .ok (.string s, ⟨ts, Nat.lt_succ_self _⟩)
    | .symbol s => .ok (.symbol s, ⟨ts, Nat.lt_succ_self _⟩)
    | .opening =>
      if maxNesting ≤ depth then .error ⟨t.position, "Expression nested too deeply"⟩
      else
        match items last t.position (depth + 1) [] ts with
        | .error c => .error c
        | .ok (found, ⟨rest, hrest⟩) => .ok (.list found, ⟨rest, Nat.lt_succ_of_le hrest⟩)
termination_by (tokens.length, 0)

/-- Reads the expressions up to a `)`; `done` are those read so far, newest first. -/
def items (last : Token) (opening : Position) (depth : Nat) (done : List Datum)
    (tokens : List Token) :
    Except Complaint (List Datum × { rest : List Token // rest.length ≤ tokens.length }) :=
  match tokens with
  | [] => .error ⟨opening, "Unexpected end of input, expected )"⟩
  | t :: ts =>
    if t.kind = .finish then .error ⟨opening, "Unexpected end of input, expected )"⟩
    else if t.kind = .closing then .ok (done.reverse, ⟨ts, Nat.le_succ _⟩)
    else
      match expression last depth (t :: ts) with
      | .error c => .error c
      | .ok (d, ⟨rest, hrest⟩) =>
        match items last opening depth (d :: done) rest with
        | .error c => .error c
        | .ok (found, ⟨later, hlater⟩) => .ok (found, ⟨later, by omega⟩)
termination_by (tokens.length, 1)

end

/-- Reads expressions up to the end; `done` are those read so far, newest first. -/
def program (last : Token) (done : List Datum) (tokens : List Token) :
    Except Complaint (List Datum) :=
  match tokens with
  | [] => .ok done.reverse
  | t :: ts =>
    if t.kind = .finish then .ok done.reverse
    else
      match expression last 0 (t :: ts) with
      | .error c => .error c
      | .ok (d, ⟨rest, _hrest⟩) => program last (d :: done) rest
termination_by tokens.length
decreasing_by exact _hrest

/-- The program of some tokens. The end that is missing would be at the last token. -/
def ofTokens (tokens : List Token) : Except Complaint (List Datum) :=
  program (tokens.getLast?.getD ⟨.finish, .start⟩) [] tokens

/-! ## The stack and the descent -/

/-- What the reader with a stack answers, as a complaint. -/
def answer (r : Reading) (tokens : List Token) : Except Complaint (List Datum) :=
  (r.read tokens).mapError ParseError.complaint

mutual

/-- An expression is read as the stack reads it, unless it is missing: at a `)` inside a list, or
at the end. -/
theorem answer_expression (last : Token) (r : Reading) (t : Token) (ts : List Token)
    (hfinish : t.kind ≠ .finish) (hclosing : t.kind = .closing → r.unclosed = []) :
    answer r (t :: ts) =
      match expression last r.unclosed.length (t :: ts) with
      | .error c => .error c
      | .ok (d, ⟨rest, _⟩) => answer (r.push d) rest := by
  rw [expression]
  cases hkind : t.kind with
  | finish => exact absurd hkind hfinish
  | closing => simp [answer, Reading.read, hkind, Reading.closeList, hclosing hkind]; rfl
  | opening =>
    by_cases hdeep : maxNesting ≤ r.unclosed.length
    · simp [answer, Reading.read, hkind, Reading.openList, Nat.not_lt.2 hdeep, hdeep]; rfl
    · have hopen : answer r (t :: ts) =
          answer ⟨⟨t.position, []⟩ :: r.unclosed, r.finished⟩ ts := by
        simp [answer, Reading.read, hkind, Reading.openList, Nat.not_le.1 hdeep, Except.bind]
      rw [hopen, answer_items last]
      simp only [hdeep, if_false]
      cases items last t.position (r.unclosed.length + 1) [] ts <;> rfl
  | _ => simp [answer, Reading.read, hkind]
termination_by (ts.length + 1, 0)

theorem answer_items (last : Token) (opening : Position) (done : List Datum)
    (outer : List OpenList) (finished : List Datum) (tokens : List Token) :
    answer ⟨⟨opening, done⟩ :: outer, finished⟩ tokens =
      match items last opening (outer.length + 1) done tokens with
      | .error c => .error c
      | .ok (found, ⟨rest, _⟩) => answer (Reading.push ⟨outer, finished⟩ (.list found)) rest := by
  rw [items.eq_def]
  cases tokens with
  | nil => rfl
  | cons t ts =>
    by_cases hfinish : t.kind = .finish
    · simp [answer, Reading.read, hfinish]; rfl
    by_cases hclosing : t.kind = .closing
    · simp [answer, Reading.read, hclosing, Reading.closeList, Except.bind]
    rw [answer_expression last _ t ts hfinish (fun h => absurd h hclosing)]
    simp only [hfinish, hclosing, if_false, List.length_cons]
    cases h : expression last (outer.length + 1) (t :: ts) with
    | error c => rfl
    | ok found =>
      obtain ⟨d, rest, hrest⟩ := found
      have hitems := answer_items last opening (d :: done) outer finished rest
      simp only [Reading.push]
      rw [hitems]
      cases items last opening (outer.length + 1) (d :: done) rest <;> rfl
termination_by (tokens.length, 1)

end

theorem answer_program (last : Token) (done : List Datum) (tokens : List Token) :
    answer ⟨[], done⟩ tokens = program last done tokens := by
  rw [program.eq_def]
  cases tokens with
  | nil => rfl
  | cons t ts =>
    by_cases hfinish : t.kind = .finish
    · simp [answer, Reading.read, hfinish]; rfl
    rw [answer_expression last _ t ts hfinish (fun _ => rfl)]
    simp only [hfinish, if_false, List.length_nil]
    cases h : expression last 0 (t :: ts) with
    | error c => rfl
    | ok found =>
      obtain ⟨d, rest, hrest⟩ := found
      exact answer_program last (d :: done) rest
termination_by tokens.length
decreasing_by exact hrest

/-- The descent reads what the stack reads, and complains of what the stack complains of. -/
theorem ofTokens_eq (tokens : List Token) :
    ofTokens tokens = (Program.ofTokens tokens).mapError ParseError.complaint :=
  (answer_program _ [] tokens).symm

end Descent

end GuardedLisp.Source
