import GuardedLisp.Proofs.Reading

/-!
# Programs and their tokens

A program can be written back as tokens: an atom is one token, a list its items
between parentheses. The reader accepts what is such a program nested within the
limit, and gives that program (`ofTokens_eq_ok_iff`). In one direction the
tokens read so far are always those of the data held so far (`Reading.written`);
in the other one the tokens of a datum are read as that datum
(`Reading.read_flatten`).
-/

namespace GuardedLisp.Source

namespace Datum

mutual

/-- The tokens of a datum. -/
def flatten : Datum → List TokenKind
  | number x => [.number x]
  | string s => [.string s]
  | symbol name => [.symbol name]
  | list items => .opening :: flattenAll items ++ [.closing]

/-- The tokens of some data, one after the other. -/
def flattenAll : List Datum → List TokenKind
  | [] => []
  | d :: ds => d.flatten ++ flattenAll ds

end

theorem flattenAll_append (ds es : List Datum) :
    flattenAll (ds ++ es) = flattenAll ds ++ flattenAll es := by
  induction ds with
  | nil => rfl
  | cons d ds ih => simp [flattenAll, ih]

theorem flattenAll_singleton (d : Datum) : flattenAll [d] = d.flatten := by
  simp [flattenAll]

theorem head_flatten (d : Datum) : ∃ k ks, d.flatten = k :: ks ∧ k ≠ .closing := by
  cases d <;> exact ⟨_, _, rfl, TokenKind.noConfusion⟩

mutual

/-- The tokens of a datum say where it ends. -/
theorem flatten_append_inj (d d' : Datum) {rest rest' : List TokenKind}
    (h : d.flatten ++ rest = d'.flatten ++ rest') : d = d' ∧ rest = rest' := by
  cases d <;> cases d'
  case list.list items items' =>
    have hinner : flattenAll items ++ .closing :: rest =
        flattenAll items' ++ .closing :: rest' := by simpa [flatten] using h
    obtain ⟨rfl, hrest⟩ := flattenAll_append_inj items items' (by simp) (by simp) hinner
    exact ⟨rfl, (List.cons.inj hrest).2⟩
  all_goals simp_all [flatten]

/-- The tokens of some data are not those of others, when a closing parenthesis or nothing
follows. -/
theorem flattenAll_append_inj (ds ds' : List Datum) {rest rest' : List TokenKind}
    (hrest : ∀ k ∈ rest.head?, k = .closing) (hrest' : ∀ k ∈ rest'.head?, k = .closing)
    (h : flattenAll ds ++ rest = flattenAll ds' ++ rest') : ds = ds' ∧ rest = rest' := by
  match ds, ds' with
  | [], [] => exact ⟨rfl, h⟩
  | [], d' :: ds' =>
    obtain ⟨k, ks, hk, hne⟩ := d'.head_flatten
    have h : rest = d'.flatten ++ flattenAll ds' ++ rest' := h
    exact absurd (hrest k (by simp [h, hk])) hne
  | d :: ds, [] =>
    obtain ⟨k, ks, hk, hne⟩ := d.head_flatten
    have h : d.flatten ++ flattenAll ds ++ rest = rest' := h
    exact absurd (hrest' k (by simp [← h, hk])) hne
  | d :: ds, d' :: ds' =>
    simp only [flattenAll, List.append_assoc] at h
    obtain ⟨hd, hlater⟩ := flatten_append_inj d d' h
    obtain ⟨hds, hends⟩ := flattenAll_append_inj ds ds' hrest hrest' hlater
    exact ⟨by rw [hd, hds], hends⟩

end

theorem flattenAll_injective {ds ds' : List Datum} (h : flattenAll ds = flattenAll ds') :
    ds = ds' := by
  have hnil : ∀ k ∈ ([] : List TokenKind).head?, k = .closing := by simp
  exact (flattenAll_append_inj ds ds' hnil hnil (by rw [h])).1

end Datum

/-- The tokens in front of the first one that says the program is finished. -/
def beforeFinish (tokens : List Token) : List Token :=
  tokens.takeWhile fun t => t.kind ≠ .finish

namespace Reading

/-! ## Steps -/

/-- Reads one token that does not say the program is finished. -/
def step (r : Reading) (t : Token) : Except ParseError Reading :=
  match t.kind with
  | .finish => .ok r
  | .opening => r.openList t.position
  | .closing => r.closeList t.position
  | .number x => .ok (r.push (.number x))
  | .string s => .ok (r.push (.string s))
  | .symbol s => .ok (r.push (.symbol s))

theorem read_finish {t : Token} (ht : t.kind = .finish) (r : Reading) (ts : List Token) :
    r.read (t :: ts) = r.finish := by
  rw [read, ht]

theorem read_cons {t : Token} (ht : t.kind ≠ .finish) (r : Reading) (ts : List Token) :
    r.read (t :: ts) = (r.step t).bind fun s => s.read ts := by
  cases hkind : t.kind <;> simp_all [read, step, Except.bind]

theorem read_beforeFinish (r : Reading) (tokens : List Token) :
    r.read (beforeFinish tokens) = r.read tokens := by
  induction tokens generalizing r with
  | nil => rfl
  | cons t ts ih =>
    by_cases ht : t.kind = .finish
    · rw [read_finish ht]
      simp [beforeFinish, ht, read]
    · have hbefore : beforeFinish (t :: ts) = t :: beforeFinish ts := by simp [beforeFinish, ht]
      simp only [hbefore, read_cons ht, ih]

/-! ## What was read is what is held -/

/-- The tokens of all data held, and of the parentheses that are open. -/
def written (r : Reading) : List TokenKind :=
  Datum.flattenAll r.finished.reverse ++
    r.unclosed.reverse.flatMap fun l => .opening :: Datum.flattenAll l.items.reverse

variable {r s : Reading} {p : Position}

theorem written_push (r : Reading) (d : Datum) : (r.push d).written = r.written ++ d.flatten := by
  obtain ⟨unclosed, finished⟩ := r
  cases unclosed <;>
    simp [push, written, Datum.flattenAll_append, Datum.flattenAll_singleton]

theorem written_openList (h : r.openList p = .ok s) : s.written = r.written ++ [.opening] := by
  unfold openList at h
  split at h
  · cases h
    simp [written, Datum.flattenAll]
  · cases h

theorem written_closeList (h : r.closeList p = .ok s) : s.written = r.written ++ [.closing] := by
  obtain ⟨unclosed, finished⟩ := r
  cases unclosed with
  | nil => cases h
  | cons l outer =>
    cases h
    rw [written_push]
    simp [written, Datum.flatten]

theorem written_finish {data : List Datum} (h : r.finish = .ok data) :
    Datum.flattenAll data = r.written := by
  obtain ⟨unclosed, finished⟩ := r
  cases unclosed with
  | nil =>
    cases h
    simp [written]
  | cons l outer => cases h

theorem written_step {t : Token} (ht : t.kind ≠ .finish) (h : r.step t = .ok s) :
    s.written = r.written ++ [t.kind] := by
  unfold step at h
  cases hkind : t.kind with
  | finish => exact absurd hkind ht
  | opening => rw [hkind] at h; exact written_openList h
  | closing => rw [hkind] at h; exact written_closeList h
  | _ =>
    rw [hkind] at h
    cases h
    exact written_push _ _

theorem flattenAll_of_read {tokens : List Token} {data : List Datum}
    (h : r.read tokens = .ok data) :
    Datum.flattenAll data = r.written ++ (beforeFinish tokens).map Token.kind := by
  induction tokens generalizing r with
  | nil => simpa [beforeFinish] using written_finish h
  | cons t ts ih =>
    by_cases ht : t.kind = .finish
    · rw [read_finish ht] at h
      simpa [beforeFinish, ht] using written_finish h
    · rw [read_cons ht] at h
      cases hs : r.step t with
      | error e => rw [hs] at h; cases h
      | ok s =>
        rw [hs] at h
        rw [ih h, written_step ht hs]
        simp [beforeFinish, ht]

/-! ## What is written is read -/

@[simp] theorem length_unclosed_push (r : Reading) (d : Datum) :
    (r.push d).unclosed.length = r.unclosed.length := by
  obtain ⟨unclosed, finished⟩ := r
  cases unclosed <;> rfl

theorem foldl_push_of_open (l : OpenList) (outer : List OpenList) (finished ds : List Datum) :
    ds.foldl push ⟨l :: outer, finished⟩ =
      ⟨{ l with items := ds.reverse ++ l.items } :: outer, finished⟩ := by
  induction ds generalizing l with
  | nil => rfl
  | cons d ds ih => simp [push, ih]

theorem foldl_push_of_closed (finished ds : List Datum) :
    ds.foldl push ⟨[], finished⟩ = ⟨[], ds.reverse ++ finished⟩ := by
  induction ds generalizing finished with
  | nil => rfl
  | cons d ds ih => simp [push, ih]

mutual

/-- The tokens of a datum are read as that datum, if the lists that are open leave room for it. -/
theorem read_flatten (d : Datum) (r : Reading) {tokens : List Token} (rest : List Token)
    (htokens : tokens.map Token.kind = d.flatten)
    (hroom : d.nesting + r.unclosed.length ≤ maxNesting) :
    r.read (tokens ++ rest) = (r.push d).read rest := by
  cases d with
  | number | string | symbol =>
    obtain ⟨t, rfl, hkind⟩ := List.map_eq_singleton_iff.1 htokens
    simp [read, hkind]
  | list items =>
    obtain ⟨front, close, rfl, hfront, hclose⟩ := List.map_eq_append_iff.1 htokens
    obtain ⟨opening, inner, rfl, hopening, hinner⟩ := List.map_eq_cons_iff.1 hfront
    obtain ⟨closing, rfl, hclosing⟩ := List.map_eq_singleton_iff.1 hclose
    rw [Datum.nesting] at hroom
    have hopen : r.openList opening.position =
        .ok ⟨⟨opening.position, []⟩ :: r.unclosed, r.finished⟩ := by
      rw [openList, if_pos (by omega)]
    have hinside := read_flattenAll items ⟨⟨opening.position, []⟩ :: r.unclosed, r.finished⟩
      (closing :: rest) hinner (by rw [List.length_cons]; omega)
    rw [foldl_push_of_open] at hinside
    simp only [List.cons_append, List.append_assoc, List.nil_append, read, hopening, hopen,
      Except.bind, hinside, hclosing, closeList, List.append_nil, List.reverse_reverse]

theorem read_flattenAll (ds : List Datum) (r : Reading) {tokens : List Token} (rest : List Token)
    (htokens : tokens.map Token.kind = Datum.flattenAll ds)
    (hroom : Datum.nestingOfItems ds + r.unclosed.length ≤ maxNesting) :
    r.read (tokens ++ rest) = (ds.foldl push r).read rest := by
  cases ds with
  | nil =>
    rw [List.map_eq_nil_iff.1 htokens]
    rfl
  | cons d ds =>
    obtain ⟨front, later, rfl, hfront, hlater⟩ := List.map_eq_append_iff.1 htokens
    rw [Datum.nestingOfItems] at hroom
    rw [List.append_assoc, read_flatten d r (later ++ rest) hfront (by omega),
      read_flattenAll ds (r.push d) rest hlater (by rw [length_unclosed_push]; omega),
      List.foldl_cons]

end

end Reading

/-- What is read was written with the tokens in front of the end, and is nested within the
limit. -/
theorem flattenAll_of_ofTokens {tokens : List Token} {data : List Datum}
    (h : Program.ofTokens tokens = .ok data) :
    (beforeFinish tokens).map Token.kind = Datum.flattenAll data ∧
      ∀ d ∈ data, d.nesting ≤ maxNesting :=
  ⟨(Reading.flattenAll_of_read h).symm,
    Reading.Bounded.read (r := .start) ⟨trivial, by simp [Reading.start]⟩ h⟩

/-- The tokens of data that are nested within the limit are read as these data. -/
theorem ofTokens_of_flattenAll {tokens : List Token} {data : List Datum}
    (htokens : (beforeFinish tokens).map Token.kind = Datum.flattenAll data)
    (hnesting : ∀ d ∈ data, d.nesting ≤ maxNesting) : Program.ofTokens tokens = .ok data := by
  have hroom := Datum.nestingOfItems_le hnesting
  have hread := Reading.read_flattenAll data .start [] htokens (by simpa [Reading.start])
  rw [List.append_nil, Reading.read_beforeFinish, Reading.start,
    Reading.foldl_push_of_closed] at hread
  simpa [Program.ofTokens, Reading.start, Reading.read, Reading.finish] using hread

/-- The reader accepts the tokens of the programs that are nested within the limit, and reads
them as those programs. So a token sequence is read in at most one way, a program that is written
as tokens is read back, and what comes after the end makes no difference. -/
theorem ofTokens_eq_ok_iff (tokens : List Token) :
    (∀ data, Program.ofTokens tokens = .ok data ↔
      (beforeFinish tokens).map Token.kind = Datum.flattenAll data ∧
        ∀ d ∈ data, d.nesting ≤ maxNesting) ∧
    (∀ data data', (beforeFinish tokens).map Token.kind = Datum.flattenAll data →
      (beforeFinish tokens).map Token.kind = Datum.flattenAll data' → data = data') ∧
    Program.ofTokens tokens = Program.ofTokens (beforeFinish tokens) := by
  refine ⟨fun data => ⟨flattenAll_of_ofTokens, ?_⟩, fun data data' h h' => ?_,
    (Reading.read_beforeFinish .start tokens).symm⟩
  · rintro ⟨htokens, hnesting⟩
    exact ofTokens_of_flattenAll htokens hnesting
  · exact Datum.flattenAll_injective (h.symm.trans h')

end GuardedLisp.Source
