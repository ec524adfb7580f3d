import GuardedLisp.Proofs.Lexing.Grammar
import GuardedLisp.Source.Cursor

/-!
# Walks over a text

A walk is a sequence of requests to a cursor. What it dropped, what the buffer holds
and what nobody has looked at make up the text, in this order, and every position
is the one that its place in the text has (`Reads`): one request keeps this
(`Reads.perform`), so a walk does (`walk_conserves`). A step and a look ahead find
what stands behind the index, buffered or not; passing over a run of characters ends
as stepping over them one by one does.
-/

namespace GuardedLisp.Source

namespace Cursor

/-! ## Requests -/

inductive Request where
  | next
  | peek
  | current
  | index
  | seek (index : Int)
  | lexemeStart
  | discard
  | extract
  | accept (wanted : Char)
  | acceptAny (wanted : List Char)
  | skipAll (wanted : List Char)
  | skipUntil (stops : List Char)

inductive Reply where
  | char (found : Option Char)
  | index (i : Int)
  | truth (b : Bool)
  | position (p : Position)
  | text (s : String)
  | done
  deriving DecidableEq

def perform (c : Cursor) : Request → Reply × Cursor
  | .next => (.char c.next.1, c.next.2)
  | .peek => (.char c.peek.1, c.peek.2)
  | .current => (.char c.current, c)
  | .index => (.index c.index, c)
  | .seek i => (.truth (c.seek i).1, (c.seek i).2)
  | .lexemeStart => (.position c.lexemeStart.1, c.lexemeStart.2)
  | .discard => (.done, c.discard)
  | .extract => (.text c.extract.1, c.extract.2)
  | .accept a => (.truth (c.accept a).1, (c.accept a).2)
  | .acceptAny as => (.char (c.acceptAny as).1, (c.acceptAny as).2)
  | .skipAll as => (.truth (c.skipAll as).1, (c.skipAll as).2)
  | .skipUntil as => (.truth (c.skipUntil as).1, (c.skipUntil as).2)

/-- The cursor at the end of a walk. -/
def after (c : Cursor) : List Request → Cursor
  | [] => c
  | r :: rs => (c.perform r).2.after rs

def replies (c : Cursor) : List Request → List Reply
  | [] => []
  | r :: rs => (c.perform r).1 :: (c.perform r).2.replies rs

/-- What a request drops: up to the current character if nothing is to be returned, else what is
returned. -/
def drops (c : Cursor) : Request → List Char
  | .discard => c.held.take (c.index + 1).toNat
  | .extract => c.extract.1.toList
  | _ => []

/-- What the requests of a walk drop, one after the other. -/
def dropped (c : Cursor) : List Request → List Char
  | [] => []
  | r :: rs => c.drops r ++ (c.perform r).2.dropped rs

/-! ## Rounds -/

/-- Rounds of `step` until one is the last: whether others came before it, and the cursor behind
it. -/
inductive Loops (step : Cursor → Bool × Cursor) : Cursor → Bool × Cursor → Prop where
  | stop {c d : Cursor} (h : step c = (false, d)) : Loops step c (false, d)
  | again {c d e : Cursor} {b : Bool} (h : step c = (true, d)) (hd : Loops step d (b, e)) :
    Loops step c (true, e)

theorem Loops.unique {step : Cursor → Bool × Cursor} {c : Cursor} {r r' : Bool × Cursor}
    (h : Loops step c r) (h' : Loops step c r') : r = r' := by
  induction h generalizing r' with
  | stop hc =>
    cases h' with
    | stop hc' => rw [hc] at hc'; cases hc'; rfl
    | again hc' => rw [hc] at hc'; cases hc'
  | again hc _ ih =>
    cases h' with
    | stop hc' => rw [hc] at hc'; cases hc'
    | again hc' hd' => rw [hc] at hc'; cases hc'; rw [Prod.mk.inj (ih hd') |>.2]

/-- Steps onto the next character if it is wanted. -/
def acceptRound (wanted : List Char) (c : Cursor) : Bool × Cursor :=
  ((c.acceptAny wanted).1.isSome, (c.acceptAny wanted).2)

/-- Looks at the next character and steps onto it unless it is one to stop at. -/
def passRound (stops : List Char) (c : Cursor) : Bool × Cursor :=
  let (found, peeked) := c.peek
  match found with
  | some a => if a ∈ stops then (false, peeked) else (true, peeked.next.2)
  | none => (false, peeked)

/-- Rounds that step onto the next character while it has the property go to the end of the run. -/
theorem loops_passWhile {step : Cursor → Bool × Cursor} {p : Char → Bool}
    (hstep : ∀ c : Cursor, -1 ≤ c.index → step c =
      if (c.ahead.head?.filter p).isSome then (true, c.next.2) else (false, c.peek.2))
    {c : Cursor} (hc : -1 ≤ c.index) : Loops step c (c.passWhile p) := by
  generalize hrun : c.ahead.takeWhile p = run
  induction run generalizing c with
  | nil =>
    have hhead : c.ahead.head?.filter p = none := by
      cases h : c.ahead with
      | nil => rfl
      | cons a as =>
        rw [h, List.takeWhile_cons] at hrun
        have ha : p a = false := by
          by_contra ha
          simp [ha] at hrun
        simp [ha]
    have hlast : step c = (false, c.peek.2) := by rw [hstep c hc, hhead]; rfl
    have hend : c.passWhile p = (false, c.peek.2) := by
      rw [passWhile_eq, hrun]
      exact congrArg (Prod.mk _ ∘ c.stand) (Int.add_zero _)
    rw [hend]
    exact .stop hlast
  | cons a run ih =>
    obtain ⟨as, has⟩ : ∃ as, c.ahead = a :: as := by
      cases h : c.ahead with
      | nil => rw [h] at hrun; cases hrun
      | cons b bs =>
        rw [h, List.takeWhile_cons] at hrun
        split at hrun
        · cases hrun; exact ⟨bs, rfl⟩
        · cases hrun
    rw [has, List.takeWhile_cons] at hrun
    have ha : p a = true := by
      by_contra ha
      simp [ha] at hrun
    obtain ⟨hindex, hahead⟩ := ahead_next hc has
    rw [if_pos ha, List.cons.injEq] at hrun
    have hfirst : step c = (true, c.next.2) := by simp [hstep c hc, has, ha]
    have hrest := ih (c := c.next.2) (by omega) (by rw [hahead, hrun.2])
    have hend : c.passWhile p = (true, (c.next.2.passWhile p).2) := by
      have hwhole : (c.ahead.takeWhile p).length = run.length + 1 := by simp [has, ha, hrun.2]
      have hplace : c.index + (run.length + 1 : Nat) = c.index + 1 + run.length := by omega
      rw [passWhile_eq, passWhile_eq, hwhole, hahead, hrun.2, hindex, hplace]
      exact congrArg (Prod.mk true) (c.stand_fill (by omega) _).symm
    rw [hend]
    exact .again hfirst hrest

theorem next_peek (c : Cursor) : c.peek.2.next = c.next := by
  have hfill : c.peek.2.fill (c.index + 1) = { c.fill (c.index + 1) with index := c.index } :=
    congrArg (fun d : Cursor => { d with index := c.index }) (c.fill_fill (Int.le_refl _))
  unfold next
  rw [show c.peek.2.index = c.index from rfl, hfill]

theorem loops_skipAll {c : Cursor} (hc : -1 ≤ c.index) (wanted : List Char) :
    Loops (acceptRound wanted) c (c.skipAll wanted) := by
  refine loops_passWhile (fun d hd => ?_) hc
  rw [acceptRound, acceptAny, acceptIf_eq hd]
  split <;> simp_all

theorem loops_skipUntil {c : Cursor} (hc : -1 ≤ c.index) (stops : List Char) :
    Loops (passRound stops) c (c.skipUntil stops) := by
  refine loops_passWhile (fun d hd => ?_) hc
  have hpeek : d.peek = (d.ahead.head?, d.peek.2) := congrArg (·, d.peek.2) (next_eq_head hd)
  rw [passRound, hpeek]
  cases d.ahead.head? with
  | none => rfl
  | some a => by_cases ha : a ∈ stops <;> simp [ha, next_peek]

/-! ## Dropping -/

/-- A located character stands where those in front of it lead to. -/
theorem position_locate {start : Position} {cs : List Char} {i : Nat} {a : Char} {p : Position}
    (h : (start.locate cs)[i]? = some (a, p)) : p = start.advance (cs.take i) := by
  induction cs generalizing start i with
  | nil => cases h
  | cons b bs ih =>
    cases i with
    | zero => cases h; rfl
    | succ i => exact ih h

/-- What is returned is what dropping the lexeme drops. -/
theorem drops_extract (c : Cursor) : c.drops .extract = c.drops .discard := by
  have hheld := take_lexemeLength c
  simp only [held, ← List.map_take] at hheld
  simp only [drops, extract, String.toList_ofList, held, ← List.map_take, hheld]

/-! ## What a walk keeps -/

/-- The cursor stands in this text, of which it dropped a part. -/
structure Reads (text done : List Char) (c : Cursor) : Prop where
  split : text = done ++ c.remaining
  located : c.buffer.toList = (positionAfter done).locate c.held
  upcoming : c.upcoming = positionAfter (done ++ c.held)
  index_ge : -1 ≤ c.index
  index_le : c.index ≤ c.buffer.size

namespace Reads

variable {text done : List Char} {c : Cursor}

theorem ofText (text : String) : Reads text.toList [] (ofText text) :=
  ⟨rfl, rfl, rfl, Int.le_refl _, by simp [Cursor.ofText]⟩

theorem move (h : Reads text done c) {i : Int} (hge : -1 ≤ i) (hle : i ≤ c.buffer.size) :
    Reads text done { c with index := i } :=
  ⟨h.split, h.located, h.upcoming, hge, hle⟩

theorem fill (h : Reads text done c) (target : Int) : Reads text done (c.fill target) := by
  refine ⟨?_, ?_, ?_, h.index_ge, ?_⟩
  · rw [remaining_fill]; exact h.split
  · have hupcoming := h.upcoming
    rw [← advance_positionAfter] at hupcoming
    rw [held_fill, Position.locate_append, ← h.located, ← hupcoming]
    simp [Cursor.fill]
  · rw [held_fill, ← List.append_assoc, ← advance_positionAfter, ← h.upcoming]
    rfl
  · have := c.size_le_fill target
    have := h.index_le
    simp only [index_fill]
    omega

theorem next (h : Reads text done c) : Reads text done c.next.2 := by
  have := h.index_ge
  exact (h.fill _).move (by omega) (Int.min_le_right _ _)

theorem stand (h : Reads text done c) {i : Int} (hge : -1 ≤ i)
    (hle : i ≤ c.index ∨ i < c.remaining.length) : Reads text done (c.stand i) := by
  refine (h.fill _).move hge ?_
  have hsize : c.remaining.length = (c.fill (i + 1)).buffer.size + (c.fill (i + 1)).rest.length := by
    rw [← length_remaining, remaining_fill]
  have := (h.fill (i + 1)).index_le
  rcases c.lt_size_fill_or (i + 1) with hlt | hrest
  · omega
  · rw [hrest, List.length_nil] at hsize
    rw [index_fill] at this
    omega

theorem peek (h : Reads text done c) : Reads text done c.peek.2 :=
  h.stand h.index_ge (.inl (Int.le_refl _))

theorem acceptIf (h : Reads text done c) (wanted : Char → Bool) :
    Reads text done (c.acceptIf wanted).2 := by
  rw [acceptIf_eq h.index_ge]
  split
  · exact h.next
  · exact h.peek

theorem passWhile (h : Reads text done c) (p : Char → Bool) :
    Reads text done (c.passWhile p).2 := by
  have hge := h.index_ge
  have hrun : (c.ahead.takeWhile p).length ≤ c.ahead.length := (List.takeWhile_prefix p).length_le
  rw [ahead_eq c, List.length_drop, ← ahead_eq] at hrun
  rw [passWhile_eq]
  refine h.stand (by omega) ?_
  omega

theorem discard (h : Reads text done c) :
    Reads text (done ++ c.held.take (c.index + 1).toNat) c.discard := by
  have hparts := List.take_append_drop c.lexemeLength c.held
  have hlength : (c.held.take c.lexemeLength).length = c.lexemeLength := by
    rw [List.length_take, length_held]
    exact Nat.min_eq_left (Nat.min_le_right _ _)
  rw [← take_lexemeLength]
  refine ⟨?_, ?_, ?_, Int.le_refl _, by simp [Cursor.discard]⟩
  · rw [remaining, held_discard, List.append_assoc, ← List.append_assoc (c.held.take _), hparts]
    exact h.split
  · have hlocated := h.located
    rw [← hparts, Position.locate_append, advance_positionAfter] at hlocated
    rw [toList_discard, held_discard, hlocated]
    exact List.drop_left' ((Position.length_locate _ _).trans hlength)
  · rw [held_discard, List.append_assoc, hparts]
    exact h.upcoming

theorem seek (h : Reads text done c) (i : Int) : Reads text done (c.seek i).2 := by
  unfold Cursor.seek
  split
  · exact h
  · exact h.move (by omega) (by omega)

/-- **One request keeps what a walk keeps.** -/
theorem perform (h : Reads text done c) (r : Request) :
    Reads text (done ++ c.drops r) (c.perform r).2 := by
  have hkept {d : Cursor} (hd : Reads text done d) : Reads text (done ++ []) d := by
    rwa [List.append_nil]
  cases r with
  | discard => exact h.discard
  | extract => exact drops_extract c ▸ h.discard
  | seek i => exact hkept (h.seek i)
  | next => exact hkept h.next
  | peek => exact hkept h.peek
  | lexemeStart => exact hkept (h.fill 0)
  | accept a => exact hkept (h.acceptIf _)
  | acceptAny as => exact hkept (h.acceptIf _)
  | skipAll as => exact hkept (h.passWhile _)
  | skipUntil as => exact hkept (h.passWhile _)
  | current | index => exact hkept h

/-- What one request keeps, a walk keeps. -/
theorem after (h : Reads text done c) (rs : List Request) :
    Reads text (done ++ c.dropped rs) (c.after rs) := by
  induction rs generalizing done c with
  | nil => rw [dropped, List.append_nil]; exact h
  | cons r rs ih =>
    rw [dropped, ← List.append_assoc]
    exact ih (h.perform r)

/-- The lexeme begins where the text was dropped up to. -/
theorem lexemeStart_eq (h : Reads text done c) : c.lexemeStart.1 = positionAfter done := by
  have hfilled := h.fill 0
  change ((c.fill 0).buffer[0]?.map Prod.snd).getD (c.fill 0).upcoming = _
  rw [← Array.getElem?_toList, hfilled.located, hfilled.upcoming]
  cases (c.fill 0).held with
  | nil => simp [Position.locate]
  | cons a as => rfl

/-- A buffered character has the position of its place in the text. -/
theorem position_eq (h : Reads text done c) {i : Nat} {a : Char} {p : Position}
    (hi : c.buffer[i]? = some (a, p)) : p = positionAfter (text.take (done.length + i)) := by
  rw [← Array.getElem?_toList, h.located] at hi
  have hlt : i < c.held.length := by
    have := (List.getElem?_eq_some_iff.1 hi).1
    rwa [Position.length_locate] at this
  rw [position_locate hi, advance_positionAfter, h.split, List.take_length_add_append, remaining,
    List.take_append_of_le_length (Nat.le_of_lt hlt)]

/-- The position of the next character to be buffered is that of its place in the text. -/
theorem upcoming_eq (h : Reads text done c) :
    c.upcoming = positionAfter (text.take (done.length + c.held.length)) := by
  rw [h.upcoming, h.split, List.take_length_add_append, remaining, List.take_left]

end Reads

/-- **A walk loses, repeats and misplaces no character**: the text is what the walk dropped, then
what the buffer holds, then what is unread; every position known is that of its place in the text;
the index stays in the buffer or at one of its ends. Both ways to pass over characters, round by
round, come to an end. -/
theorem walk_conserves (text : String) (requests : List Request) :
    let c := (ofText text).after requests
    let done := (ofText text).dropped requests
    text.toList = done ++ c.held ++ c.rest ∧
    (∀ (i : Nat) (a : Char) (p : Position), c.buffer[i]? = some (a, p) →
      p = positionAfter (text.toList.take (done.length + i))) ∧
    c.upcoming = positionAfter (text.toList.take (done.length + c.held.length)) ∧
    (-1 ≤ c.index ∧ c.index ≤ c.held.length) ∧
    c.current = (if 0 ≤ c.index ∧ c.index < c.held.length then c.held[c.index.toNat]? else none) ∧
    c.lexemeStart.1 = positionAfter (text.toList.take done.length) ∧
    (∀ wanted r, Loops (acceptRound wanted) c r ↔ r = c.skipAll wanted) ∧
    (∀ stops r, Loops (passRound stops) c r ↔ r = c.skipUntil stops) := by
  intro c done
  have h : Reads text.toList done c := (Reads.ofText text).after requests
  refine ⟨?_, fun i a p => h.position_eq, h.upcoming_eq, ⟨h.index_ge, ?_⟩, ?_, ?_,
    fun wanted r => ⟨fun hr => hr.unique (loops_skipAll h.index_ge wanted), ?_⟩,
    fun stops r => ⟨fun hr => hr.unique (loops_skipUntil h.index_ge stops), ?_⟩⟩
  · rw [List.append_assoc]; exact h.split
  · rw [length_held]; exact h.index_le
  · rw [current_eq]
    split_ifs with hneg hin hin
    · omega
    · rfl
    · rfl
    · exact List.getElem?_eq_none (by omega)
  · rw [h.lexemeStart_eq, h.split, List.take_left]
  · rintro rfl; exact loops_skipAll h.index_ge wanted
  · rintro rfl; exact loops_skipUntil h.index_ge stops

end Cursor

end GuardedLisp.Source
