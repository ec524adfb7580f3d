import GuardedLisp.Source.Position

/-!
# A backtracking cursor over a text

The text splits into what was dropped, a buffer of located characters, and the
rest, which nobody has looked at. `index` points into the buffer: `-1` stands
before its first character, and `buffer.size` behind its last one. The buffer
up to the index is the lexeme being scanned; `discard` and `extract` drop it.

Moving and looking ahead share one view, `ahead`: the characters after the
index, buffered or not. A step first fills the buffer as far as it reaches, so
an index at the end of the buffer, with text still unread, passes over the
character that lands on it.
-/

namespace GuardedLisp.Source

structure Cursor where
  buffer : Array (Char × Position)
  index : Int
  rest : List Char
  /-- The position of the first character of `rest`. -/
  upcoming : Position
  deriving Repr

namespace Cursor

def ofText (text : String) : Cursor := ⟨#[], -1, text.toList, .start⟩

/-- Buffers characters until there is one at `target` or the text is used up. -/
def fill (c : Cursor) (target : Int) : Cursor :=
  let missing := (target + 1 - c.buffer.size).toNat
  let pulled := c.rest.take missing
  { c with
    buffer := c.buffer ++ c.upcoming.locate pulled
    rest := c.rest.drop missing
    upcoming := c.upcoming.advance pulled }

/-- The buffered characters. -/
def held (c : Cursor) : List Char := c.buffer.toList.map Prod.fst

/-- The characters that were not dropped. -/
def remaining (c : Cursor) : List Char := c.held ++ c.rest

/-- The characters after the index. -/
def ahead (c : Cursor) : List Char := c.remaining.drop (c.index + 1).toNat

/-- The character at the index. -/
def current (c : Cursor) : Option Char :=
  if c.index < 0 then none else c.buffer[c.index.toNat]?.map Prod.fst

/-- Steps to the next character; at the end of the text the index stops behind the buffer. -/
def next (c : Cursor) : Option Char × Cursor :=
  let filled := c.fill (c.index + 1)
  let moved := { filled with index := min (c.index + 1) filled.buffer.size }
  (moved.current, moved)

/-- The character that `next` would step to. -/
def peek (c : Cursor) : Option Char × Cursor :=
  let (found, moved) := c.next
  (found, { moved with index := c.index })

/-- Moves the index; refused outside `-1 … buffer.size`. -/
def seek (c : Cursor) (index : Int) : Bool × Cursor :=
  if index < -1 ∨ index > c.buffer.size then (false, c) else (true, { c with index })

/-- The position of the lexeme's first character, or of the upcoming one if there is none. -/
def lexemeStart (c : Cursor) : Position × Cursor :=
  let filled := c.fill 0
  ((filled.buffer[0]?.map Prod.snd).getD filled.upcoming, filled)

/-- The number of buffered characters up to the index. -/
def lexemeLength (c : Cursor) : Nat := min (c.index + 1).toNat c.buffer.size

/-- Drops the lexeme. -/
def discard (c : Cursor) : Cursor :=
  { c with buffer := c.buffer.extract c.lexemeLength, index := -1 }

/-- Drops the lexeme and returns its text. -/
def extract (c : Cursor) : String × Cursor :=
  (String.ofList ((c.buffer.toList.take c.lexemeLength).map Prod.fst), c.discard)

/-- Steps to the next character if it is one of those wanted. -/
def acceptIf (c : Cursor) (wanted : Char → Bool) : Option Char × Cursor :=
  let (found, moved) := c.next
  match found.filter wanted with
  | some a => (some a, moved)
  | none => (none, { moved with index := c.index })

def accept (c : Cursor) (wanted : Char) : Bool × Cursor :=
  let (found, moved) := c.acceptIf (· == wanted)
  (found.isSome, moved)

def acceptAny (c : Cursor) (wanted : List Char) : Option Char × Cursor :=
  c.acceptIf wanted.contains

/-- Steps over the longest run of such characters, and looks at the one behind it. -/
def passWhile (c : Cursor) (p : Char → Bool) : Bool × Cursor :=
  let run := (c.ahead.takeWhile p).length
  (run != 0, { c.fill (c.index + run + 1) with index := c.index + run })

/-- Steps over all that follows from the set. -/
def skipAll (c : Cursor) (wanted : List Char) : Bool × Cursor := c.passWhile wanted.contains

/-- Steps up to the next character of the set, or to the end. -/
def skipUntil (c : Cursor) (stops : List Char) : Bool × Cursor :=
  c.passWhile fun a => !stops.contains a

/-! ## The buffer -/

/-- The buffer takes in this many characters. -/
def pull (c : Cursor) (n : Nat) : Cursor :=
  { c with
    buffer := c.buffer ++ c.upcoming.locate (c.rest.take n)
    rest := c.rest.drop n
    upcoming := c.upcoming.advance (c.rest.take n) }

theorem pull_pull (c : Cursor) (n k : Nat) : (c.pull n).pull k = c.pull (n + k) := by
  have hbuffer (pulled later : List (Char × Position)) :
      c.buffer ++ pulled ++ later = c.buffer ++ (pulled ++ later) := Array.toList_inj.1 (by simp)
  simp only [pull, List.drop_drop, List.take_add, Position.locate_append, Position.advance_append,
    hbuffer]

theorem pull_of_rest_eq_nil {c : Cursor} (h : c.rest = []) (n : Nat) : c.pull n = c := by
  obtain ⟨buffer, index, rest, upcoming⟩ := c
  subst h
  simp [pull, Position.locate]

section fill

variable (c : Cursor) (target : Int)

theorem length_held : c.held.length = c.buffer.size := by simp [held]

theorem fill_eq_pull : c.fill target = c.pull (target + 1 - c.buffer.size).toNat := rfl

@[simp] theorem index_fill : (c.fill target).index = c.index := rfl

theorem held_fill : (c.fill target).held =
    c.held ++ c.rest.take (target + 1 - c.buffer.size).toNat := by
  simp [held, fill, Position.map_fst_locate]

@[simp] theorem remaining_fill : (c.fill target).remaining = c.remaining := by
  rw [remaining, held_fill, List.append_assoc]
  exact congrArg _ (List.take_append_drop _ _)

theorem size_fill : (c.fill target).buffer.size =
    c.buffer.size + min (target + 1 - c.buffer.size).toNat c.rest.length := by
  rw [← length_held, held_fill, List.length_append, length_held, List.length_take]

theorem size_le_fill : c.buffer.size ≤ (c.fill target).buffer.size := by
  rw [size_fill]; omega

/-- The buffer reaches the target, or else it holds all that remains. -/
theorem lt_size_fill_or : target < (c.fill target).buffer.size ∨ (c.fill target).rest = [] := by
  rw [size_fill]
  by_cases h : (target + 1 - c.buffer.size).toNat ≤ c.rest.length
  · left; omega
  · right; exact List.drop_eq_nil_of_le (by omega)

/-- It makes no difference what was taken in before. -/
theorem fill_fill {near far : Int} (h : near ≤ far) : (c.fill near).fill far = c.fill far := by
  rcases c.lt_size_fill_or near with hlt | hrest
  · rw [fill_eq_pull _ far, size_fill, fill_eq_pull, pull_pull, fill_eq_pull]
    rw [size_fill] at hlt
    congr 1
    omega
  · rw [fill_eq_pull _ far, pull_of_rest_eq_nil hrest, fill_eq_pull]
    obtain ⟨k, hk⟩ : ∃ k, (far + 1 - c.buffer.size).toNat =
        (near + 1 - c.buffer.size).toNat + k := Nat.exists_eq_add_of_le (by omega)
    rw [fill_eq_pull, hk, ← pull_pull, ← fill_eq_pull, pull_of_rest_eq_nil hrest]

end fill

/-- The cursor with the index there, after a look at the character behind it. -/
def stand (c : Cursor) (i : Int) : Cursor := { c.fill (i + 1) with index := i }

theorem stand_fill (c : Cursor) {target i : Int} (h : target ≤ i + 1) (j : Int) :
    stand { c.fill target with index := j } i = c.stand i := by
  have hfill := c.fill_fill h
  simp only [stand, ← hfill]
  rfl

/-! ## Steps -/

/-- The index is in the buffer, or nothing remains behind it. -/
def Settled (c : Cursor) : Prop := c.index < c.buffer.size ∨ c.rest = []

section steps

variable {c : Cursor}

theorem settled_fill (c : Cursor) {target i : Int} (h : i ≤ target) :
    Settled { c.fill target with index := i } :=
  (c.lt_size_fill_or target).imp (Int.lt_of_le_of_lt h) id

theorem length_remaining (c : Cursor) : c.remaining.length = c.buffer.size + c.rest.length := by
  rw [remaining, List.length_append, length_held]

theorem ahead_eq (c : Cursor) : c.ahead = c.remaining.drop (c.index + 1).toNat := rfl

theorem current_eq (c : Cursor) :
    c.current = if c.index < 0 then none else c.held[c.index.toNat]? := by
  simp [current, held]

theorem current_of_settled (h : c.Settled) :
    c.current = if c.index < 0 then none else c.remaining[c.index.toNat]? := by
  rw [current_eq]
  split
  · rfl
  · next hindex =>
    rcases h with hlt | hrest
    · rw [remaining, List.getElem?_append_left (by rw [length_held]; omega)]
    · rw [remaining, hrest, List.append_nil]

/-- The buffer holds the place of the next character, or all that remains. -/
theorem index_next (c : Cursor) :
    c.next.2.index = min (c.index + 1) c.remaining.length := by
  have hsize : c.remaining.length = (c.fill (c.index + 1)).buffer.size +
      (c.fill (c.index + 1)).rest.length := by rw [← length_remaining, remaining_fill]
  change min (c.index + 1) ((c.fill (c.index + 1)).buffer.size : Int) = _
  rcases c.lt_size_fill_or (c.index + 1) with hlt | hrest
  · omega
  · rw [hrest] at hsize
    rw [hsize, List.length_nil, Nat.add_zero]

/-- A step finds what stands behind the index. -/
theorem next_eq_head (h : -1 ≤ c.index) : c.next.1 = c.ahead.head? := by
  have hindex := c.index_next
  have hsettled : c.next.2.Settled := c.settled_fill (Int.min_le_left _ _)
  have hremaining : c.next.2.remaining = c.remaining := c.remaining_fill _
  change c.next.2.current = _
  rw [current_of_settled hsettled, if_neg (by omega), hindex, hremaining, ahead, List.head?_drop]
  by_cases hlt : (c.index + 1).toNat < c.remaining.length
  · congr 1
    omega
  · rw [List.getElem?_eq_none (by omega)]
    exact (List.getElem?_eq_none (by omega : c.remaining.length ≤ _)).symm

theorem passWhile_eq (c : Cursor) (p : Char → Bool) : c.passWhile p =
    ((c.ahead.takeWhile p).length != 0, c.stand (c.index + (c.ahead.takeWhile p).length)) := rfl

theorem acceptIf_eq (h : -1 ≤ c.index) (wanted : Char → Bool) :
    c.acceptIf wanted =
      (c.ahead.head?.filter wanted,
        if (c.ahead.head?.filter wanted).isSome then c.next.2 else c.peek.2) := by
  rw [← next_eq_head h]
  unfold acceptIf peek
  rcases c.next with ⟨found, moved⟩
  cases hfound : found.filter wanted <;> simp [hfound]

/-- The character behind the next one, after a step. -/
theorem ahead_next (hindex : -1 ≤ c.index) {a : Char} {as : List Char} (h : c.ahead = a :: as) :
    c.next.2.index = c.index + 1 ∧ c.next.2.ahead = as := by
  have hlength := congrArg List.length h
  rw [ahead_eq, List.length_drop, List.length_cons] at hlength
  have hnext := c.index_next
  have hstep : c.next.2.index = c.index + 1 := by omega
  refine ⟨hstep, ?_⟩
  have hremaining : c.next.2.remaining = c.remaining := c.remaining_fill _
  have hsucc : (c.index + 1 + 1).toNat = (c.index + 1).toNat + 1 := by omega
  rw [ahead_eq, hstep, hremaining, hsucc, ← List.drop_drop, ← ahead_eq, h]
  rfl

end steps

/-! ## Dropping -/

theorem take_lexemeLength (c : Cursor) :
    c.held.take c.lexemeLength = c.held.take (c.index + 1).toNat := by
  rw [lexemeLength, ← length_held, ← List.take_take, List.take_length]

theorem toList_discard (c : Cursor) :
    c.discard.buffer.toList = c.buffer.toList.drop c.lexemeLength := by
  simp only [Cursor.discard, Array.toList_extract, List.extract_eq_take_drop]
  exact List.take_of_length_le (by simp)

theorem held_discard (c : Cursor) : c.discard.held = c.held.drop c.lexemeLength := by
  rw [held, toList_discard, List.map_drop, held]

/-! ## Between a lexeme and what follows it -/

/-- The lexeme so far is `run`, and `ahead` follows it. -/
structure Between (run ahead : List Char) (c : Cursor) : Prop where
  split : c.remaining = run ++ ahead
  index : c.index + 1 = run.length
  buffered : run.length ≤ c.buffer.size

theorem between_nil {c : Cursor} (h : c.index = -1) : c.Between [] c.remaining :=
  ⟨rfl, by simp [h], Nat.zero_le _⟩

namespace Between

variable {run ahead : List Char} {c : Cursor}

theorem index_ge (h : c.Between run ahead) : -1 ≤ c.index := by
  have := h.index
  omega

theorem ahead_eq (h : c.Between run ahead) : c.ahead = ahead := by
  rw [Cursor.ahead, h.split, h.index, Int.toNat_natCast, List.drop_left]

/-- A move over the next characters makes the lexeme longer by them. -/
theorem moved {more later : List Char} {d : Cursor} (h : c.Between run (more ++ later))
    (hremaining : d.remaining = c.remaining) (hindex : d.index = c.index + more.length)
    (hsettled : d.Settled) : d.Between (run ++ more) later where
  split := by rw [hremaining, h.split, List.append_assoc]
  index := by
    have := h.index
    rw [List.length_append]
    omega
  buffered := by
    have := h.index
    rw [List.length_append]
    rcases hsettled with hlt | hrest
    · omega
    · have hlength := length_remaining d
      rw [hremaining, h.split, hrest] at hlength
      simp only [List.length_append, List.length_nil] at hlength
      omega

theorem next_eq (h : c.Between run ahead) : c.next.1 = ahead.head? := by
  rw [next_eq_head h.index_ge, h.ahead_eq]

theorem next {a : Char} {later : List Char} (h : c.Between run (a :: later)) :
    c.next.2.Between (run ++ [a]) later := by
  have hnext : c.Between run ([a] ++ later) := h
  exact hnext.moved (c.remaining_fill _) (ahead_next h.index_ge h.ahead_eq).1
    (c.settled_fill (Int.min_le_left _ _))

theorem peek_eq (h : c.Between run ahead) : c.peek.1 = ahead.head? := h.next_eq

theorem peek (h : c.Between run ahead) : c.peek.2.Between run ahead := by
  have hpeek : c.Between run ([] ++ ahead) := h
  rw [← List.append_nil run]
  exact hpeek.moved (c.remaining_fill _) (Int.add_zero _).symm
    (c.settled_fill (Int.le_add_one (Int.le_refl c.index)))

theorem acceptIf_eq (h : c.Between run ahead) (wanted : Char → Bool) :
    c.acceptIf wanted = (ahead.head?.filter wanted,
      if (ahead.head?.filter wanted).isSome then c.next.2 else c.peek.2) := by
  rw [Cursor.acceptIf_eq h.index_ge, h.ahead_eq]

theorem accept_cons {a : Char} {later : List Char} (h : c.Between run (a :: later)) :
    c.accept a = (true, c.next.2) := by
  simp [accept, h.acceptIf_eq]

theorem accept_of_head_ne {a : Char} (h : c.Between run ahead) (ha : ahead.head? ≠ some a) :
    c.accept a = (false, c.peek.2) := by
  have hfilter : ahead.head?.filter (· == a) = none := by
    rw [Option.filter_eq_none_iff]
    intro b hb hba
    exact ha (by rw [hb, beq_iff_eq.1 hba])
  simp [accept, h.acceptIf_eq, hfilter]

theorem passWhile (h : c.Between run ahead) (p : Char → Bool) :
    (c.passWhile p).2.Between (run ++ ahead.takeWhile p) (ahead.dropWhile p) := by
  have hindex : (c.passWhile p).2.index = c.index + (ahead.takeWhile p).length := by
    rw [← h.ahead_eq]
    rfl
  rw [← List.takeWhile_append_dropWhile (p := p) (l := ahead)] at h
  exact moved h (c.remaining_fill _) hindex (c.settled_fill (Int.le_add_one (Int.le_refl _)))

theorem skipAll (h : c.Between run ahead) (wanted : List Char) : (c.skipAll wanted).2.Between
    (run ++ ahead.takeWhile wanted.contains) (ahead.dropWhile wanted.contains) :=
  h.passWhile _

theorem skipUntil (h : c.Between run ahead) (stops : List Char) : (c.skipUntil stops).2.Between
    (run ++ ahead.takeWhile fun a => !stops.contains a)
    (ahead.dropWhile fun a => !stops.contains a) :=
  h.passWhile _

theorem accept_cases (h : c.Between run ahead) (a : Char) :
    (∃ later d, ahead = a :: later ∧ c.accept a = (true, d) ∧ d.Between (run ++ [a]) later) ∨
    (∃ d, ahead.head? ≠ some a ∧ c.accept a = (false, d) ∧ d.Between run ahead) := by
  by_cases ha : ahead.head? = some a
  · obtain ⟨later, rfl⟩ := List.head?_eq_some_iff.1 ha
    exact .inl ⟨later, _, rfl, h.accept_cons, h.next⟩
  · exact .inr ⟨_, ha, h.accept_of_head_ne ha, h.peek⟩

theorem lexemeStart (h : c.Between run ahead) : c.lexemeStart.2.Between run ahead where
  split := (c.remaining_fill 0).trans h.split
  index := h.index
  buffered := Nat.le_trans h.buffered (c.size_le_fill 0)

/-- Back in front of the lexeme. -/
theorem seek (h : c.Between run ahead) : (c.seek (-1)).2.Between [] (run ++ ahead) := by
  rw [Cursor.seek, if_neg (by omega)]
  exact ⟨h.split, rfl, Nat.zero_le _⟩

theorem lexemeLength_eq (h : c.Between run ahead) : c.lexemeLength = run.length := by
  have := h.index
  have := h.buffered
  rw [lexemeLength]
  omega

theorem held_eq (h : c.Between run ahead) : c.held = run ++ c.held.drop run.length := by
  have htake : c.held.take run.length = run := by
    have hlength := h.buffered
    rw [← length_held] at hlength
    have hsplit := congrArg (List.take run.length) h.split
    rwa [remaining, List.take_append_of_le_length hlength, List.take_left] at hsplit
  conv => lhs; rw [← List.take_append_drop run.length c.held, htake]

theorem discard (h : c.Between run ahead) : c.discard.Between [] ahead where
  split := by
    have hsplit := h.split
    rw [remaining, h.held_eq, List.append_assoc, List.append_cancel_left_eq] at hsplit
    rw [remaining, held_discard, h.lexemeLength_eq]
    exact hsplit
  index := rfl
  buffered := Nat.zero_le _

theorem extract_eq (h : c.Between run ahead) : c.extract.1 = String.ofList run := by
  rw [extract, List.map_take, h.lexemeLength_eq]
  change String.ofList (c.held.take run.length) = _
  rw [h.held_eq, List.take_left]

theorem extract (h : c.Between run ahead) : c.extract.2.Between [] ahead := h.discard

end Between

end Cursor

end GuardedLisp.Source
