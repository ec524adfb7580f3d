import GuardedLisp.Proofs.Walks.Conservation

/-!
# Looking ahead

A look ahead only fills the buffer. Two cursors that stand at one place of a text, each
with its index in its buffer or at the end of the text (`Twins`), answer all requests alike
but those to move the index, whose range is the buffer: one request keeps them twins
(`Twins.perform`), so a walk does.

An index can also be moved behind the buffer while text is unread. There is no current
character then, and the lexeme ends with the buffer; a look ahead makes the buffer longer,
and the character it puts at the index is the current one from then on. So looking ahead
goes unnoticed from just those states where this does not happen (`look_ahead_unnoticed_iff`).
-/

namespace GuardedLisp.Source

namespace Cursor

/-- From here on, `d` and `c` answer alike to all but requests to move the index. -/
structure Unnoticed (c d : Cursor) : Prop where
  index : d.index = c.index
  current : d.current = c.current
  replies : ∀ rs : List Request, (∀ i, .seek i ∉ rs) → d.replies rs = c.replies rs

theorem Unnoticed.refl (c : Cursor) : Unnoticed c c := ⟨rfl, rfl, fun _ _ => rfl⟩

/-! ## A fuller buffer -/

section fill

variable {c : Cursor} {target : Int}

theorem fill_of_lt (h : target < c.buffer.size) : c.fill target = c := by
  rw [fill_eq_pull, show (target + 1 - c.buffer.size).toNat = 0 by omega]
  simp [pull, Position.locate]

theorem Settled.fill (h : c.Settled) (target : Int) : (c.fill target).Settled := by
  rcases h with hlt | hrest
  · exact .inl (Int.lt_of_lt_of_le hlt (Int.ofNat_le.2 (c.size_le_fill target)))
  · exact .inr (by rw [fill_eq_pull, pull_of_rest_eq_nil hrest, hrest])

/-- What is dropped up to a settled index does not depend on how much is buffered. -/
theorem Settled.take_held (h : c.Settled) :
    c.held.take (c.index + 1).toNat = c.remaining.take (c.index + 1).toNat := by
  rcases h with hlt | hrest
  · rw [remaining, List.take_append_of_le_length (by rw [length_held]; omega)]
  · rw [remaining, hrest, List.append_nil]

end fill

/-! ## Twins -/

/-- Both stand at one place of the text. -/
structure Twins (text done : List Char) (c d : Cursor) : Prop where
  left : Reads text done c
  right : Reads text done d
  index : d.index = c.index
  left_settled : c.Settled
  right_settled : d.Settled

namespace Twins

variable {text done : List Char} {c d : Cursor}

theorem remaining (h : Twins text done c d) : d.remaining = c.remaining :=
  List.append_cancel_left (h.right.split.symm.trans h.left.split)

theorem ahead (h : Twins text done c d) : d.ahead = c.ahead := by
  rw [ahead_eq, ahead_eq, h.remaining, h.index]

theorem current (h : Twins text done c d) : d.current = c.current := by
  rw [current_of_settled h.right_settled, current_of_settled h.left_settled, h.remaining, h.index]

theorem next (h : Twins text done c d) : Twins text done c.next.2 d.next.2 where
  left := h.left.next
  right := h.right.next
  index := by rw [index_next, index_next, h.remaining, h.index]
  left_settled := c.settled_fill (Int.min_le_left _ _)
  right_settled := d.settled_fill (Int.min_le_left _ _)

theorem fill (h : Twins text done c d) (target target' : Int) :
    Twins text done (c.fill target) (d.fill target') where
  left := h.left.fill target
  right := h.right.fill target'
  index := h.index
  left_settled := h.left_settled.fill target
  right_settled := h.right_settled.fill target'

theorem peek (h : Twins text done c d) : Twins text done c.peek.2 d.peek.2 := h.fill _ _

theorem acceptIf (h : Twins text done c d) (wanted : Char → Bool) :
    (d.acceptIf wanted).1 = (c.acceptIf wanted).1 ∧
    Twins text done (c.acceptIf wanted).2 (d.acceptIf wanted).2 := by
  rw [acceptIf_eq h.left.index_ge, acceptIf_eq h.right.index_ge, h.ahead]
  refine ⟨rfl, ?_⟩
  split
  · exact h.next
  · exact h.peek

theorem passWhile (h : Twins text done c d) (p : Char → Bool) :
    (d.passWhile p).1 = (c.passWhile p).1 ∧
    Twins text done (c.passWhile p).2 (d.passWhile p).2 := by
  have hleft := h.left.passWhile p
  have hright := h.right.passWhile p
  rw [passWhile_eq] at hleft hright ⊢
  rw [passWhile_eq]
  refine ⟨by rw [h.ahead], hleft, hright, ?_, c.settled_fill (by omega), d.settled_fill (by omega)⟩
  rw [h.ahead, h.index]
  rfl

theorem discard (h : Twins text done c d) :
    Twins text (done ++ c.held.take (c.index + 1).toNat) c.discard d.discard where
  left := h.left.discard
  right := by
    rw [h.left_settled.take_held, ← h.remaining, ← h.index, ← h.right_settled.take_held]
    exact h.right.discard
  index := rfl
  left_settled := .inl (by change (-1 : Int) < _; omega)
  right_settled := .inl (by change (-1 : Int) < _; omega)

theorem extract (h : Twins text done c d) : d.extract.1 = c.extract.1 := by
  have hheld : d.held.take (d.index + 1).toNat = c.held.take (c.index + 1).toNat := by
    rw [h.right_settled.take_held, h.left_settled.take_held, h.remaining, h.index]
  simp only [Cursor.extract, List.map_take]
  exact congrArg String.ofList ((take_lexemeLength d).trans (hheld.trans (take_lexemeLength c).symm))

/-- **Twins answer a request alike and stay twins**, if it does not move the index. -/
theorem perform (h : Twins text done c d) {r : Request} (hr : ∀ i, r ≠ .seek i) :
    (d.perform r).1 = (c.perform r).1 ∧
    Twins text (done ++ c.drops r) (c.perform r).2 (d.perform r).2 := by
  have hfound : d.next.1 = c.next.1 := by
    rw [next_eq_head h.left.index_ge, next_eq_head h.right.index_ge, h.ahead]
  have hstart : d.lexemeStart.1 = c.lexemeStart.1 :=
    h.right.lexemeStart_eq.trans h.left.lexemeStart_eq.symm
  have hkept {c' d' : Cursor} (hcd : Twins text done c' d') : Twins text (done ++ []) c' d' := by
    rwa [List.append_nil]
  cases r with
  | seek i => exact absurd rfl (hr i)
  | next => exact ⟨congrArg Reply.char hfound, hkept h.next⟩
  | peek => exact ⟨congrArg Reply.char hfound, hkept h.peek⟩
  | current => exact ⟨congrArg Reply.char h.current, hkept h⟩
  | index => exact ⟨congrArg Reply.index h.index, hkept h⟩
  | lexemeStart => exact ⟨congrArg Reply.position hstart, hkept (h.fill 0 0)⟩
  | discard => exact ⟨rfl, h.discard⟩
  | extract => exact ⟨congrArg Reply.text h.extract, drops_extract c ▸ h.discard⟩
  | accept a =>
    obtain ⟨hreply, hstay⟩ := h.acceptIf (· == a)
    exact ⟨congrArg (fun found : Option Char => Reply.truth found.isSome) hreply, hkept hstay⟩
  | acceptAny as =>
    obtain ⟨hreply, hstay⟩ := h.acceptIf as.contains
    exact ⟨congrArg Reply.char hreply, hkept hstay⟩
  | skipAll as =>
    obtain ⟨hreply, hstay⟩ := h.passWhile as.contains
    exact ⟨congrArg Reply.truth hreply, hkept hstay⟩
  | skipUntil as =>
    obtain ⟨hreply, hstay⟩ := h.passWhile fun a => !as.contains a
    exact ⟨congrArg Reply.truth hreply, hkept hstay⟩

/-- Twins answer a walk alike, if it does not move the index. -/
theorem replies (h : Twins text done c d) {rs : List Request} (hrs : ∀ i, .seek i ∉ rs) :
    d.replies rs = c.replies rs := by
  induction rs generalizing done c d with
  | nil => rfl
  | cons r rs ih =>
    obtain ⟨hreply, hstay⟩ := h.perform fun i hr => hrs i (hr ▸ List.mem_cons_self)
    exact congrArg₂ List.cons hreply (ih hstay fun i hi => hrs i (List.mem_cons_of_mem r hi))

theorem unnoticed (h : Twins text done c d) : Unnoticed c d :=
  ⟨h.index, h.current, fun _ => h.replies⟩

end Twins

/-! ## What goes unnoticed -/

/-- With the index behind the buffer and text unread, there is no current character until the
buffer reaches it. -/
theorem current_fill_ne {text done : List Char} {c : Cursor} (h : Reads text done c)
    (hc : ¬c.Settled) {target : Int} (htarget : c.buffer.size ≤ target) :
    (c.fill target).current ≠ c.current := by
  rw [Settled, not_or] at hc
  have hindex : c.index.toNat = c.held.length := by
    have := h.index_le
    rw [length_held]
    omega
  obtain ⟨a, as, has⟩ := List.exists_cons_of_ne_nil hc.2
  have hneg : ¬c.index < 0 := by omega
  have hnone : c.current = none := by
    rw [current_eq, if_neg hneg, hindex]
    exact List.getElem?_eq_none (Nat.le_refl _)
  have hsome : (c.fill target).current = some a := by
    obtain ⟨n, hn⟩ : ∃ n, (target + 1 - c.buffer.size).toNat = n + 1 :=
      Nat.exists_eq_add_of_le' (by omega)
    rw [current_eq, index_fill, if_neg hneg, held_fill, hn, has, hindex]
    simp
  rw [hnone, hsome]
  exact Option.some_ne_none a

/-- A fuller buffer goes unnoticed where the index is settled, or nothing was buffered. -/
theorem unnoticed_fill {text done : List Char} {c : Cursor} (h : Reads text done c) (target : Int) :
    Unnoticed c (c.fill target) ↔ c.Settled ∨ target < c.buffer.size := by
  constructor
  · intro hsame
    by_contra hnot
    rw [not_or] at hnot
    exact current_fill_ne h hnot.1 (Int.not_lt.1 hnot.2) hsame.current
  · rintro (hc | hlt)
    · have htwins : Twins text done c (c.fill target) :=
        ⟨h, h.fill target, rfl, hc, hc.fill target⟩
      exact htwins.unnoticed
    · rw [fill_of_lt hlt]
      exact .refl c

theorem unnoticed_peek {text done : List Char} {c : Cursor} (h : Reads text done c) :
    Unnoticed c c.peek.2 ↔ c.Settled := by
  refine (unnoticed_fill h (c.index + 1)).trans ⟨?_, .inl⟩
  rintro (hc | hlt)
  · exact hc
  · exact .inl (by omega)

/-- A step that is not taken leaves what a look ahead leaves. -/
theorem acceptIf_eq_peek {c : Cursor} (hc : -1 ≤ c.index) {wanted : Char → Bool}
    (h : (c.acceptIf wanted).1 = none) : (c.acceptIf wanted).2 = c.peek.2 := by
  rw [acceptIf_eq hc] at h ⊢
  change c.ahead.head?.filter wanted = none at h
  exact if_neg (by rw [h]; exact Bool.false_ne_true)

/-- **When looking ahead goes unnoticed**, over all cursors that a walk leaves. A refused move
always does. A look at the next character, and a step not taken, do just if the index is in the
buffer or nothing is unread behind it; asking for the lexeme's start also does if anything is
buffered. The index stays in all of them. -/
theorem look_ahead_unnoticed_iff (text : String) (past : List Request) :
    let c := (ofText text).after past
    (∀ i, (c.seek i).1 = false → Unnoticed c (c.seek i).2) ∧
    (Unnoticed c c.peek.2 ↔ c.Settled) ∧
    (∀ a, (c.accept a).1 = false → (Unnoticed c (c.accept a).2 ↔ c.Settled)) ∧
    (∀ as, (c.acceptAny as).1 = none → (Unnoticed c (c.acceptAny as).2 ↔ c.Settled)) ∧
    (Unnoticed c c.lexemeStart.2 ↔ c.Settled ∨ 0 < c.buffer.size) ∧
    c.peek.2.index = c.index ∧ c.lexemeStart.2.index = c.index := by
  intro c
  have h : Reads text.toList _ c := (Reads.ofText text).after past
  have hpeek := unnoticed_peek h
  refine ⟨fun i hi => ?_, hpeek, fun a ha => ?_, fun as has => ?_, ?_, rfl, rfl⟩
  · unfold seek at *
    split at hi
    · next hout => rw [if_pos hout]; exact .refl c
    · cases hi
  · have hnone : (c.acceptIf (· == a)).1 = none := by
      simpa only [accept, Option.isSome_eq_false_iff, Option.isNone_iff_eq_none] using ha
    rw [← hpeek, ← acceptIf_eq_peek h.index_ge hnone]
    rfl
  · rw [← hpeek, ← acceptIf_eq_peek h.index_ge has]
    rfl
  · rw [← Int.natCast_pos]
    exact unnoticed_fill h 0

/-- In front of `abc`, with `a` buffered and the index behind it, there is no current character,
and the lexeme is `a`. After a look at the next one, the current character is `b` and the lexeme
`ab`. -/
theorem look_ahead_noticed : ¬∀ (text : String) (past : List Request),
    Unnoticed ((ofText text).after past) ((ofText text).after past).peek.2 := by
  intro h
  have hlexeme := (h "abc" [.lexemeStart, .seek 1]).replies [.extract] (by simp)
  exact absurd hlexeme (by decide)

end Cursor

end GuardedLisp.Source
