import GuardedLisp.Eval.Machine

/-!
# Crashes

A piece of code may rely on what was checked in another place: that a list has an item of
a certain number, that a part of it begins within it, that a name is one of those that it
knows, that a counter still fits its word. Where this is not so, it does not fail with an
error: it crashes, and what called it gets no answer (`Crash`).

The definitions in `Crashing` do what the interpreter does, access by access, and crash
where an access is out of range. A computation is `Safe` for one that cannot crash if it
does the same, from every state in which an invariant holds, and the invariant still holds
where there is a result to go on with; or else it ends in one of the crashes that are
allowed, which are those of custom procedures. This is passed on by sequencing, so each
access is looked at once.
-/

namespace GuardedLisp

/-- How code breaks off. -/
inductive Crash where
  /-- There is no item of this number. -/
  | index (i size : Nat)
  /-- A part reaches beyond the items. -/
  | slice (bound size : Nat)
  /-- A case came up that was left out. -/
  | unreachable (message : String)
  /-- A counter was at the largest word. -/
  | overflow
  /-- A host callable crashed, with a text if it gave one. -/
  | host (message : Option String)
  /-- A custom procedure crashed. -/
  | custom (message : Option String)

/-- A computation that may fail. -/
abbrev FailM (s : Type) := ExceptT EvalError (StateM s)

/-- A computation that may fail or crash. -/
abbrev CrashM (s : Type) := ExceptT EvalError (ExceptT Crash (StateM s))

namespace CrashM

variable {s α β : Type}

def crash (c : Crash) : CrashM s α := fun m => (.error c, m)

/-- A computation that has no accesses to crash at. -/
def lift (x : FailM s α) : CrashM s α := fun m => (.ok (x m).1, (x m).2)

def ofExcept {ε : Type} (wrap : ε → EvalError) : Except ε α → CrashM s α
  | .ok a => pure a
  | .error e => throw (wrap e)

/-- What comes of a crash is a result. -/
def catching (x : CrashM s α) : CrashM s (Except Crash α) := fun m =>
  match x m with
  | (.ok (.ok a), m) => (.ok (.ok (.ok a)), m)
  | (.ok (.error e), m) => (.ok (.error e), m)
  | (.error c, m) => (.ok (.ok (.error c)), m)

/-- The item of this number. -/
def item (items : List α) (i : Nat) : CrashM s α :=
  match items[i]? with
  | some a => pure a
  | none => crash (.index i items.length)

/-- The items from this number on. -/
def itemsFrom (items : List α) (start : Nat) : CrashM s (List α) :=
  if start ≤ items.length then pure (items.drop start) else crash (.slice start items.length)

/-- Fails unless the condition holds. -/
def check (condition : Bool) (e : EvalError) : CrashM s Unit :=
  if condition then pure () else throw e

theorem bind_ok {x : CrashM s α} {f : α → CrashM s β} {m m' : s} {a : α}
    (h : x m = (.ok (.ok a), m')) : (x >>= f) m = f a m' := by
  change (ExceptT.bindCont (ExceptT.bindCont f) (x m).1 : StateM s _) (x m).2 = _
  rw [h]
  rfl

theorem bind_error {x : CrashM s α} {f : α → CrashM s β} {m m' : s} {e : EvalError}
    (h : x m = (.ok (.error e), m')) : (x >>= f) m = (.ok (.error e), m') := by
  change (ExceptT.bindCont (ExceptT.bindCont f) (x m).1 : StateM s _) (x m).2 = _
  rw [h]
  rfl

theorem bind_crash {x : CrashM s α} {f : α → CrashM s β} {m : s} {c : Crash}
    (h : (x m).1 = .error c) : ((x >>= f) m).1 = .error c := by
  change ((ExceptT.bindCont (ExceptT.bindCont f) (x m).1 : StateM s _) (x m).2).1 = _
  rw [h]
  rfl

theorem itemsFrom_eq {items : List α} {start : Nat} (h : start ≤ items.length) :
    (itemsFrom items start : CrashM s (List α)) = pure (items.drop start) := if_pos h

theorem check_bind_of_false {condition : Bool} (h : condition = false) (e : EvalError)
    (f : Unit → CrashM s α) : (check condition e >>= f) = throw e := by
  rw [h]
  rfl

end CrashM

open CrashM

/-- From a state with the invariant, the computation ends in an allowed crash, or it does not crash
and does what the other one does; where that has a result, the invariant holds again. -/
def Safe {s α : Type} (allowed : Crash → Prop) (I : s → Prop) (x : CrashM s α) (y : FailM s α) :
    Prop :=
  ∀ m, I m → (∃ c, allowed c ∧ (x m).1 = .error c) ∨
    x m = (.ok (y m).1, (y m).2) ∧ ∀ a, (y m).1 = .ok a → I (y m).2

namespace Safe

variable {s α β : Type} {allowed : Crash → Prop} {I : s → Prop} {x : CrashM s α} {y : FailM s α}

theorem lift (h : ∀ m, I m → ∀ a, (y m).1 = .ok a → I (y m).2) :
    Safe allowed I (CrashM.lift y) y := fun m hm => .inr ⟨rfl, h m hm⟩

theorem pure (a : α) : Safe allowed I (pure a : CrashM s α) (pure a) :=
  fun _ hm => .inr ⟨rfl, fun _ _ => hm⟩

theorem throw (e : EvalError) : Safe allowed I (throw e : CrashM s α) (throw e) :=
  fun _ _ => .inr ⟨rfl, fun _ h => by cases h⟩

theorem bind {f : α → CrashM s β} {g : α → FailM s β} (hx : Safe allowed I x y)
    (hf : ∀ a, Safe allowed I (f a) (g a)) : Safe allowed I (x >>= f) (y >>= g) := by
  intro m hm
  rcases hx m hm with ⟨c, hc, hcrash⟩ | ⟨hrun, hinv⟩
  · exact .inl ⟨c, hc, bind_crash hcrash⟩
  have hbind : (y >>= g) m = (ExceptT.bindCont g (y m).1 : StateM s _) (y m).2 := rfl
  rw [hbind]
  rcases hy : y m with ⟨r, m'⟩
  rw [hy] at hrun hinv
  cases r with
  | error e =>
    rw [bind_error hrun]
    exact .inr ⟨rfl, fun _ h => by cases h⟩
  | ok a =>
    rw [bind_ok hrun]
    exact hf a m' (hinv a rfl)

end Safe

end GuardedLisp
