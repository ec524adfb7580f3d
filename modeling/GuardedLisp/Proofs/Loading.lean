import GuardedLisp.Proofs.Parts
import GuardedLisp.Proofs.Printing.Equality

/-!
# Loading a program

The evaluation of a text is that of the program that its data make, in a machine
whose guard and journal start afresh. What is read holds only atoms and lists, and
every list takes an identity from the supply meanwhile (`Value.Read`).
-/

namespace GuardedLisp

open Source (Datum)

variable {σ : Type}

/-- The program of these data, in a machine where they are read next. -/
def Machine.program (m : Machine σ) (data : List Datum) : List Value :=
  ((Value.ofData data).run m.world.next).1

/-- The machine in which this program runs. -/
def Machine.load (m : Machine σ) (data : List Datum) : Machine σ :=
  ⟨m.guard.reset, { m.world with next := ((Value.ofData data).run m.world.next).2, journal := [] }⟩

section evalText

variable {bridge : Bridge σ} {text : String} {frame : Nat} {m : Machine σ}

theorem evalText_of_error {e : Source.ParseError} (h : Source.Program.ofText text = .error e) :
    evalText bridge text frame m = (.error (.parse e), m.restart) := by
  unfold evalText
  rw [h]
  rfl

theorem evalText_of_ok {data : List Datum} (h : Source.Program.ofText text = .ok data) :
    evalText bridge text frame m = evalProgram bridge frame (m.program data) (m.load data) := by
  unfold evalText
  rw [h]
  rfl

end evalText

namespace Value

/-- An atom, or a list that took its identity from `n` on and before `n'`. -/
inductive Read (n n' : Nat) : Value → Prop where
  | atom {v : Value} (h : v.IsAtom) : Read n n' v
  | list {addr : Nat} (depth : Nat) (items : List Value) (hn : n ≤ addr) (hn' : addr < n') :
    Read n n' (.list addr depth items)

theorem Read.widen {n n' k k' : Nat} {v : Value} (h : Read n n' v) (hn : k ≤ n) (hn' : n' ≤ k') :
    Read k k' v := by
  cases h with
  | atom h => exact .atom h
  | list depth items h h' => exact .list depth items (Nat.le_trans hn h) (Nat.lt_of_lt_of_le h' hn')

mutual

/-- Every part of what is read was read. -/
theorem read_ofDatum (d : Datum) (n : Nat) {w : Value}
    (hw : ((ofDatum d).run n).1.Part True w) : Read n ((ofDatum d).run n).2 w := by
  match d with
  | .number _ | .string _ | .symbol _ =>
    rw [ofDatum] at hw ⊢
    cases hw
    exact .atom trivial
  | .list items =>
    rw [run_ofDatum_list] at hw ⊢
    have hle := le_next_ofData items n
    rcases hw with _ | ⟨hv, hw⟩
    · exact .list _ _ hle (Nat.lt_succ_self _)
    · exact (read_ofData items n hv hw).widen (Nat.le_refl n) (Nat.le_succ _)

theorem read_ofData (ds : List Datum) (n : Nat) {v w : Value} (hv : v ∈ ((ofData ds).run n).1)
    (hw : v.Part True w) : Read n ((ofData ds).run n).2 w := by
  match ds with
  | [] => rw [ofData] at hv; cases hv
  | d :: ds =>
    rw [run_ofData_cons] at hv ⊢
    rcases List.mem_cons.1 hv with rfl | hv
    · exact (read_ofDatum d n hw).widen (Nat.le_refl n) (le_next_ofData ds _)
    · exact (read_ofData ds _ hv hw).widen (le_next_ofDatum d n) (Nat.le_refl _)

end

end Value

end GuardedLisp
