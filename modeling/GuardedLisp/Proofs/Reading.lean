import GuardedLisp.Source.Program
import Mathlib.Tactic.Common

/-!
# The nesting of program texts

The reader opens no list inside `maxNesting` open ones, so no expression of a
program that can be read is nested deeper than that: what joins a list still open
has room below the limit for all the lists around it (`Fits`).
-/

namespace GuardedLisp.Source

theorem Datum.nestingOfItems_le {items : List Datum} {n : Nat} (h : ∀ d ∈ items, d.nesting ≤ n) :
    nestingOfItems items ≤ n := by
  induction items with
  | nil => exact Nat.zero_le n
  | cons d ds ih =>
    rw [nestingOfItems]
    exact Nat.max_le.2 ⟨h d List.mem_cons_self, ih fun d hd => h d (List.mem_cons_of_mem _ hd)⟩

/-- Below the limit there is room for the lists still open and for the items they have. -/
def Fits : List OpenList → Prop
  | [] => True
  | l :: outer => outer.length < maxNesting ∧
    (∀ d ∈ l.items, d.nesting + outer.length < maxNesting) ∧ Fits outer

theorem Fits.length_le {unclosed : List OpenList} (h : Fits unclosed) :
    unclosed.length ≤ maxNesting := by
  cases unclosed with
  | nil => exact Nat.zero_le _
  | cons l outer => exact h.1

/-- Nothing read so far is nested too deeply. -/
structure Reading.Bounded (r : Reading) : Prop where
  unclosed : Fits r.unclosed
  finished : ∀ d ∈ r.finished, d.nesting ≤ maxNesting

namespace Reading.Bounded

variable {r s : Reading} {p : Position} {d : Datum}

theorem push (h : r.Bounded) (hd : d.nesting + r.unclosed.length ≤ maxNesting) :
    (r.push d).Bounded := by
  obtain ⟨unclosed, finished⟩ := r
  cases unclosed with
  | nil =>
    refine ⟨h.unclosed, fun e he => ?_⟩
    rcases List.mem_cons.1 he with rfl | he
    · exact hd
    · exact h.finished e he
  | cons l outer =>
    obtain ⟨hroom, hitems, houter⟩ := h.unclosed
    refine ⟨⟨hroom, fun e he => ?_, houter⟩, h.finished⟩
    rcases List.mem_cons.1 he with rfl | he
    · simp only [List.length_cons] at hd; omega
    · exact hitems e he

theorem pushAtom (h : r.Bounded) (hd : d.nesting = 0) : (r.push d).Bounded :=
  h.push (by have := h.unclosed.length_le; omega)

theorem openList (h : r.Bounded) (hs : r.openList p = .ok s) : s.Bounded := by
  unfold Reading.openList at hs
  split at hs
  · next hroom => cases hs; exact ⟨⟨hroom, by simp, h.unclosed⟩, h.finished⟩
  · cases hs

theorem closeList (h : r.Bounded) (hs : r.closeList p = .ok s) : s.Bounded := by
  obtain ⟨unclosed, finished⟩ := r
  cases unclosed with
  | nil => cases hs
  | cons l outer =>
    cases hs
    obtain ⟨hroom, hitems, houter⟩ := h.unclosed
    refine push ⟨houter, h.finished⟩ ?_
    have hle : Datum.nestingOfItems l.items.reverse ≤ maxNesting - 1 - outer.length :=
      Datum.nestingOfItems_le fun d hd => by
        have := hitems d (List.mem_reverse.1 hd)
        omega
    rw [Datum.nesting]
    change _ + outer.length ≤ _
    omega

theorem finish (h : r.Bounded) {data : List Datum} (hdata : r.finish = .ok data) :
    ∀ d ∈ data, d.nesting ≤ maxNesting := by
  unfold Reading.finish at hdata
  split at hdata
  · cases hdata
    intro d hd
    exact h.finished d (List.mem_reverse.1 hd)
  · cases hdata

theorem read {tokens : List Token} (h : r.Bounded) {data : List Datum}
    (hdata : r.read tokens = .ok data) : ∀ d ∈ data, d.nesting ≤ maxNesting := by
  induction tokens generalizing r with
  | nil => exact h.finish hdata
  | cons t ts ih =>
    unfold Reading.read at hdata
    split at hdata
    · exact h.finish hdata
    · cases hs : r.openList t.position <;> rw [hs] at hdata
      · cases hdata
      · exact ih (h.openList hs) hdata
    · cases hs : r.closeList t.position <;> rw [hs] at hdata
      · cases hdata
      · exact ih (h.closeList hs) hdata
    · exact ih (h.pushAtom rfl) hdata
    · exact ih (h.pushAtom rfl) hdata
    · exact ih (h.pushAtom rfl) hdata

end Reading.Bounded

/-- No expression of a program is nested deeper than the limit. -/
theorem nesting_le_of_ofText {text : String} {data : List Datum}
    (h : Program.ofText text = .ok data) : ∀ d ∈ data, d.nesting ≤ maxNesting := by
  unfold Program.ofText at h
  split at h
  · cases h
  · exact Reading.Bounded.read (r := .start) ⟨trivial, by simp [Reading.start]⟩ h

end GuardedLisp.Source
