import GuardedLisp.Decimal.Layout
import GuardedLisp.Proofs.Lexing.Grammar
import GuardedLisp.Proofs.Parsing.Flattening
import GuardedLisp.Text.Quoted

/-!
# What a printed token is read as

The text of a token is not always read as that token. An infinite number comes
back as a symbol. In a string, a backslash in front of a character that has no
meaning behind a backslash is dropped: a character that is written by its code
comes back as the characters of that code. All other tokens survive
(`TokenKind.reread_eq_iff`), and so do the data without these two
(`Datum.rereadAll_eq_iff`).
-/

namespace GuardedLisp

namespace Text

/-- A character that is written as `\0`, or as `\u` with its code point. -/
def IsCoded (c : Char) : Prop := escape c = ['\\', '0'] ∨ escape c = codePointEscape c

instance (c : Char) : Decidable (IsCoded c) := inferInstanceAs (Decidable (_ ∨ _))

/-- The characters that are written by their codes: NUL, and those that extend others or have no
printed form, but for the few that have an escape of their own. -/
theorem isCoded_iff (c : Char) : IsCoded c ↔ c = '\x00' ∨
    c ∉ ['"', '\\', '\n', '\r', '\t'] ∧ (isExtending c || isUnprintable c) = true := by
  by_cases hspecial : c ∈ ['"', '\\', '\n', '\r', '\t', '\x00']
  · simp only [List.mem_cons, List.not_mem_nil, or_false] at hspecial
    rcases hspecial with rfl | rfl | rfl | rfl | rfl | rfl <;> decide
  · simp only [List.mem_cons, List.not_mem_nil, or_false, not_or] at hspecial
    obtain ⟨hquote, hbackslash, hfeed, hreturn, htab, hnul⟩ := hspecial
    have hescape : escape c =
        if isExtending c || isUnprintable c then codePointEscape c else [c] := by
      rw [escape, if_neg hquote, if_neg hbackslash, if_neg hfeed, if_neg hreturn, if_neg htab,
        if_neg hnul]
    by_cases hcode : (isExtending c || isUnprintable c) = true
    · rw [if_pos hcode] at hescape
      exact iff_of_true (.inr hescape) (.inr ⟨by simp_all, hcode⟩)
    · rw [if_neg hcode] at hescape
      refine iff_of_false ?_ (by simp_all)
      simp [IsCoded, hescape, codePointEscape]

/-- What the escape of a character is read as. -/
def misread (c : Char) : List Char := if IsCoded c then (escape c).drop 1 else [c]

/-- A character that is written by its code is not read back. -/
theorem misread_append_ne {c : Char} (hc : IsCoded c) (rest rest' : List Char) :
    misread c ++ rest ≠ c :: rest' := by
  intro heq
  rw [misread, if_pos hc] at heq
  rcases hc with h | h <;> rw [h] at heq <;> cases heq
  · exact absurd h (by decide)
  · exact absurd h (by decide)

theorem flatMap_misread_eq_iff (cs : List Char) :
    cs.flatMap misread = cs ↔ ∀ c ∈ cs, ¬ IsCoded c := by
  induction cs with
  | nil => simp
  | cons c cs ih =>
    rw [List.flatMap_cons, List.forall_mem_cons]
    by_cases hc : IsCoded c
    · exact iff_of_false (misread_append_ne hc _ _) fun h => h.1 hc
    · simp [misread, hc, ih]

end Text

namespace Source

open Decimal (Layout)
open Text (IsCoded misread)

namespace TokenKind

/-- What the text of a token is read as. -/
def reread : TokenKind → TokenKind
  | number x => if x.isInf then symbol (Layout.plain.text x) else number x
  | string s => string (String.ofList (s.toList.flatMap misread))
  | k => k

/-- Nothing of the token is lost in its text. -/
def Survives : TokenKind → Prop
  | number x => x.isInf = false
  | string s => ∀ c ∈ s.toList, ¬ IsCoded c
  | _ => True

theorem reread_eq_iff (k : TokenKind) : k.reread = k ↔ k.Survives := by
  cases k with
  | number x => cases h : x.isInf <;> simp [reread, Survives, h]
  | string s =>
    rw [Survives, ← Text.flatMap_misread_eq_iff, reread, string.injEq, ← String.toList_inj,
      String.toList_ofList]
  | _ => exact iff_of_true rfl trivial

end TokenKind

namespace Datum

mutual

/-- What the text of a datum is read as. -/
def reread : Datum → Datum
  | number x => if x.isInf then symbol (Layout.plain.text x) else number x
  | string s => string (String.ofList (s.toList.flatMap misread))
  | symbol name => symbol name
  | list items => list (rereadAll items)

def rereadAll : List Datum → List Datum
  | [] => []
  | d :: ds => d.reread :: rereadAll ds

end

mutual

theorem flatten_reread (d : Datum) : d.reread.flatten = d.flatten.map TokenKind.reread := by
  cases d with
  | number x => cases h : x.isInf <;> simp [reread, flatten, TokenKind.reread, h]
  | string | symbol => rfl
  | list items => simp [reread, flatten, TokenKind.reread, flattenAll_rereadAll items]

theorem flattenAll_rereadAll (ds : List Datum) :
    flattenAll (rereadAll ds) = (flattenAll ds).map TokenKind.reread := by
  cases ds with
  | nil => rfl
  | cons d ds => simp [rereadAll, flattenAll, flatten_reread d, flattenAll_rereadAll ds]

end

mutual

theorem nesting_reread (d : Datum) : d.reread.nesting = d.nesting := by
  cases d with
  | number x => cases h : x.isInf <;> simp [reread, nesting, h]
  | string | symbol => rfl
  | list items => rw [reread, nesting, nesting, nestingOfItems_rereadAll items]

theorem nestingOfItems_rereadAll (ds : List Datum) :
    nestingOfItems (rereadAll ds) = nestingOfItems ds := by
  cases ds with
  | nil => rfl
  | cons d ds =>
    rw [rereadAll, nestingOfItems, nestingOfItems, nesting_reread d, nestingOfItems_rereadAll ds]

end

theorem rereadAll_eq_map (ds : List Datum) : rereadAll ds = ds.map reread := by
  induction ds with
  | nil => rfl
  | cons d ds ih => rw [rereadAll, List.map_cons, ih]

/-- The data that are read back unchanged are those whose tokens all are. -/
theorem rereadAll_eq_iff (ds : List Datum) :
    rereadAll ds = ds ↔ ∀ k ∈ flattenAll ds, k.Survives := by
  calc
    rereadAll ds = ds ↔ flattenAll (rereadAll ds) = flattenAll ds :=
      ⟨congrArg flattenAll, fun h => flattenAll_injective h⟩
    _ ↔ (flattenAll ds).map TokenKind.reread = (flattenAll ds).map id := by
      rw [flattenAll_rereadAll, List.map_id]
    _ ↔ ∀ k ∈ flattenAll ds, k.reread = k := List.map_inj_left
    _ ↔ ∀ k ∈ flattenAll ds, k.Survives := by simp only [TokenKind.reread_eq_iff]

end Datum

end Source

end GuardedLisp
