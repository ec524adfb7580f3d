import GuardedLisp.Proofs.Parsing.Blame
import GuardedLisp.Proofs.Printing.Equality
import GuardedLisp.Proofs.Printing.Rescan

/-!
# Which programs survive printing and reading

A program that was read from a text, printed, and read again is a program of as
many expressions, in which every token is what its own text is read as
(`ofText_charsAll`). So it is the same program just when no number of it is
infinite and no string of it has a character that is written by its code
(`printed_survives_iff`): what is lost in one token nothing else makes up for.
-/

namespace GuardedLisp

open Source (Datum)

/-! ## The text of a program -/

namespace Value

mutual

theorem text_ofDatum (d : Datum) (n : Nat) :
    ((ofDatum d).run n).1.text = String.ofList d.chars := by
  cases d with
  | number | string | symbol => exact String.ofList_toList.symm
  | list items =>
    rw [run_ofDatum_list, text, itemsText_ofData items n, ← String.toList_inj]
    simp [Datum.chars]

theorem itemsText_ofData (ds : List Datum) (n : Nat) :
    itemsText ((ofData ds).run n).1 = String.ofList (Datum.charsAll ds) := by
  match ds with
  | [] =>
    rw [ofData]
    rfl
  | [d] =>
    have hd := text_ofDatum d n
    rw [run_ofData_cons]
    exact hd
  | d :: d' :: ds =>
    have hlater := itemsText_ofData (d' :: ds) ((ofDatum d).run n).2
    rw [run_ofData_cons] at hlater
    rw [run_ofData_cons, run_ofData_cons, itemsText_cons_cons, hlater, text_ofDatum d n,
      Datum.charsAll_cons_cons, ← String.toList_inj]
    simp

end

theorem intercalate_text (vs : List Value) : " ".intercalate (vs.map text) = itemsText vs := by
  match vs with
  | [] => rw [itemsText]; rfl
  | [v] => rw [List.map_singleton, String.intercalate_singleton, itemsText]
  | v :: w :: vs =>
    rw [List.map_cons, List.map_cons, String.intercalate_cons_cons, ← List.map_cons,
      intercalate_text (w :: vs), itemsText_cons_cons]

end Value

namespace Source

/-- Nothing of the program is lost in its text: no number of it is infinite, and no string of it
has a character that is written as `\0` or as `\u` with its code point. -/
def Program.Survives (program : List Datum) : Prop :=
  (∀ x, .number x ∈ Datum.flattenAll program → x.isInf = false) ∧
    ∀ s, .string s ∈ Datum.flattenAll program → ∀ c ∈ s.toList, ¬ Text.IsCoded c

theorem Program.survives_iff (program : List Datum) :
    Program.Survives program ↔ ∀ k ∈ Datum.flattenAll program, k.Survives := by
  refine ⟨fun ⟨hnumbers, hstrings⟩ k hk => ?_, fun h => ⟨fun x => h _, fun s => h _⟩⟩
  cases k with
  | number x => exact hnumbers x hk
  | string s => exact hstrings s hk
  | _ => trivial

namespace Datum

mutual

/-- A datum that is read back as an equal one is read back unchanged. -/
theorem same_reread_iff (d : Datum) (hd : ∀ k ∈ d.flatten, k.Legible) :
    d.reread.same d = true ↔ ∀ k ∈ d.flatten, k.Survives := by
  cases d with
  | number x =>
    have hnan : x.isNaN = false := hd (.number x) List.mem_cons_self
    have hne : x ≠ Float.nan := by simpa using hnan
    rw [flatten, List.forall_mem_singleton, TokenKind.Survives, reread]
    cases x.isInf with
    | true => exact iff_of_false nofun nofun
    | false => exact iff_of_true (Float.beq_self_iff.2 hne) rfl
  | string s =>
    rw [flatten, List.forall_mem_singleton, ← TokenKind.reread_eq_iff, reread, same,
      TokenKind.reread, TokenKind.string.injEq, beq_iff_eq]
  | symbol name => exact iff_of_true (beq_self_eq_true name) (by simp [flatten, TokenKind.Survives])
  | list items =>
    have hitems : ∀ k ∈ flattenAll items, k.Legible := fun k hk => hd k (by simp [flatten, hk])
    rw [reread, same, sameAll_rereadAll_iff items hitems, flatten, List.cons_append,
      List.forall_mem_cons, List.forall_mem_append, List.forall_mem_singleton]
    exact ⟨fun h => ⟨trivial, h, trivial⟩, fun h => h.2.1⟩

theorem sameAll_rereadAll_iff (ds : List Datum) (hds : ∀ k ∈ flattenAll ds, k.Legible) :
    sameAll (rereadAll ds) ds = true ↔ ∀ k ∈ flattenAll ds, k.Survives := by
  cases ds with
  | nil => exact iff_of_true rfl nofun
  | cons d ds =>
    rw [flattenAll, List.forall_mem_append] at hds ⊢
    rw [rereadAll, sameAll, Bool.and_eq_true, same_reread_iff d hds.1,
      sameAll_rereadAll_iff ds hds.2]

end

end Datum

/-- The tokens of a program that was read from a text are tokens of that text. -/
theorem legible_of_ofText {text : String} {program : List Datum}
    (h : Program.ofText text = .ok program) : ∀ k ∈ Datum.flattenAll program, k.Legible := by
  obtain ⟨cut, hcut⟩ := exists_cutsInto text.toList
  by_cases hclosed : cut.unclosed = []
  · rw [hcut.ofText_eq hclosed] at h
    intro k hk
    rw [← (flattenAll_of_ofTokens h).1] at hk
    obtain ⟨t, ht, rfl⟩ := List.mem_map.1 hk
    have ht := (List.takeWhile_sublist _).subset ht
    obtain ⟨p, hp, hkind, -⟩ := exists_piece_of_mem_tokensAfter ht
    obtain ⟨rest, hlexeme⟩ := hcut.lexeme hp
    exact hkind ▸ hlexeme.legible
  · rw [hcut.ofText_eq_error hclosed] at h
    cases h

theorem TokenKind.Legible.reread_ne_finish {k : TokenKind} (hk : k.Legible) :
    k.reread ≠ .finish := by
  cases k with
  | finish => exact absurd hk id
  | number x => rw [TokenKind.reread]; split <;> exact TokenKind.noConfusion
  | _ => exact TokenKind.noConfusion

theorem Remaining.tokens_nil (p : Position) : tokens ⟨p, []⟩ = .ok [⟨.finish, p⟩] :=
  tokens_of_finish (r := ⟨p, []⟩) (t := ⟨.finish, p⟩) rfl rfl

/-- The text of a program is read as what its tokens are read as. -/
theorem ofText_charsAll {program : List Datum}
    (hlegible : ∀ k ∈ Datum.flattenAll program, k.Legible)
    (hnesting : ∀ d ∈ program, d.nesting ≤ maxNesting) :
    Program.ofText (String.ofList (Datum.charsAll program)) = .ok (Datum.rereadAll program) := by
  have hend : Separated [] := nofun
  obtain ⟨ts, hts, htokens⟩ := Datum.readsAs_charsAll program hlegible hend .start
  rw [List.append_nil, Remaining.tokens_nil] at htokens
  have hkinds : ∀ t ∈ ts, decide (t.kind ≠ .finish) = true := by
    intro t ht
    have hkind := List.mem_map_of_mem (f := Token.kind) ht
    rw [hts] at hkind
    obtain ⟨k, hk, hreread⟩ := List.mem_map.1 hkind
    rw [← hreread, decide_eq_true_iff]
    exact (hlegible k hk).reread_ne_finish
  rw [Program.ofText, tokenize_eq, Remaining.ofText, String.toList_ofList, htokens]
  refine ofTokens_of_flattenAll ?_ fun d hd => ?_
  · rw [beforeFinish, List.takeWhile_append_of_pos hkinds, List.takeWhile_cons_of_neg (by simp),
      List.append_nil, hts, Datum.flattenAll_rereadAll]
  · rw [Datum.rereadAll_eq_map] at hd
    obtain ⟨e, he, rfl⟩ := List.mem_map.1 hd
    rw [Datum.nesting_reread]
    exact hnesting e he

end Source

/-- A program that was read from a text is printed with single spaces between its expressions,
and that text is read again. -/
theorem printed_survives_iff (text : String) (next : Nat) {program : List Datum}
    (h : Source.Program.ofText text = .ok program) :
    let values := (Value.ofData program).run next
    ∃ again, Source.Program.ofText (" ".intercalate (values.1.map Value.text)) = .ok again ∧
      again.length = program.length ∧
      (again = program ↔ Source.Program.Survives program) ∧
      ∀ later, values.2 ≤ later →
        (List.Forall₂ (fun v w => v.equal w = true) ((Value.ofData again).run later).1 values.1 ↔
          Source.Program.Survives program) := by
  have hlegible := Source.legible_of_ofText h
  refine ⟨Datum.rereadAll program, ?_, ?_, ?_, fun later hlater => ?_⟩
  · rw [Value.intercalate_text, Value.itemsText_ofData]
    exact Source.ofText_charsAll hlegible (Source.nesting_le_of_ofText h)
  · rw [Datum.rereadAll_eq_map, List.length_map]
  · rw [Datum.rereadAll_eq_iff, Source.Program.survives_iff]
  · rw [Value.forall₂_equal_ofData _ _ hlater, Datum.sameAll_rereadAll_iff program hlegible,
      Source.Program.survives_iff]

/-- Odd symbols and an escape come back; a NUL does not. -/
theorem printed_survives_iff_odd :
    (∃ program again, Source.Program.ofText "(- .3 --1 \"a\\n\")" = .ok program ∧
      Source.Program.ofText
        (" ".intercalate (((Value.ofData program).run 0).1.map Value.text)) = .ok again ∧
      again = program) ∧
    ∃ program again, Source.Program.ofText "\"\x00\"" = .ok program ∧
      Source.Program.ofText
        (" ".intercalate (((Value.ofData program).run 0).1.map Value.text)) = .ok again ∧
      again ≠ program := by
  constructor
  · have h : Source.Program.ofText "(- .3 --1 \"a\\n\")" =
        .ok [.list [.symbol "-", .symbol ".3", .symbol "--1", .string "a\n"]] := by
      rw [Source.Program.ofText, Source.tokenize_eq]
      cbv
    obtain ⟨again, hagain, -, hiff, -⟩ := printed_survives_iff "(- .3 --1 \"a\\n\")" 0 h
    refine ⟨_, again, h, hagain, hiff.2 ⟨?_, ?_⟩⟩
    · simp [Datum.flattenAll, Datum.flatten]
    · simp [Datum.flattenAll, Datum.flatten]
      decide
  · have h : Source.Program.ofText "\"\x00\"" = .ok [.string "\x00"] := by
      rw [Source.Program.ofText, Source.tokenize_eq]
      cbv
    obtain ⟨again, hagain, -, hiff, -⟩ := printed_survives_iff "\"\x00\"" 0 h
    refine ⟨_, again, h, hagain, fun heq => ?_⟩
    have := (hiff.1 heq).2 "\x00" (by simp [Datum.flattenAll, Datum.flatten]) '\x00' (by simp)
    exact this (by decide)

end GuardedLisp
