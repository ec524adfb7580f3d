import GuardedLisp.Proofs.Loading
import GuardedLisp.Proofs.Positions
import Mathlib.Data.List.Nodup
import Mathlib.Data.List.Pairwise

/-!
# Quoted data

What is read takes its identities one after the other, so that a list stands in one
place of the text (`identities_ofData`). Two evaluated positions of an expression are
the same place or have no list in common. So a list that stands in an evaluated
position of a program is under no quote of it (`not_quotes_of_program`).
-/

namespace GuardedLisp

open Source (Datum)

/-- The expressions that the form holds, in the order of the text. -/
def SpecialForm.held : SpecialForm → List Value
  | .quote _ => []
  | .branch condition consequent alternative => condition :: consequent :: alternative.toList
  | .define _ e | .assign _ e => [e]
  | .lambda _ body => [body]
  | .bind bindings body => bindings.map Prod.snd ++ [body]
  | .sequence first rest => first :: rest

theorem SpecialForm.Holds.mem_held {f : SpecialForm} {e : Value} (h : f.Holds e) : e ∈ f.held := by
  cases h with
  | init hb => exact List.mem_append_left _ (List.mem_map_of_mem hb)
  | bindBody => exact List.mem_append_right _ List.mem_cons_self
  | item he => exact he
  | _ => simp [held]

namespace Value

/-! ## Identities -/

mutual

/-- The identities in the value, what is inside first. -/
def identities : Value → List Nat
  | .list addr _ items => identitiesAll items ++ [addr]
  | .closure addr _ body _ => identities body ++ [addr]
  | .builtin addr _ | .bridge addr _ => [addr]
  | _ => []

def identitiesAll : List Value → List Nat
  | [] => []
  | v :: vs => identities v ++ identitiesAll vs

end

theorem identitiesAll_eq_flatMap (vs : List Value) : identitiesAll vs = vs.flatMap identities := by
  induction vs with
  | nil => rw [identitiesAll, List.flatMap_nil]
  | cons v vs ih => rw [identitiesAll, List.flatMap_cons, ih]

variable {c d e u v w : Value} {addr depth : Nat} {items us vs : List Value}

theorem flatMap_identities_sublist (h : us.Sublist vs) :
    (us.flatMap identities).Sublist (vs.flatMap identities) := by
  induction h with
  | slnil => exact .refl _
  | cons v _ ih => exact ih.trans (List.sublist_append_right v.identities _)
  | cons_cons v _ ih => exact ih.append_left v.identities

theorem identities_sublist_of_mem (h : v ∈ vs) : v.identities.Sublist (vs.flatMap identities) := by
  simpa using flatMap_identities_sublist (List.singleton_sublist.2 h)

theorem identities_list : (Value.list addr depth items).identities =
    items.flatMap identities ++ [addr] := by
  rw [identities, identitiesAll_eq_flatMap]

theorem Part.identities {bodies : Prop} (h : v.Part bodies w) :
    w.identities.Sublist v.identities := by
  induction h with
  | refl => exact .refl _
  | item hv _ ih =>
    rw [identities_list]
    exact (ih.trans (identities_sublist_of_mem hv)).trans (List.sublist_append_left _ _)
  | body _ _ ih =>
    rw [Value.identities]
    exact ih.trans (List.sublist_append_left _ _)

theorem mem_identities (h : v.addr? = some addr) : addr ∈ v.identities := by
  cases v <;> cases h <;> simp [identities]

mutual

/-- What is read takes the identities that follow, one after the other. -/
theorem identities_ofDatum (d : Datum) (n : Nat) :
    ∃ k, ((ofDatum d).run n).2 = n + k ∧ ((ofDatum d).run n).1.identities = List.range' n k := by
  match d with
  | .number _ | .string _ | .symbol _ =>
    rw [ofDatum]
    exact ⟨0, rfl, by rfl⟩
  | .list items =>
    obtain ⟨k, hnext, hitems⟩ := identities_ofData items n
    rw [run_ofDatum_list]
    refine ⟨k + 1, congrArg (· + 1) hnext, ?_⟩
    rw [identities_list, hitems, hnext, List.range'_1_concat]

theorem identities_ofData (ds : List Datum) (n : Nat) :
    ∃ k, ((ofData ds).run n).2 = n + k ∧
      ((ofData ds).run n).1.flatMap identities = List.range' n k := by
  match ds with
  | [] =>
    rw [ofData]
    exact ⟨0, rfl, rfl⟩
  | d :: ds =>
    obtain ⟨k, hnext, hhead⟩ := identities_ofDatum d n
    obtain ⟨l, hlast, htail⟩ := identities_ofData ds (n + k)
    rw [run_ofData_cons, hnext]
    refine ⟨k + l, hlast.trans (Nat.add_assoc n k l), ?_⟩
    rw [List.flatMap_cons, hhead, htail, List.range'_append_1]

end

theorem nodup_identities (ds : List Datum) (n : Nat) :
    (((ofData ds).run n).1.flatMap identities).Nodup := by
  obtain ⟨k, -, h⟩ := identities_ofData ds n
  rw [h]
  exact List.nodup_range'

/-! ## Places -/

/-- Where no identity is repeated, two of the values are one or have no identity in common. -/
theorem eq_or_disjoint (h : (vs.flatMap identities).Nodup) (hu : u ∈ vs) (hv : v ∈ vs) :
    u = v ∨ u.identities.Disjoint v.identities := by
  have hsymm : Std.Symm (Function.onFun List.Disjoint identities) := ⟨fun _ _ h _ hv hu => h hu hv⟩
  by_cases heq : u = v
  · exact .inl heq
  · exact .inr ((List.nodup_flatMap.1 h).2.forall hu hv heq)

/-- An expression spells one form at most. -/
theorem Says.unique {f g : SpecialForm} (h : c.Says f) (h' : c.Says g) : f = g := by
  obtain ⟨addr, depth, h⟩ := h
  generalize hv : Value.list addr depth _ = v at h'
  obtain ⟨addr', depth', h'⟩ := h'
  injection hv with _ _ hitems
  injection hitems with hname hoperands
  injection hname with hname
  have hkeyword := congrArg Keyword.ofName? hname
  rw [Keyword.ofName?_name, Keyword.ofName?_name] at hkeyword
  cases hkeyword
  cases hoperands
  exact Except.ok.inj (h.check_eq.symm.trans h'.check_eq)

theorem identities_inits_sublist {pairs : List Value} {bindings : List (String × Value)}
    (h : List.Forall₂ Binds pairs bindings) :
    ((bindings.map Prod.snd).flatMap identities).Sublist (pairs.flatMap identities) := by
  induction h with
  | nil => exact .refl _
  | cons hb _ ih =>
    rw [List.map_cons, List.flatMap_cons, List.flatMap_cons]
    exact (part_of_binds hb).identities.append ih

/-- What a form holds stands in different places of it. -/
theorem Says.held_sublist {f : SpecialForm} (h : c.Says f) :
    (f.held.flatMap identities).Sublist c.identities := by
  obtain ⟨addr, depth, hspells⟩ := h
  rename_i form operands
  rw [identities_list, List.flatMap_cons]
  suffices hoperands : (f.held.flatMap identities).Sublist (operands.flatMap identities) from
    (hoperands.trans (List.sublist_append_right _ _)).trans (List.sublist_append_left _ _)
  cases hspells with
  | quote => exact List.nil_sublist _
  | branch | branchElse | sequence => exact .refl _
  | define | assign | lambda => exact flatMap_identities_sublist (List.sublist_cons_self _ _)
  | @bind a n pairs bindings body hpairs =>
    have hinits := (identities_inits_sublist hpairs).trans (List.sublist_append_left _ [a])
    rw [SpecialForm.held, List.flatMap_append, List.flatMap_cons (x := list a n pairs),
      identities_list]
    exact hinits.append (.refl _)

/-- Two evaluated positions of an expression are among values that stand in different places. -/
theorem Subform.siblings (h : c.Subform u) (h' : c.Subform v) :
    ∃ vs : List Value, u ∈ vs ∧ v ∈ vs ∧ (vs.flatMap identities).Sublist c.identities := by
  cases h with
  | item hhead hu =>
    refine ⟨_, hu, ?_, identities_list ▸ List.sublist_append_left _ _⟩
    cases h' with
    | item _ hv => exact hv
    | held hc => obtain ⟨⟩ := hc; exact absurd ⟨_, rfl⟩ hhead
  | held hc hu =>
    refine ⟨_, hu.mem_held, ?_, hc.held_sublist⟩
    cases h' with
    | item hhead => obtain ⟨⟩ := hc; exact absurd ⟨_, rfl⟩ hhead
    | held hc' hv => exact hc.unique hc' ▸ hv.mem_held

/-! ## Quotes -/

/-- A quote that stands in an evaluated position of the expression has this in its argument. -/
def Quotes (c q : Value) : Prop := ∃ e d, c.Occurs e ∧ e.Says (.quote d) ∧ d.Part True q

/-- A quote holds no expression. -/
theorem Says.not_subform (h : c.Says (.quote d)) : ¬ c.Subform e := by
  intro he
  cases he with
  | item hhead => obtain ⟨⟩ := h; exact hhead ⟨_, rfl⟩
  | held hc he => cases h.unique hc; cases he

theorem Says.part (h : c.Says (.quote d)) : c.Part True d := by
  obtain ⟨addr, depth, items, rfl, hd⟩ := h.quoted
  exact .item hd (.refl d)

/-- The argument of a quote has fewer identities than the quote. -/
theorem Says.not_part (h : c.Says (.quote d)) : ¬ d.Part True c := by
  intro hpart
  obtain ⟨addr, depth, items, rfl, hd⟩ := h.quoted
  have hinside := (identities_sublist_of_mem hd).length_le
  have houtside := hpart.identities.length_le
  rw [identities_list, List.length_append, List.length_singleton] at houtside
  exact absurd (Nat.le_trans houtside hinside) (Nat.not_succ_le_self _)

theorem Quotes.part (h : v.Quotes c) : v.Part True c := by
  obtain ⟨e, d, he, hquote, hpart⟩ := h
  exact he.part.trans (hquote.part.trans hpart)

/-- **No list is code and data at once.** Where no identity is repeated, what stands in an evaluated
position and has an identity is under no quote. -/
theorem not_quotes_of_occurs (hv : v.identities.Nodup) (hc : v.Occurs c)
    (ha : c.addr? = some addr) : ¬ v.Quotes c := by
  rintro ⟨e, d, he, hquote, hpart⟩
  induction hc using Relation.ReflTransGen.head_induction_on with
  | refl => exact hquote.not_part (hpart.trans he.part)
  | head hu hc ih =>
    rcases he.cases_head with rfl | ⟨w, hw, he⟩
    · exact hquote.not_subform hu
    · obtain ⟨vs, hmem, hmem', hsublist⟩ := hu.siblings hw
      have hvs := hv.sublist hsublist
      rcases eq_or_disjoint hvs hmem hmem' with rfl | hdisjoint
      · exact ih (hvs.sublist (identities_sublist_of_mem hmem)) he
      · -- the list would stand in two places
        exact hdisjoint ((Occurs.part hc).identities.subset (mem_identities ha))
          (Quotes.part ⟨e, d, he, hquote, hpart⟩ |>.identities.subset (mem_identities ha))

end Value

/-- In a program that was read, no form quotes a list that is code in another place. -/
theorem Machine.not_quotes_of_program {σ : Type} (m : Machine σ) (data : List Datum)
    {form form' c : Value} {addr : Nat} (hform : form ∈ m.program data)
    (hform' : form' ∈ m.program data) (hc : form.Occurs c) (ha : c.addr? = some addr) :
    ¬ form'.Quotes c := by
  have hnodup := Value.nodup_identities data m.world.next
  intro hquoted
  rcases Value.eq_or_disjoint hnodup hform hform' with rfl | hdisjoint
  · exact Value.not_quotes_of_occurs
      (hnodup.sublist (Value.identities_sublist_of_mem hform)) hc ha hquoted
  · exact hdisjoint (hc.part.identities.subset (Value.mem_identities ha))
      (hquoted.part.identities.subset (Value.mem_identities ha))

end GuardedLisp
