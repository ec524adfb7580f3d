import GuardedLisp.Proofs.Correspondence.Program

/-!
# Renamings of identities and frames

Values are alike up to a renaming if they are the same trees but for the
identities of their lists and procedures and for the frames of their closures,
and the renaming takes these to each other. A renaming is one-to-one, so a
comparison takes the same course on values that are alike (`equal_alike`), and it
keeps the order in which frames were created. Values that are alike correspond
(`Correspondence.ofRenaming`).
-/

namespace GuardedLisp

variable {σ : Type}

/-- Which identities, and which frames, stand for each other. -/
structure Renaming where
  addr : Nat → Nat → Prop
  frame : Nat → Nat → Prop
  addr_inj {a a' b b' : Nat} (ha : addr a a') (hb : addr b b') : a = b ↔ a' = b'
  older {f f' g g' : Nat} (hf : frame f f') (hg : frame g g') : f < g ↔ f' < g'

/-- What is allocated from here on stands for each other. -/
def Renaming.Supplies (ρ : Renaming) (n n' : Nat) : Prop := ∀ k, ρ.addr (n + k) (n' + k)

namespace Value

/-- The same tree up to a renaming. -/
inductive Alike (ρ : Renaming) : Value → Value → Prop where
  | nil : Alike ρ .nil .nil
  | bool (b : Bool) : Alike ρ (.bool b) (.bool b)
  | number (x : Float) : Alike ρ (.number x) (.number x)
  | string (s : String) : Alike ρ (.string s) (.string s)
  | symbol (name : String) : Alike ρ (.symbol name) (.symbol name)
  | list {addr addr' : Nat} {items items' : List Value} (depth : Nat) (ha : ρ.addr addr addr')
    (h : List.Forall₂ (Alike ρ) items items') :
    Alike ρ (.list addr depth items) (.list addr' depth items')
  | builtin {addr addr' : Nat} (p : Primitive) (ha : ρ.addr addr addr') :
    Alike ρ (.builtin addr p) (.builtin addr' p)
  | closure {addr addr' frame frame' : Nat} {body body' : Value} (params : List String)
    (ha : ρ.addr addr addr') (hbody : Alike ρ body body') (hf : ρ.frame frame frame') :
    Alike ρ (.closure addr params body frame) (.closure addr' params body' frame')
  | bridge {addr addr' : Nat} (call : BridgeCall) (ha : ρ.addr addr addr') :
    Alike ρ (.bridge addr call) (.bridge addr' call)

variable {ρ : Renaming} {v v' w w' : Value} {c c' : Comparison}

theorem Alike.depth_eq (h : Alike ρ v v') : v.depth = v'.depth := by cases h <;> rfl

theorem Alike.kin (h : Alike ρ v v') : v.Kin (Alike ρ) ρ.frame v' := by
  cases h with
  | list depth ha h => exact .list h
  | closure params ha hbody hf => exact .closure hbody hf
  | _ => constructor

theorem Alike.ofAtom (h : v.IsAtom) : Alike ρ v v := by
  cases v <;> first | exact h.elim | constructor

end Value

/-! ## Comparisons -/

/-- What two comparisons found equal stands for each other. -/
def Comparison.Alike (ρ : Renaming) (c c' : Comparison) : Prop :=
  ∀ {a a' b b' : Nat}, ρ.addr a a' → ρ.addr b b' →
    c.matched.contains (a, b) = c'.matched.contains (a', b')

namespace Comparison

variable {ρ : Renaming} {c c' : Comparison} {a a' b b' : Nat}

theorem Alike.start : Comparison.start.Alike ρ Comparison.start := by
  intro a a' b b' _ _
  simp [Comparison.start]

theorem Alike.expand (h : c.Alike ρ c') (pair pair' : Nat × Nat) :
    (c.expand pair).Alike ρ (c'.expand pair') := h

theorem Alike.found (h : c.Alike ρ c') (ha : ρ.addr a a') (hb : ρ.addr b b') :
    (c.found (a, b)).Alike ρ (c'.found (a', b')) := by
  intro x x' y y' hx hy
  have hpair : (a, b) = (x, y) ↔ (a', b') = (x', y') := by
    rw [Prod.mk.injEq, Prod.mk.injEq, ρ.addr_inj ha hx, ρ.addr_inj hb hy]
  simp only [Comparison.found, Std.HashSet.contains_insert, h hx hy]
  rw [Bool.eq_iff_iff]
  simp only [Bool.or_eq_true, beq_iff_eq, hpair]

end Comparison

namespace Value

variable {ρ : Renaming}

mutual

/-- A comparison takes the same course. -/
theorem compare_alike {v v' w w' : Value} {c c' : Comparison} (hv : v.Alike ρ v')
    (hw : w.Alike ρ w') (hc : c.Alike ρ c') :
    (compare v w c).1 = (compare v' w' c').1 ∧ (compare v w c).2.Alike ρ (compare v' w' c').2 := by
  match v, v', hv with
  | .list a d xs, .list a' _ xs', .list _ ha hxs =>
    cases hw with
    | @list b b' ys ys' d' hb hys =>
      have hab := ρ.addr_inj ha hb
      have hlength : xs.length ≠ ys.length ↔ xs'.length ≠ ys'.length := by
        rw [hxs.length_eq, hys.length_eq]
      obtain ⟨hsame, hitems⟩ := compareItems_alike hxs hys (hc.expand (a, b) (a', b'))
      rw [compare, compare]
      simp only [hab, hlength, hc ha hb]
      -- one allocation; depths or lengths that differ; a pair found equal before; the items
      split
      · exact ⟨rfl, hc⟩
      split
      · exact ⟨rfl, hc⟩
      split
      · exact ⟨rfl, hc⟩
      · refine ⟨hsame, ?_⟩
        rw [hsame]
        dsimp only
        split
        · exact hitems.found ha hb
        · exact hitems
    | _ => exact ⟨rfl, hc⟩
  | .builtin a _, .builtin a' _, .builtin _ ha =>
    cases hw with
    | builtin _ hb => exact ⟨by simp only [compare, Bool.beq_eq_decide_eq, ρ.addr_inj ha hb], hc⟩
    | _ => exact ⟨rfl, hc⟩
  | .closure a .., .closure a' .., .closure _ ha _ _ =>
    cases hw with
    | closure _ hb => exact ⟨by simp only [compare, Bool.beq_eq_decide_eq, ρ.addr_inj ha hb], hc⟩
    | _ => exact ⟨rfl, hc⟩
  | .bridge a _, .bridge a' _, .bridge _ ha =>
    cases hw with
    | bridge _ hb => exact ⟨by simp only [compare, Bool.beq_eq_decide_eq, ρ.addr_inj ha hb], hc⟩
    | _ => exact ⟨rfl, hc⟩
  | _, _, .nil | _, _, .bool _ | _, _, .number _ | _, _, .string _ | _, _, .symbol _ =>
    cases hw <;> exact ⟨rfl, hc⟩

theorem compareItems_alike {vs vs' ws ws' : List Value} {c c' : Comparison}
    (hvs : List.Forall₂ (Alike ρ) vs vs') (hws : List.Forall₂ (Alike ρ) ws ws')
    (hc : c.Alike ρ c') :
    (compareItems vs ws c).1 = (compareItems vs' ws' c').1 ∧
      (compareItems vs ws c).2.Alike ρ (compareItems vs' ws' c').2 := by
  match vs, vs', hvs with
  | [], [], .nil => rw [compareItems, compareItems] <;> simp [hc]
  | v :: vs, v' :: vs', .cons hv hvs =>
    cases hws with
    | nil => exact ⟨rfl, hc⟩
    | cons hw hws =>
      obtain ⟨hsame, hnext⟩ := compare_alike hv hw hc
      simp only [compareItems, hsame]
      split
      · exact compareItems_alike hvs hws hnext
      · exact ⟨rfl, hnext⟩

end

theorem equal_alike {v v' w w' : Value} (hv : v.Alike ρ v') (hw : w.Alike ρ w') :
    v.equal w = v'.equal w' := (compare_alike hv hw Comparison.Alike.start).1

end Value

/-! ## The correspondence -/

theorem Renaming.Supplies.next {ρ : Renaming} {n n' : Nat} (h : ρ.Supplies n n') :
    ρ.addr n n' :=
  h 0

theorem Renaming.Supplies.succ {ρ : Renaming} {n n' : Nat} (h : ρ.Supplies n n') :
    ρ.Supplies (n + 1) (n' + 1) := by
  intro k
  have := h (1 + k)
  rwa [← Nat.add_assoc, ← Nat.add_assoc] at this

/-- What is alike corresponds; the hosts are in one state. -/
def Correspondence.ofRenaming (ρ : Renaming) : Correspondence σ σ where
  value := Value.Alike ρ
  frame := ρ.frame
  supply := ρ.Supplies
  host := Eq
  broken _ := False
  kin := Value.Alike.kin
  atom := .ofAtom
  list hn h _ := by
    rw [Value.depthOver_congr (h.imp fun _ _ => Value.Alike.depth_eq)]
    exact .list _ hn.next h
  tail hn h := by
    cases h with
    | list depth ha h =>
      have hdrop := List.forall₂_drop 1 h
      rw [Value.depthOver_congr (hdrop.imp fun _ _ => Value.Alike.depth_eq)]
      exact .list _ hn.next hdrop
  closure hn hbody hf := .closure _ hn.next hbody hf
  builtin hn p := .builtin p hn.next
  bridge hn call := .bridge call hn.next
  equal := Value.equal_alike
  succ := Renaming.Supplies.succ
  older := ρ.older

/-! ## Hosts that see no numbers -/

/-- Every callable that a program can get at has the property. -/
def Bridge.Offers (P : HostFunction σ → Prop) (b : Bridge σ) : Prop :=
  ∀ target f, b.resolve target = .ok f → P f

namespace Bridge.Offers

variable {P : HostFunction σ → Prop} {b : Bridge σ}

theorem empty : (Bridge.empty : Bridge σ).Offers P := by
  intro target f hf
  cases target <;> simp [Bridge.resolve, Bridge.empty, Bridge.isAllowed] at hf

theorem registerFunction {f : HostFunction σ} (h : b.Offers P) (name : String) (hf : P f) :
    (b.registerFunction name f).Offers P := by
  intro target g hg
  cases target with
  | member owner member => exact h (.member owner member) g hg
  | custom code shown => exact h (.custom code shown) g hg
  | function name' =>
    simp only [Bridge.resolve, Bridge.registerFunction, Bridge.isAllowed,
      Std.TreeSet.contains_insert, Std.TreeMap.getElem?_insert] at hg
    by_cases hname : name = name'
    · obtain rfl : f = g := by simpa [hname] using hg
      exact hf
    · refine h (.function name') g ?_
      simpa [Bridge.resolve, Bridge.isAllowed, hname] using hg

end Bridge.Offers

/-- On arguments that are alike, in one state of the host, the callable replies alike, and leaves the
host in one state. -/
def HostFunction.Respects (f : HostFunction σ) (ρ : Renaming) : Prop :=
  ∀ (args args' : List Value) (host : σ) (n n' : Nat),
    List.Forall₂ (Value.Alike ρ) args args' → ρ.Supplies n n' →
      let r := ((f args).run host).run n
      let r' := ((f args').run host).run n'
      r.1.1.Kin (Value.Alike ρ) r'.1.1 ∧ r.1.2 = r'.1.2 ∧ ρ.Supplies r.2 r'.2

/-- The callable keeps no values of the language, and it looks at no identities and no frames. -/
def HostFunction.Opaque (f : HostFunction σ) : Prop := ∀ ρ, f.Respects ρ

theorem Correspondence.bridges_of_respects {b : Bridge σ} {ρ : Renaming}
    (h : b.Offers (·.Respects ρ)) : (ofRenaming ρ).Bridges b b := by
  intro target
  cases hf : b.resolve target with
  | error e => exact .error rfl
  | ok f =>
    refine .ok ⟨fun _ _ _ h => h, ?_⟩
    rintro args args' host _ n n' hargs rfl hn
    exact .inr (h target f hf args args' host n n' hargs hn)

end GuardedLisp
