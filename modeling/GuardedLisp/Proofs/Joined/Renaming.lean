import GuardedLisp.Proofs.Coherence.Reached
import GuardedLisp.Proofs.Quotation
import GuardedLisp.Proofs.Reach

/-!
# From one renaming to another

Two renamings may agree on the identities that were given out so far. Then what is
alike up to the one is alike up to the other: the values that a heap knows
(`Heap.realike`), and with them the scopes and the state of the host
(`Described.realike`). A host may keep values of the language; it behaves uniformly
if it sees no identities and no frames (`HostFunction.Uniform`).

A world whose values were given out so far is alike itself, also after a number of
identities is skipped (`Correspondence.worlds_later`).
-/

namespace GuardedLisp

variable {σ τ : Type}

/-! ## Hosts that keep values -/

/-- What of a host's state is values of the language, in an order, and what is not. -/
structure Keeping (σ τ : Type) where
  values : σ → List Value
  rest : σ → τ

namespace Keeping

def Holds (k : Keeping σ τ) (host : σ) (v : Value) : Prop := v ∈ k.values host

/-- One state but for the values in it, which are alike. -/
structure Alike (k : Keeping σ τ) (ρ : Renaming) (host host' : σ) : Prop where
  values : List.Forall₂ (Value.Alike ρ) (k.values host) (k.values host')
  rest : k.rest host = k.rest host'

end Keeping

/-- On arguments that are alike, in states of the host that are, the callable replies alike, and
leaves the host in states that are alike. -/
def HostFunction.Uniform (k : Keeping σ τ) (f : HostFunction σ) : Prop :=
  ∀ (ρ : Renaming) (args args' : List Value) (host host' : σ) (n n' : Nat),
    List.Forall₂ (Value.Alike ρ) args args' → k.Alike ρ host host' → ρ.Supplies n n' →
      let r := ((f args).run host).run n
      let r' := ((f args').run host').run n'
      r.1.1.Kin (Value.Alike ρ) r'.1.1 ∧ k.Alike ρ r.1.2 r'.1.2 ∧ ρ.Supplies r.2 r'.2

/-- What is alike corresponds, in the host's state, too. -/
def Correspondence.upTo (k : Keeping σ τ) (ρ : Renaming) : Correspondence σ σ :=
  { Correspondence.ofRenaming ρ with host := k.Alike ρ }

theorem Correspondence.bridges_of_uniform {k : Keeping σ τ} {b : Bridge σ}
    (h : b.Offers (·.Uniform k)) (ρ : Renaming) : (upTo k ρ).Bridges b b := by
  intro target
  cases hf : b.resolve target with
  | error e => exact .error rfl
  | ok f =>
    refine .ok ⟨fun _ _ _ h => h, ?_⟩
    intro args args' host host' n n' hargs hhost hn
    exact .inr (h target f hf ρ args args' host host' n n' hargs hhost hn)

/-! ## Renamings that agree -/

namespace Renaming

/-- What stands for each other in the first one does in the second one, if it was given out before
`n`; frames do in both or in neither. -/
structure AgreesBelow (n : Nat) (ρ ρ' : Renaming) : Prop where
  addr : ∀ a a', a < n → ρ.addr a a' → ρ'.addr a a'
  frame : ∀ f f', ρ.frame f f' ↔ ρ'.frame f f'

theorem lt_congr {f f' g g' : Nat} (hf : f = f') (hg : g = g') : f < g ↔ f' < g' := by
  rw [hf, hg]

/-- What is given out from `n` on stands for what is given out from `n'` on. -/
def onward (n n' : Nat) : Renaming where
  addr a a' := n ≤ a ∧ a + n' = a' + n
  frame := Eq
  addr_inj := by omega
  older := lt_congr

theorem supplies_onward (n n' : Nat) : (onward n n').Supplies n n' := fun k =>
  ⟨Nat.le_add_right n k, by omega⟩

/-- From `n` on, `d` more were given out before. -/
def later (n d : Nat) : Renaming where
  addr a a' := a < n ∧ a' = a ∨ n ≤ a ∧ a' = a + d
  frame := Eq
  addr_inj := by omega
  older := lt_congr

/-- The `k` that are given out from `n` on, and the `d` behind them, change places. -/
def swap (n k d : Nat) : Renaming where
  addr a a' := (a < n ∨ n + k + d ≤ a) ∧ a' = a ∨ n ≤ a ∧ a < n + k ∧ a' = a + d ∨
    n + k ≤ a ∧ a < n + k + d ∧ a = a' + k
  frame := Eq
  addr_inj := by omega
  older := lt_congr

theorem later_agreesBelow_swap (n k d : Nat) : (later n d).AgreesBelow (n + k) (swap n k d) := by
  refine ⟨fun a a' ha h => ?_, fun _ _ => .rfl⟩
  rcases h with ⟨hlt, heq⟩ | ⟨hle, heq⟩
  · exact .inl ⟨.inl hlt, heq⟩
  · exact .inr (.inl ⟨hle, ha, heq⟩)

theorem onward_agreesBelow_swap (n k d : Nat) :
    (onward (n + k) n).AgreesBelow (n + k + d) (swap n k d) := by
  refine ⟨fun a a' ha h => ?_, fun _ _ => .rfl⟩
  obtain ⟨hle, heq⟩ := h
  exact .inr (.inr ⟨hle, ha, by omega⟩)

end Renaming

variable {ρ ρ' : Renaming} {h : Heap}

namespace Heap

mutual

/-- What a heap knows has identities that were given out. -/
theorem realike (hρ : ρ.AgreesBelow h.next ρ') {v v' : Value} (hv : h.known v)
    (halike : v.Alike ρ v') : v.Alike ρ' v' := by
  match v, v', halike with
  | .list _ _ items, .list _ _ items', .list depth ha hitems =>
    exact .list depth (hρ.addr _ _ (h.given hv rfl) ha) (realikeItems hρ (h.item hv) hitems)
  | .closure _ _ code _, .closure _ _ code' _, .closure params ha hcode hf =>
    exact .closure params (hρ.addr _ _ (h.given hv rfl) ha) (realike hρ (h.body hv).1 hcode)
      ((hρ.frame _ _).1 hf)
  | .builtin .., .builtin .., .builtin p ha => exact .builtin p (hρ.addr _ _ (h.given hv rfl) ha)
  | .bridge .., .bridge .., .bridge call ha =>
    exact .bridge call (hρ.addr _ _ (h.given hv rfl) ha)
  | _, _, .nil | _, _, .bool _ | _, _, .number _ | _, _, .string _ | _, _, .symbol _ =>
    exact .ofAtom trivial

theorem realikeItems (hρ : ρ.AgreesBelow h.next ρ') {vs vs' : List Value}
    (hvs : ∀ v ∈ vs, h.known v) (halike : List.Forall₂ (Value.Alike ρ) vs vs') :
    List.Forall₂ (Value.Alike ρ') vs vs' := by
  match vs, vs', halike with
  | [], [], _ => exact .nil
  | v :: vs, v' :: vs', .cons hv htail =>
    exact .cons (realike hρ (hvs v List.mem_cons_self) hv)
      (realikeItems hρ (fun w hw => hvs w (List.mem_cons_of_mem _ hw)) htail)

end

end Heap

namespace Correspondence

variable {k : Keeping σ τ}

/-- Scopes whose values are alike to themselves. -/
theorem stores_self {s : Store} (hframe : ∀ f f', ρ.frame f f' ↔ f = f')
    (hs : s.Holds fun v => v.Alike ρ v) : (upTo k ρ).Stores s s := by
  refine ⟨fun _ => (hframe _ _).2 rfl, fun {f f'} hf => ?_⟩
  obtain rfl := (hframe f f').1 hf
  cases hx : s.frames[f]? with
  | none => exact .none
  | some x =>
    refine .some ⟨?_, fun name => ?_⟩
    · cases x.parent with
      | none => exact .none
      | some p => exact .some ((hframe p p).2 rfl)
    · cases hv : x.bindings[name]? with
      | none => exact .none
      | some v => exact .some (hs f name v (by rw [Store.own?, hx]; exact hv))

/-- The scopes of a store whose values a heap knows. -/
theorem Stores.realike {s s' : Store} (hs : s.Holds h.known) (hρ : ρ.AgreesBelow h.next ρ')
    (halike : (upTo k ρ).Stores s s') : (upTo k ρ').Stores s s' := by
  refine ⟨fun n => (hρ.frame _ _).1 (halike.future n), fun {f f'} hf => ?_⟩
  have hframe := halike.frames ((hρ.frame f f').2 hf)
  cases hx : s.frames[f]? with
  | none =>
    rw [hx] at hframe
    rw [hframe.none_left]
    exact .none
  | some x =>
    rw [hx] at hframe
    obtain ⟨x', hx', hkin⟩ := hframe.some_left
    rw [hx']
    refine .some ⟨hkin.parent.imp fun hp => (hρ.frame _ _).1 hp, fun name => ?_⟩
    have hbinding := hkin.bindings name
    cases hv : x.bindings[name]? with
    | none =>
      rw [hv] at hbinding
      rw [hbinding.none_left]
      exact .none
    | some v =>
      rw [hv] at hbinding
      obtain ⟨v', hv', hvalue⟩ := hbinding.some_left
      rw [hv']
      have hown : s.own? f name = some v := by rw [Store.own?, hx]; exact hv
      exact .some (Heap.realike hρ (hs f name v hown) hvalue)

end Correspondence

/-! ## Identities given out -/

/-- Every identity in the value is less than `n`. -/
def Value.GivenOut (n : Nat) (v : Value) : Prop := ∀ addr ∈ v.identities, addr < n

instance (n : Nat) (v : Value) : Decidable (v.GivenOut n) :=
  inferInstanceAs (Decidable (∀ addr ∈ v.identities, addr < n))

theorem Value.GivenOut.alike_later {n : Nat} {v : Value} (h : v.GivenOut n) (d : Nat) :
    v.Alike (.later n d) v :=
  .ofParts v (fun _ addr hpart ha =>
    .inl ⟨h addr (hpart.identities.subset (mem_identities ha)), rfl⟩) fun _ _ => rfl

namespace Heap

variable {h : Heap}

mutual

/-- What a heap knows has identities that were given out. -/
theorem givenOut {v : Value} (hv : h.known v) : v.GivenOut h.next := by
  intro addr ha
  match v with
  | .list _ _ items =>
    rw [Value.identities] at ha
    rcases List.mem_append.1 ha with ha | ha
    · exact givenOutAll (h.item hv) addr ha
    · exact h.given hv (congrArg some (List.mem_singleton.1 ha).symm)
  | .closure _ _ body _ =>
    rw [Value.identities] at ha
    rcases List.mem_append.1 ha with ha | ha
    · exact givenOut (h.body hv).1 addr ha
    · exact h.given hv (congrArg some (List.mem_singleton.1 ha).symm)
  | .builtin .. | .bridge .. =>
    rw [Value.identities] at ha
    exact h.given hv (congrArg some (List.mem_singleton.1 ha).symm)
  | .nil | .bool _ | .number _ | .string _ | .symbol _ => cases ha

theorem givenOutAll {vs : List Value} (hvs : ∀ v ∈ vs, h.known v) :
    ∀ addr ∈ Value.identitiesAll vs, addr < h.next := by
  intro addr ha
  match vs with
  | [] => cases ha
  | v :: vs =>
    rw [Value.identitiesAll] at ha
    rcases List.mem_append.1 ha with ha | ha
    · exact givenOut (hvs v List.mem_cons_self) addr ha
    · exact givenOutAll (fun w hw => hvs w (List.mem_cons_of_mem _ hw)) addr ha

end

end Heap

/-- In all states that a host can bring about, identities were given out that occur anywhere. -/
theorem Reached.givenOut {held : σ → Value → Prop} {O : Value → Prop} {w : World σ}
    (h : Reached held O w) : w.store.Holds (Value.GivenOut w.next) ∧
      (∀ v, held w.host v → v.GivenOut w.next) ∧ ∀ v : Value, v.AtHand O → v.GivenOut w.next := by
  obtain ⟨heap, hd⟩ := h.described
  rw [hd.fits.next]
  exact ⟨hd.store.imp fun _ => Heap.givenOut, fun v hv => Heap.givenOut (hd.fits.host v hv),
    fun v hv => Heap.givenOut (hd.atHand hv)⟩

/-- A world beside the same world where `d` more identities were given out. -/
theorem Correspondence.worlds_later {k : Keeping σ τ} {w : World σ}
    (hstore : w.store.Holds (Value.GivenOut w.next))
    (hhost : ∀ v ∈ k.values w.host, v.GivenOut w.next) (d : Nat) (journal journal' : List Event) :
    (upTo k (.later w.next d)).Worlds { w with journal }
      { w with next := w.next + d, journal := journal' } := by
  refine ⟨?_, fun j => .inr ⟨Nat.le_add_right _ _, Nat.add_right_comm _ _ _⟩, ?_, rfl⟩
  · exact stores_self (fun _ _ => .rfl) (hstore.imp fun _ hv => hv.alike_later d)
  · exact List.forall₂_same.2 fun v hv => (hhost v hv).alike_later d

end GuardedLisp
