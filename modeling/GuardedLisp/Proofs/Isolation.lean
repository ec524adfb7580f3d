import GuardedLisp.Proofs.Reach

/-!
# Isolation of frames

An evaluation acts on the frames that can be reached from the expression and from
the frame that it is evaluated in, and on those that it makes itself; these are its
domain. It leaves every other frame as it was, it can be told nothing by them, and
what it answers and stores leads nowhere else (`frames_isolated`). The host is
assumed to put no closures into the program's hands but those that it was given.

Bodies of closures have to be counted among what is reached: a body is a value, and
it may hold a procedure (`isolation_needs_bodies`).
-/

namespace GuardedLisp

variable {σ : Type}

/-! ## Hosts that make no closures -/

/-- Every closure in what the callable returns is part of an argument. -/
def HostFunction.MakesNoClosure (f : HostFunction σ) : Prop :=
  ∀ args host n v, (((f args).run host).run n).1.1 = .value v →
    ∀ addr params body frame, v.Part True (.closure addr params body frame) →
      ∃ a ∈ args, a.Part True (.closure addr params body frame)

/-- The callable does not see the numbers of frames. -/
def HostFunction.BlindToFrames (f : HostFunction σ) : Prop :=
  ∀ ρ : Renaming, (∀ a a', ρ.addr a a' ↔ a = a') → f.Respects ρ

/-! ## Renamings that keep frames -/

/-- Identities, and the frames of a set, stand for themselves. -/
def Renaming.onto (S : Nat → Prop) : Renaming where
  addr := Eq
  frame f f' := f = f' ∧ S f
  addr_inj := by omega
  older := by omega

/-- New frames, from `n` and from `n'` on, stand for each other besides. -/
def Renaming.beyond (S : Nat → Prop) (n n' : Nat) (h : ∀ f, S f → f < n ∧ f < n') : Renaming where
  addr := Eq
  frame f f' := (f = f' ∧ S f) ∨ ∃ k, f = n + k ∧ f' = n' + k
  addr_inj := by omega
  older := by
    rintro f _ g _ (⟨rfl, hf⟩ | ⟨k, rfl, rfl⟩) (⟨rfl, hg⟩ | ⟨l, rfl, rfl⟩)
    · rfl
    · have := h f hf; omega
    · have := h g hg; omega
    · omega

/-- A callable that makes no closures replies with values that capture frames of the set if its
arguments do. -/
theorem HostFunction.MakesNoClosure.respects {f : HostFunction σ} (h : f.MakesNoClosure)
    (S : Nat → Prop) : f.Respects (.onto S) := by
  intro args args' host n n' hargs hn
  obtain rfl : n = n' := hn 0
  obtain rfl : args = args' := Value.Alike.eqItems id And.left hargs
  refine ⟨?_, rfl, fun _ => rfl⟩
  cases hreply : (((f args).run host).run n).1.1 with
  | failure message => exact .failure message
  | crash message => exact .crash message
  | raise report => exact .raise report
  | value v =>
    refine .value (Value.Alike.ofCaptured (fun _ => rfl) v fun g hc => ⟨rfl, ?_⟩)
    obtain ⟨addr, params, body, hpart⟩ := hc
    obtain ⟨a, ha, hpart⟩ := h args host n v hreply addr params body g hpart
    obtain ⟨a', -, halike⟩ := forall₂_mem_left hargs ha
    obtain ⟨g', -, hg⟩ := halike.captured ⟨addr, params, body, hpart⟩
    exact hg

/-! ## Stores that agree -/

namespace Store

/-- The frames that can be reached from `e` or `x`, and those still to be made. -/
def Domain (s : Store) (e : Nat) (x : Value) (f : Nat) : Prop :=
  s.Reachable True e x f ∨ s.nextFrame ≤ f

/-- What can be reached from `e` or `x` is the same in both: parents, names and values. -/
def Agrees (s s' : Store) (e : Nat) (x : Value) : Prop :=
  ∀ f, s.Reachable True e x f → Option.Rel (Frame.Kin Eq Eq) s.frames[f]? s'.frames[f]?

theorem Agrees.refl (s : Store) (e : Nat) (x : Value) : s.Agrees s e x := by
  intro f _
  cases s.frames[f]? with
  | none => exact .none
  | some y =>
    have heq {α : Type} (o : Option α) : Option.Rel Eq o o := by cases o <;> constructor; rfl
    exact .some ⟨heq _, fun name => heq _⟩

/-- What can be reached and exists in the one exists in the other. -/
theorem Agrees.lt_nextFrame {s s' : Store} {e f : Nat} {x : Value} (h : s.Agrees s' e x)
    (hf : s.Reachable True e x f) (hlt : f < s.nextFrame) : f < s'.nextFrame := by
  have hagree := h f hf
  rw [Array.getElem?_eq_getElem hlt] at hagree
  obtain ⟨y, hy, -⟩ := hagree.some_left
  exact (Array.getElem?_eq_some_iff.1 hy).1

end Store

/-- Equal frames correspond if the renaming keeps what they refer to. -/
theorem Frame.Kin.ofRefers {s : Store} {f : Nat} {x x' : Frame} {ρ : Renaming}
    (hρ : ∀ a, ρ.addr a a) (hx : s.frames[f]? = some x) (h : Frame.Kin Eq Eq x x')
    (hrefers : ∀ g, s.Refers True f g → ρ.frame g g) :
    Frame.Kin (Value.Alike ρ) ρ.frame x x' := by
  refine ⟨?_, fun name => ?_⟩
  · have hparent := h.parent
    cases hp : x.parent with
    | none => rw [hp] at hparent; rw [hparent.none_left]; exact .none
    | some p =>
      rw [hp] at hparent
      obtain ⟨p', hp', rfl⟩ := hparent.some_left
      rw [hp']
      exact .some (hrefers p (.parent hx hp))
  · have hbinding := h.bindings name
    cases hv : x.bindings[name]? with
    | none => rw [hv] at hbinding; rw [hbinding.none_left]; exact .none
    | some v =>
      rw [hv] at hbinding
      obtain ⟨v', hv', rfl⟩ := hbinding.some_left
      rw [hv']
      have hown : s.own? f name = some v := by rw [Store.own?, hx]; exact hv
      exact .some (Value.Alike.ofCaptured hρ v fun g hc => hrefers g (.bound hown hc))

namespace Correspondence

section stores

variable {s s' : Store} {e : Nat} {x : Value} {ρ : Renaming}

theorem frames_of_reachable (h : s.Agrees s' e x) (hρ : ∀ a, ρ.addr a a)
    (hkeeps : ∀ g, s.Reachable True e x g → ρ.frame g g) {f : Nat} (hf : s.Reachable True e x f) :
    Option.Rel (Frame.Kin (Value.Alike ρ) ρ.frame) s.frames[f]? s'.frames[f]? := by
  have hagree := h f hf
  cases hy : s.frames[f]? with
  | none => rw [hy] at hagree; rw [hagree.none_left]; exact .none
  | some y =>
    rw [hy] at hagree
    obtain ⟨y', hy', hkin⟩ := hagree.some_left
    rw [hy']
    exact .some (.ofRefers hρ hy hkin fun g hg => hkeeps g (hf.refers hg))

theorem stores_onto (h : s.Agrees s' e x) (hsize : s'.nextFrame = s.nextFrame) :
    (ofRenaming (σ := σ) (.onto (s.Domain e x))).Stores s s' := by
  refine ⟨fun k => ⟨by rw [hsize], .inr (Nat.le_add_right _ _)⟩, ?_⟩
  rintro f _ ⟨rfl, hf | hf⟩
  · have hkeeps (g : Nat) (hg : s.Reachable True e x g) :
        (Renaming.onto (s.Domain e x)).frame g g :=
      ⟨rfl, .inl hg⟩
    exact frames_of_reachable h (fun _ => rfl) hkeeps hf
  · have hf' : s'.nextFrame ≤ f := by rw [hsize]; exact hf
    rw [Store.frame_eq_none hf, Store.frame_eq_none hf']
    exact .none

theorem stores_beyond (h : s.Agrees s' e x)
    (hold : ∀ f, s.Reachable True e x f → f < s.nextFrame ∧ f < s'.nextFrame) :
    (ofRenaming (σ := σ) (.beyond _ s.nextFrame s'.nextFrame hold)).Stores s s' := by
  refine ⟨fun k => .inr ⟨k, rfl, rfl⟩, ?_⟩
  rintro f f' (⟨rfl, hf⟩ | ⟨k, rfl, rfl⟩)
  · have hkeeps (g : Nat) (hg : s.Reachable True e x g) :
        (Renaming.beyond _ s.nextFrame s'.nextFrame hold).frame g g := .inl ⟨rfl, hg⟩
    exact frames_of_reachable h (fun _ => rfl) hkeeps hf
  · rw [Store.frame_eq_none (Nat.le_add_right _ k), Store.frame_eq_none (Nat.le_add_right _ k)]
    exact .none

/-- What a frame that stands for one refers to stands for one, too. -/
theorem refers_known (h : (ofRenaming (σ := σ) ρ).Stores s s') {f f' g : Nat} (hf : ρ.frame f f')
    (hfg : s.Refers True f g) : ∃ g', ρ.frame g g' := by
  cases hfg with
  | parent hx hp =>
    have hframe := h.frames hf
    rw [hx] at hframe
    obtain ⟨x', -, hkin⟩ := hframe.some_left
    have hparent := hkin.parent
    rw [hp] at hparent
    obtain ⟨g', -, hg⟩ := hparent.some_left
    exact ⟨g', hg⟩
  | @bound name v hv hc =>
    have hown := h.own?_alike hf name
    rw [hv] at hown
    obtain ⟨v', -, halike⟩ := hown.some_left
    exact Value.Alike.captured halike hc

end stores

/-! ## Runs -/

section runs

variable {bridge : Bridge σ} {x : Value} {e : Nat} {m m' : Machine σ} {ρ : Renaming}

/-- An expression evaluated in two worlds that correspond under a renaming that keeps it. -/
theorem run_alike (hb : (ofRenaming ρ).Bridges bridge bridge) (he : ρ.frame e e)
    (hx : x.Alike ρ x) (hg : m'.guard = m.guard) (hw : (ofRenaming ρ).Worlds m.world m'.world) :
    (ofRenaming ρ).Ends (Value.Alike ρ) m m' (eval bridge x e m) (eval bridge x e m') :=
  ((eval_alike hb).alike x x e e hx he m m' hg.symm hw).resolve_left id

/-- The evaluation in the domain of the expression, beside one in a store that agrees there. -/
theorem run_onto (hb : bridge.Offers HostFunction.MakesNoClosure) (hg : m'.guard = m.guard)
    (hhost : m'.world.host = m.world.host) (hnext : m'.world.next = m.world.next)
    (hsize : m'.world.store.nextFrame = m.world.store.nextFrame)
    (hs : m.world.store.Agrees m'.world.store e x) :
    (ofRenaming (.onto (m.world.store.Domain e x))).Ends
      (Value.Alike (.onto (m.world.store.Domain e x))) m m' (eval bridge x e m)
      (eval bridge x e m') := by
  have he : (Renaming.onto (m.world.store.Domain e x)).frame e e := ⟨rfl, .inl (.inl .refl)⟩
  have hx : x.Alike (.onto (m.world.store.Domain e x)) x :=
    .ofCaptured (fun _ => rfl) x fun g hc => ⟨rfl, .inl (.inr ⟨g, hc, .refl⟩)⟩
  have hbridges := bridges_of_respects fun target f hf =>
    (hb target f hf).respects (m.world.store.Domain e x)
  refine run_alike hbridges he hx hg ⟨stores_onto hs hsize, fun k => ?_, hhost.symm⟩
  change m.world.next + k = m'.world.next + k
  rw [hnext]

theorem run_self (hb : bridge.Offers HostFunction.MakesNoClosure) (x : Value) (e : Nat)
    (m : Machine σ) :
    (ofRenaming (.onto (m.world.store.Domain e x))).Ends
      (Value.Alike (.onto (m.world.store.Domain e x))) m m (eval bridge x e m)
      (eval bridge x e m) := run_onto hb rfl rfl rfl rfl (.refl _ e x)

/-- The evaluation beside one in a store that agrees on what can be reached. -/
theorem run_beyond (hb : bridge.Offers HostFunction.BlindToFrames) (hg : m'.guard = m.guard)
    (hhost : m'.world.host = m.world.host) (hnext : m'.world.next = m.world.next)
    (hs : m.world.store.Agrees m'.world.store e x)
    (hold : ∀ f, m.world.store.Reachable True e x f →
      f < m.world.store.nextFrame ∧ f < m'.world.store.nextFrame) :
    let ρ := Renaming.beyond _ m.world.store.nextFrame m'.world.store.nextFrame hold
    (ofRenaming ρ).Ends (Value.Alike ρ) m m' (eval bridge x e m) (eval bridge x e m') := by
  intro ρ
  have he : ρ.frame e e := .inl ⟨rfl, .inl .refl⟩
  have hx : x.Alike ρ x := .ofCaptured (fun _ => rfl) x fun g hc => .inl ⟨rfl, .inr ⟨g, hc, .refl⟩⟩
  have hbridges := bridges_of_respects fun target f hf => hb target f hf ρ fun _ _ => .rfl
  refine run_alike hbridges he hx hg ⟨stores_beyond hs hold, fun k => ?_, hhost.symm⟩
  change m.world.next + k = m'.world.next + k
  rw [hnext]

end runs

end Correspondence

/-! ## Isolation -/

/-- The values that an event puts into a frame. -/
def Event.stored : Event → List Value
  | .extend _ bindings => bindings.map Prod.snd
  | .define _ _ v | .assign _ _ v => [v]
  | _ => []

/-- What is stored in the domain captures frames of the domain. -/
theorem Event.Kin.stored_known {ρ : Renaming} {event event' : Event}
    (h : event.Kin (Value.Alike ρ) ρ.frame event') {v : Value} (hv : v ∈ event.stored) {f : Nat}
    (hc : v.Captures True f) : ∃ f', ρ.frame f f' := by
  cases h with
  | extend _ hb =>
    obtain ⟨b, hb', rfl⟩ := List.mem_map.1 hv
    obtain ⟨b', -, hkin⟩ := forall₂_mem_left hb hb'
    exact hkin.2.captured hc
  | define _ hv' | assign _ hv' =>
    obtain rfl := List.mem_singleton.1 hv
    exact hv'.captured hc
  | _ => cases hv

section isolation

variable {bridge : Bridge σ} {x : Value} {e : Nat} {m : Machine σ}

/-- The domain is closed under the references that there are in the end. -/
theorem domain_closed (hb : bridge.Offers HostFunction.MakesNoClosure) {f g : Nat}
    (hf : m.world.store.Domain e x f)
    (h : (eval bridge x e m).2.world.store.Reaches True f g) : m.world.store.Domain e x g := by
  have hends := Correspondence.run_self hb x e m
  refine h.closed (S := m.world.store.Domain e x) (fun f g hf hfg => ?_) hf
  obtain ⟨g', -, hg⟩ := Correspondence.refers_known hends.passage.worlds.store ⟨rfl, hf⟩ hfg
  exact hg

/-- What the evaluation answers leads only into the domain. -/
theorem result_in_domain (hb : bridge.Offers HostFunction.MakesNoClosure) {v : Value}
    (hv : (eval bridge x e m).1 = .ok v) {g : Nat} (hc : v.Captures True g) :
    m.world.store.Domain e x g := by
  have hends := Correspondence.run_self hb x e m
  have hresult := hends.result
  rw [hv] at hresult
  cases hresult with
  | ok h =>
    obtain ⟨g', -, hg⟩ := h.captured hc
    exact hg

/-- What the evaluation stores leads only into the domain. -/
theorem stored_in_domain (hb : bridge.Offers HostFunction.MakesNoClosure) {es : List Event}
    (hes : (eval bridge x e m).2.world.journal = es ++ m.world.journal) {event : Event}
    (hevent : event ∈ es) {v : Value} (hv : v ∈ event.stored) {g : Nat} (hc : v.Captures True g) :
    m.world.store.Domain e x g := by
  have hends := Correspondence.run_self hb x e m
  obtain ⟨es', es'', hes', -, hevents⟩ := hends.passage.events
  obtain rfl : es = es' := List.append_cancel_right (hes.symm.trans hes')
  obtain ⟨event', -, hkin⟩ := forall₂_mem_left hevents hevent
  obtain ⟨g', -, hg⟩ := hkin.stored_known hv hc
  exact hg

end isolation

/-- **Evaluations are confined to their domain**, the frames that can be reached from the expression
and from the frame it is evaluated in, and the frames made meanwhile. An evaluation leaves every
other frame as it was; its result, and all that it stores, lead only to frames of its domain. It is
told nothing by the other frames: from a store that agrees on what can be reached, it comes to the
same end, and to a store that agrees on its domain. If the other store has another number of frames,
the frames made meanwhile get other numbers, which the host is assumed not to see. -/
theorem frames_isolated (bridge : Bridge σ) (hbridge : bridge.Offers HostFunction.MakesNoClosure)
    (x : Value) (e : Nat) (m : Machine σ) :
    let s := m.world.store
    let p : Except EvalError Value × Machine σ := eval bridge x e m
    let k := p.2.world.store
    (∀ f, f < s.nextFrame → ¬ s.Reachable True e x f → k.frames[f]? = s.frames[f]?) ∧
    (∀ v, p.1 = .ok v → ∀ g, v.Captures True g → ∀ f, k.Reaches True g f → s.Domain e x f) ∧
    (∀ es, p.2.world.journal = es ++ m.world.journal → ∀ event ∈ es, ∀ v ∈ event.stored,
      ∀ g, v.Captures True g → ∀ f, k.Reaches True g f → s.Domain e x f) ∧
    ∀ m' : Machine σ, m'.guard = m.guard → m'.world.host = m.world.host →
      m'.world.next = m.world.next → s.Agrees m'.world.store e x →
      let p' : Except EvalError Value × Machine σ := eval bridge x e m'
      let k' := p'.2.world.store
      (m'.world.store.nextFrame = s.nextFrame →
        p'.1 = p.1 ∧ p'.2.guard = p.2.guard ∧ p'.2.world.host = p.2.world.host ∧
        p'.2.world.next = p.2.world.next ∧
        ∀ f, s.Domain e x f → Option.Rel (Frame.Kin Eq Eq) k.frames[f]? k'.frames[f]?) ∧
      (s.WellFormed → e < s.nextFrame → (∀ g, x.Captures True g → g < s.nextFrame) →
        bridge.Offers HostFunction.BlindToFrames → ∃ ρ : Renaming, (∀ a a', ρ.addr a a' ↔ a = a') ∧
          (∀ f f', ρ.frame f f' ↔ (f = f' ∧ s.Reachable True e x f) ∨
            ∃ i, f = s.nextFrame + i ∧ f' = m'.world.store.nextFrame + i) ∧
          ExceptKin (EvalError.Kin (Value.Alike ρ)) (Value.Alike ρ) p.1 p'.1 ∧
          p'.2.guard = p.2.guard ∧ p'.2.world.host = p.2.world.host ∧
          p'.2.world.next = p.2.world.next ∧
          ∀ f f', ρ.frame f f' →
            Option.Rel (Frame.Kin (Value.Alike ρ) ρ.frame) k.frames[f]? k'.frames[f']?) := by
  intro s p k
  refine ⟨fun f hf hfar => ?_, fun v hv g hc f h => ?_, fun es hes event hevent v hv g hc f h => ?_,
    fun m' hg hhost hnext hs => ⟨fun hsize => ?_, fun hwf he hx hblind => ?_⟩⟩
  -- a frame out of the domain stands for none, so the evaluation did not touch it
  · have hends := Correspondence.run_self hbridge x e m
    refine hends.passage.untouched f ?_
    rintro f' ⟨-, hreach | hnew⟩
    · exact hfar hreach
    · exact Nat.not_le_of_lt hf hnew
  · exact domain_closed hbridge (result_in_domain hbridge hv hc) h
  · exact domain_closed hbridge (stored_in_domain hbridge hes hevent hv hc) h
  -- new frames get the same numbers, so what is alike is equal
  · have hends := Correspondence.run_onto hbridge hg hhost hnext hsize hs
    have hvalue {v v' : Value} (h : v.Alike (.onto (s.Domain e x)) v') : v = v' :=
      h.eq id And.left
    have hworlds := hends.passage.worlds
    refine ⟨(hends.result.eq (EvalError.Kin.eq hvalue) hvalue).symm, hends.guard.symm,
      hworlds.host.symm, (hworlds.supply 0).symm, fun f hf => ?_⟩
    exact (hworlds.store.frames ⟨rfl, hf⟩).imp fun hkin => hkin.imp hvalue And.left
  -- only frames that exist can be reached, so no new frame has the number of one of them
  · have hold (f : Nat) (hf : s.Reachable True e x f) :
        f < s.nextFrame ∧ f < m'.world.store.nextFrame := by
      have hlt := hwf.reachable_lt he hx hf
      exact ⟨hlt, hs.lt_nextFrame hf hlt⟩
    have hends := Correspondence.run_beyond hblind hg hhost hnext hs hold
    have hworlds := hends.passage.worlds
    exact ⟨.beyond _ s.nextFrame m'.world.store.nextFrame hold, fun _ _ => .rfl, fun _ _ => .rfl,
      hends.result, hends.guard.symm, hworlds.host.symm, (hworlds.supply 0).symm,
      fun f f' hf => hworlds.store.frames hf⟩

/-! ## A store of bare frames -/

/-- A frame without a parent that binds only atoms. -/
def Frame.Bare (x : Frame) : Prop :=
  x.parent = none ∧ ∀ (name : String) (v : Value), x.bindings[name]? = some v → v.IsAtom

theorem Frame.Bare.refers_nothing {bodies : Prop} {s : Store} {f : Nat} {x : Frame}
    (hx : s.frames[f]? = some x) (h : x.Bare) (g : Nat) : ¬ s.Refers bodies f g := by
  intro hg
  cases hg with
  | parent hx' hp =>
    obtain rfl := Option.some.inj (hx.symm.trans hx')
    exact absurd (h.1.symm.trans hp) (by simp)
  | @bound name v hv hc =>
    rw [Store.own?, hx] at hv
    exact Value.not_captures_of_isAtom (h.2 name v hv) g hc

/-- Three frames; the first one binds a name. -/
def threeFrames : Store := ((Store.empty.addRoot [("z", .nil)]).addRoot []).addRoot []

theorem threeFrames_bare {f : Nat} {x : Frame} (hx : threeFrames.frames[f]? = some x) : x.Bare := by
  have hlt : f < 3 := (Array.getElem?_eq_some_iff.1 hx).1
  have hz : (Frame.ofBindings none [("z", .nil)]).Bare := by
    refine ⟨rfl, fun name v hv => ?_⟩
    simp only [Frame.ofBindings, Std.TreeMap.ofList_singleton, Std.TreeMap.getElem?_insert] at hv
    split at hv
    · obtain rfl := Option.some.inj hv
      trivial
    · simp at hv
  have hempty : (Frame.ofBindings none []).Bare := ⟨rfl, fun name v hv => by
    simp [Frame.ofBindings] at hv⟩
  match f, hlt with
  | 0, _ => cases hx; exact hz
  | 1, _ => cases hx; exact hempty
  | 2, _ => cases hx; exact hempty

theorem threeFrames_refers_nothing {bodies : Prop} (f g : Nat) :
    ¬ threeFrames.Refers bodies f g := by
  intro hfg
  obtain ⟨x, hx⟩ : ∃ x, threeFrames.frames[f]? = some x := by
    cases hfg with
    | parent hx _ => exact ⟨_, hx⟩
    | bound hv _ =>
      cases hx : threeFrames.frames[f]? with
      | none => rw [Store.own?, hx] at hv; cases hv
      | some x => exact ⟨x, rfl⟩
  exact (threeFrames_bare hx).refers_nothing hx g hfg

theorem threeFrames_reaches {bodies : Prop} {f g : Nat} (h : threeFrames.Reaches bodies f g) :
    g = f := by
  refine h.closed (S := (· = f)) (fun f' g' _ hfg => ?_) rfl
  exact absurd hfg (threeFrames_refers_nothing f' g')

theorem threeFrames_wellFormed : threeFrames.WellFormed := by
  have hnothing (f g : Nat) : ¬ threeFrames.Refers True f g := threeFrames_refers_nothing f g
  exact ⟨fun hx hp => absurd (.parent hx hp) (hnothing _ _),
    fun hv hc => absurd (.bound hv hc) (hnothing _ _)⟩

/-- A callable hands back the closure that it was given; the first frame is out of reach. -/
theorem frames_isolated_last :
    let last : HostFunction Unit := fun args => return .value (args.getLast?.getD .nil)
    let bridge := Bridge.empty.registerFunction "last" last
    let x : Value := .list 10 1 [.bridge 11 .function, .string "last", .closure 12 [] .nil 1]
    let p : Except EvalError Value × Machine Unit :=
      eval bridge x 2 ⟨.start .standard .nominal, ⟨threeFrames, 20, (), []⟩⟩
    p.2.world.store.frames[0]? = threeFrames.frames[0]? ∧
      p.1.toOption.map Value.typeName = some "procedure" := by
  intro last bridge x p
  have hlast : last.MakesNoClosure := by
    intro args host n v hv addr params body frame hpart
    obtain rfl : args.getLast?.getD .nil = v := HostReply.value.inj hv
    cases ha : args.getLast? with
    | none => rw [ha] at hpart; cases hpart
    | some a => rw [ha] at hpart; exact ⟨a, List.mem_of_getLast? ha, hpart⟩
  have hbridge : bridge.Offers HostFunction.MakesNoClosure :=
    Bridge.Offers.empty.registerFunction "last" hlast
  have hfar : ¬ threeFrames.Reachable True 2 x 0 := by
    rintro (h | ⟨g, ⟨addr, params, body, hpart⟩, h⟩)
    · exact absurd (threeFrames_reaches h) (by decide)
    · obtain rfl := threeFrames_reaches h
      simp only [x] at hpart
      rcases hpart with _ | ⟨hv, hpart⟩
      simp at hv
      rcases hv with rfl | rfl | rfl <;> rcases hpart with _ | _ | ⟨_, hpart⟩
      cases hpart
  exact ⟨(frames_isolated bridge hbridge x 2 _).1 0 (by decide) hfar, by decide +kernel⟩

/-- **Without the bodies of closures, isolation fails.** A closure over the second frame has a
procedure in its body that assigns in the first one. -/
theorem isolation_needs_bodies :
    let assigns : Value := .closure 10 []
      (.list 11 1 [.symbol "set!", .symbol "z", .string "new"]) 0
    let x : Value := .list 14 1 [.closure 12 [] (.list 13 1 [assigns]) 1]
    let m : Machine Unit := ⟨.start .standard .nominal, ⟨threeFrames, 20, (), []⟩⟩
    threeFrames.WellFormed ∧
      ¬ ∀ f, f < threeFrames.nextFrame → ¬ threeFrames.Reachable False 2 x f →
        (eval .empty x 2 m).2.world.store.frames[f]? = threeFrames.frames[f]? := by
  intro assigns x m
  refine ⟨threeFrames_wellFormed, fun h => ?_⟩
  have hfar : ¬ threeFrames.Reachable False 2 x 0 := by
    rintro (h | ⟨g, ⟨addr, params, body, hpart⟩, h⟩)
    · exact absurd (threeFrames_reaches h) (by decide)
    · obtain rfl := threeFrames_reaches h
      simp only [x] at hpart
      rcases hpart with _ | ⟨hv, hpart⟩
      obtain rfl := List.mem_singleton.1 hv
      rcases hpart with _ | _ | ⟨hbodies, _⟩
      exact hbodies
  have hsame : (eval .empty x 2 m).2.world.store.own? 0 "z" = threeFrames.own? 0 "z" := by
    rw [Store.own?, Store.own?, h 0 (by decide) hfar]
  have hchanged : ((eval .empty x 2 m).2.world.store.own? 0 "z").map Value.typeName ≠
      (threeFrames.own? 0 "z").map Value.typeName := by decide +kernel
  exact hchanged (congrArg _ hsame)

end GuardedLisp
