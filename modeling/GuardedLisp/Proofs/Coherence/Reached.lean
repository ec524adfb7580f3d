import GuardedLisp.Proofs.Coherence.Heap
import GuardedLisp.Proofs.Correspondence.Renaming
import GuardedLisp.Proofs.Loading
import GuardedLisp.Proofs.Scopes.Laws

/-!
# Coherent stores

The states that a host can bring about, with the values that it holds then
(`Reached`): it makes values and frames, writes and reads bindings, evaluates, calls,
runs texts, and resets. Each of these keeps a heap that describes the state. So in
all of them parents are older, captured frames exist, and an identity belongs to one
value; and what runs in between only adds to the scopes (`stores_coherent`).
-/

namespace GuardedLisp

variable {σ : Type}

namespace Value

/-- An atom, or part of a value of this kind. -/
def AtHand (O : Value → Prop) (v : Value) : Prop := v.IsAtom ∨ ∃ u, O u ∧ u.Part True v

theorem AtHand.known {O : Value → Prop} {v : Value} {h : Heap} (hO : ∀ u, O u → h.known u)
    (hv : v.AtHand O) : h.known v := by
  rcases hv with hv | ⟨u, hu, hpart⟩
  · exact h.atom hv
  · exact Heap.part (hO u hu) hpart

theorem NewAt.imp {n : Nat} {P Q P' Q' : Value → Prop} {F F' : Nat → Prop} {v : Value}
    (hP : ∀ v, P v → P' v) (hQ : ∀ v, Q v → Q' v) (hF : ∀ f, F f → F' f) (h : v.NewAt n P Q F) :
    v.NewAt n P' Q' F' := by
  cases h with
  | list h => exact .list fun v hv => hP v (h v hv)
  | closure params hbody hf => exact .closure params (hQ _ hbody) (hF _ hf)
  | builtin p => exact .builtin p
  | bridge call => exact .bridge call

end Value

open Value (AtHand)

/-! ## States -/

/-- What a host can run that holds these values. The list is the journal that the events are added
to; a text starts a journal of its own. -/
inductive Runs (bridge : Bridge σ) (O : Value → Prop) (w : World σ) :
    EvalM σ Value → List Event → Prop where
  | eval {c : Value} {f : Nat} (hc : c.AtHand O) (hf : f < w.store.nextFrame) :
    Runs bridge O w (eval bridge c f) w.journal
  | apply {callee : Value} {args : List Value} (hcallee : callee.AtHand O)
    (hargs : ∀ v ∈ args, v.AtHand O) : Runs bridge O w (apply bridge callee args) w.journal
  | text (text : String) {f : Nat} (hf : f < w.store.nextFrame) :
    Runs bridge O w (evalText bridge text f) []

/-- The host can bring about this world, and holds these values then. In its own state it holds
values as `held` says. -/
inductive Reached (held : σ → Value → Prop) : (Value → Prop) → World σ → Prop where
  | start {host : σ} (hhost : ∀ v, held host v → v.IsAtom) :
    Reached held (fun _ => False) (World.start host)
  | make {O : Value → Prop} {w : World σ} (h : Reached held O w) {v : Value}
    (hv : v.NewAt w.next (AtHand O) (AtHand O) (· < w.store.nextFrame)) :
    Reached held (fun u => O u ∨ u = v) { w with next := w.next + 1 }
  | entrust {O : Value → Prop} {w : World σ} (h : Reached held O w) {host : σ}
    (hhost : ∀ v, held host v → v.AtHand O ∨ held w.host v) : Reached held O { w with host }
  | get {O : Value → Prop} {w : World σ} (h : Reached held O w) {f : Nat} {name : String}
    {v : Value} (hv : w.store.get? f name = some v) : Reached held (fun u => O u ∨ u = v) w
  | root {O : Value → Prop} {w : World σ} (h : Reached held O w)
    {bindings : List (String × Value)} (hb : ∀ b ∈ bindings, b.2.AtHand O) :
    Reached held O { w with store := w.store.addRoot bindings }
  | extend {O : Value → Prop} {w : World σ} (h : Reached held O w) {parent : Nat}
    (hparent : parent < w.store.nextFrame) {bindings : List (String × Value)}
    (hb : ∀ b ∈ bindings, b.2.AtHand O) :
    Reached held O { w with store := w.store.extend parent bindings }
  | define {O : Value → Prop} {w : World σ} (h : Reached held O w) (f : Nat) (name : String)
    {v : Value} (hv : v.AtHand O) : Reached held O { w with store := w.store.define f name v }
  | set {O : Value → Prop} {w : World σ} (h : Reached held O w) (f : Nat) (name : String)
    {v : Value} (hv : v.AtHand O) : Reached held O { w with store := w.store.set f name v }
  | clear {O : Value → Prop} {w : World σ} (h : Reached held O w) (f : Nat) :
    Reached held O { w with store := w.store.clear f }
  | globals {O : Value → Prop} {w : World σ} (h : Reached held O w) :
    Reached held O w.addGlobals.2
  | run {O : Value → Prop} {w : World σ} (h : Reached held O w) {bridge : Bridge σ}
    (hbridge : bridge.Offers (HostFunction.Crafts held)) {x : EvalM σ Value} {base : List Event}
    (hx : Runs bridge O w x base) (g : Guard) :
    Reached held (fun v => O v ∨ (x ⟨g, w⟩).1 = .ok v) (x ⟨g, w⟩).2.world
  | reset {O : Value → Prop} {w : World σ} (h : Reached held O w) (bridge : Bridge σ) (g : Guard)
    (f : Nat) : Reached held O (Interpreter.mk bridge ⟨g, w⟩ f).reset.machine.world

/-- At hand for the host, or in its state, or bound in some frame, or part of such a value. -/
def Alive (held : σ → Value → Prop) (O : Value → Prop) (w : World σ) : Value → Prop :=
  AtHand fun u => O u ∨ held w.host u ∨ ∃ f name, w.store.own? f name = some u

/-! ## Heaps that describe them -/

/-- The heap knows all that is alive. -/
structure Described (held : σ → Value → Prop) (O : Value → Prop) (w : World σ) (h : Heap) :
    Prop where
  store : w.store.Holds h.known
  fits : h.Fits held w
  owned : ∀ v, O v → h.known v

namespace Described

variable {held : σ → Value → Prop} {O : Value → Prop} {w : World σ} {h : Heap}

theorem atHand (hd : Described held O w h) {v : Value} (hv : v.AtHand O) : h.known v :=
  hv.known hd.owned

theorem alive (hd : Described held O w h) {v : Value} (hv : Alive held O w v) : h.known v := by
  refine hv.known fun u hu => ?_
  rcases hu with hu | hu | ⟨f, name, hu⟩
  · exact hd.owned u hu
  · exact hd.fits.host u hu
  · exact hd.store f name u hu

/-- One more value that is known. -/
theorem own (hd : Described held O w h) {v : Value} (hv : h.known v) :
    Described held (fun u => O u ∨ u = v) w h :=
  ⟨hd.store, hd.fits, fun u hu => hu.elim (hd.owned u) fun heq => heq ▸ hv⟩

/-- A change of bindings in frames that are linked as before. -/
theorem write (hd : Described held O w h) {k : Store} (hk : k.Holds h.known)
    (hlinks : w.store.SameLinks k) : Described held O { w with store := k } h :=
  ⟨hk, hd.fits.write hlinks, hd.owned⟩

theorem addRoot (hd : Described held O w h) {bindings : List (String × Value)}
    (hb : ∀ b ∈ bindings, h.known b.2) :
    Described held O { w with store := w.store.addRoot bindings } h.addFrame :=
  ⟨hd.store.addRoot hb, hd.fits.addRoot bindings, hd.owned⟩

theorem extend (hd : Described held O w h) {parent : Nat} (hparent : parent < w.store.nextFrame)
    {bindings : List (String × Value)} (hb : ∀ b ∈ bindings, h.known b.2) :
    Described held O { w with store := w.store.extend parent bindings } h.addFrame :=
  ⟨hd.store.extend hb parent, hd.fits.extend hparent bindings, hd.owned⟩

theorem make (hd : Described held O w h) {v : Value}
    (hv : v.NewAt w.next (AtHand O) (AtHand O) (· < w.store.nextFrame)) :
    ∃ k, Described held (fun u => O u ∨ u = v) { w with next := w.next + 1 } k := by
  have hnew : h.New v := by
    rw [Heap.New, ← hd.fits.next, ← hd.fits.frames]
    exact hv.imp (fun _ => hd.atHand) (fun _ => hd.atHand) fun _ => id
  exact ⟨h.grow v hnew, hd.store.imp fun _ => .inl, hd.fits.grow hnew,
    fun u hu => hu.imp (hd.owned u) id⟩

/-- The point from which an evaluation goes on. -/
theorem world (hd : Described held O w h) :
    (coherence held w.journal).World (h, fun _ _ => False) w :=
  ⟨hd.store, hd.fits, [], rfl, .nil⟩

/-- What is made without an evaluation. -/
theorem supply {α : Type} (hd : Described held O w h) {x : AllocM α}
    {R : Heap × (Value → Nat → Prop) → α → Prop}
    (hx : (coherence held w.journal).Supplies (h, fun _ _ => False) x R) (journal : List Event) :
    ∃ i : Heap × (Value → Nat → Prop), h.Le i.1 ∧ R i (x.run w.next).1 ∧
      Described held O { w with next := (x.run w.next).2, journal } i.1 := by
  obtain ⟨i, hi, ⟨hfits, -⟩, hr⟩ := hx w hd.world.rest
  exact ⟨i, hi.1, hr, hd.store.imp hi.1.known, hfits.noted journal,
    fun v hv => hi.1.known v (hd.owned v hv)⟩

/-- Reading a text makes its lists, and its forms are known then. -/
theorem load {m : Machine σ} (hd : Described held O m.world h) (data : List Source.Datum) :
    ∃ k, h.Le k ∧ (∀ v ∈ m.program data, k.known v) ∧ Described held O (m.load data).world k := by
  obtain ⟨i, hle, hforms, hd'⟩ := hd.supply (Discipline.supplies_ofData _ data) []
  exact ⟨i.1, hle, hforms, hd'⟩

theorem addGlobals (hd : Described held O w h) : ∃ k, Described held O w.addGlobals.2 k := by
  obtain ⟨i, -, hbound, hd⟩ := hd.supply Discipline.supplies_table w.journal
  exact ⟨_, hd.addRoot hbound⟩

end Described

/-! ## Evaluations -/

/-- Functions that craft their values serve. -/
theorem HostFunction.Crafts.serves {held : σ → Value → Prop} {f : HostFunction σ}
    (hf : f.Crafts held) (base : List Event) (target : HostTarget) :
    (coherence held base).Serves target f := by
  rintro ⟨h, visited⟩ w args ⟨hfits, es, hes, hjust⟩ hargs
  obtain ⟨k, hmakes, hnext, hreply, hheld⟩ := hf h args w.host hargs hfits.host
  rw [← hfits.next] at hnext hreply hheld
  refine ⟨(k, visited), ⟨hmakes.le, fun _ _ => id⟩,
    ⟨⟨hnext.symm, hfits.frames.trans hmakes.frames.symm, hfits.older, hheld⟩,
      .callHost target args :: es, congrArg _ hes, ?_⟩, hreply⟩
  refine (hjust.mono hmakes.le.known).cons (fun _ _ _ h => by cases h) ?_
  rintro _ _ ⟨⟩ v hv
  exact hmakes.le.known v (hargs v hv)

/-- How a run ends that begins in a world that the heap describes. -/
structure Ended (held : σ → Value → Prop) (O : Value → Prop) (h : Heap) (base : List Event)
    (p : Except EvalError Value × Machine σ) (k : Heap) : Prop where
  le : h.Le k
  described : Described held (fun v => O v ∨ p.1 = .ok v) p.2.world k
  events : ∃ es, p.2.world.journal = es ++ base ∧ Justified k.known (fun _ _ => False) es

section runs

variable {held : σ → Value → Prop} {O : Value → Prop} {w : World σ} {h : Heap}
  {bridge : Bridge σ}

theorem Described.keeps (hd : Described held O w h) {x : EvalM σ Value}
    (hx : (coherence held w.journal).Keeps (h, fun _ _ => False) x (coherence held w.journal).value)
    (g : Guard) : ∃ k, Ended held O h w.journal (x ⟨g, w⟩) k := by
  obtain ⟨⟨k, visited⟩, ⟨hle, -⟩, hw, hresult⟩ := hx ⟨g, w⟩ hd.world
  obtain ⟨hfits, es, hes, hjust⟩ := hw.rest
  refine ⟨k, hle, ⟨hw.store, hfits, fun v hv => ?_⟩, es, hes,
    ⟨fun _ _ hc => hc.elim, hjust.defined, hjust.called⟩⟩
  rcases hv with hv | hv
  · exact hle.known v (hd.owned v hv)
  · exact hresult v hv

variable (hbridge : bridge.Offers (HostFunction.Crafts held))

include hbridge

theorem Bridge.Offers.bridges (base : List Event) : (coherence held base).Bridges bridge :=
  fun target f hf => (hbridge target f hf).serves base target

/-- A program of forms that the heap knows. -/
theorem Described.program (hd : Described held O w h) {f : Nat} (hf : f < w.store.nextFrame)
    {forms : List Value} (hforms : ∀ v ∈ forms, h.known v) (g : Guard) :
    ∃ k, Ended held O h w.journal (evalProgram bridge f forms ⟨g, w⟩) k := by
  have hframe : (coherence held w.journal).frame (h, fun _ _ => False) f := by
    change f < h.frames
    rwa [← hd.fits.frames]
  exact hd.keeps (Discipline.keeps_evalProgram (hbridge.bridges _) hframe hforms) g

theorem Described.run (hd : Described held O w h) {x : EvalM σ Value} {base : List Event}
    (hx : Runs bridge O w x base) (g : Guard) : ∃ k, Ended held O h base (x ⟨g, w⟩) k := by
  cases hx with
  | eval hc hf =>
    rw [hd.fits.frames] at hf
    exact hd.keeps ((Discipline.eval_visits (hbridge.bridges _)).visit _ _ _ (hd.atHand hc) hf) g
  | apply hcallee hargs =>
    exact hd.keeps (Discipline.keeps_apply (hbridge.bridges _) (hd.atHand hcallee)
      fun v hv => hd.atHand (hargs v hv)) g
  | @text text f hf =>
    cases hdata : Source.Program.ofText text with
    | error e =>
      rw [evalText_of_error hdata]
      exact ⟨h, .refl h, ⟨hd.store, hd.fits.noted [],
        fun v hv => hv.elim (hd.owned v) fun hv => by cases hv⟩, [], rfl, .nil⟩
    | ok data =>
      rw [evalText_of_ok hdata]
      obtain ⟨i, hle, hforms, hd'⟩ := Described.load (m := ⟨g, w⟩) hd data
      obtain ⟨k, hended⟩ := hd'.program hbridge hf hforms g.reset
      exact ⟨k, hle.trans hended.le, hended.described, hended.events⟩

end runs

/-- A heap describes every state that can be brought about. -/
theorem Reached.described {held : σ → Value → Prop} {O : Value → Prop} {w : World σ}
    (h : Reached held O w) : ∃ k, Described held O w k := by
  induction h with
  | start hhost =>
    refine ⟨.start, fun f name v hv => ?_, ⟨rfl, rfl, .empty, hhost⟩, fun v hv => hv.elim⟩
    simp [World.start, Store.own?, Store.empty] at hv
  | make _ hv ih =>
    obtain ⟨k, hd⟩ := ih
    exact hd.make hv
  | entrust _ hhost ih =>
    obtain ⟨k, hd⟩ := ih
    refine ⟨k, hd.store, ⟨hd.fits.next, hd.fits.frames, hd.fits.older, fun v hv => ?_⟩, hd.owned⟩
    exact (hhost v hv).elim hd.atHand (hd.fits.host v)
  | get _ hv ih =>
    obtain ⟨k, hd⟩ := ih
    exact ⟨k, hd.own (hd.store.get? hv)⟩
  | root _ hb ih =>
    obtain ⟨k, hd⟩ := ih
    exact ⟨_, hd.addRoot fun b hmem => hd.atHand (hb b hmem)⟩
  | extend _ hparent hb ih =>
    obtain ⟨k, hd⟩ := ih
    exact ⟨_, hd.extend hparent fun b hmem => hd.atHand (hb b hmem)⟩
  | define _ f name hv ih =>
    obtain ⟨k, hd⟩ := ih
    exact ⟨k, hd.write (hd.store.define (hd.atHand hv) f name) (.define ..)⟩
  | set _ f name hv ih =>
    obtain ⟨k, hd⟩ := ih
    exact ⟨k, hd.write (hd.store.set (hd.atHand hv) f name) (.set ..)⟩
  | clear _ f ih =>
    obtain ⟨k, hd⟩ := ih
    exact ⟨k, hd.write (hd.store.clear f) (.clear ..)⟩
  | globals _ ih =>
    obtain ⟨k, hd⟩ := ih
    exact hd.addGlobals
  | run _ hbridge hx g ih =>
    obtain ⟨h, hd⟩ := ih
    obtain ⟨k, hended⟩ := hd.run hbridge hx g
    exact ⟨k, hended.described⟩
  | reset _ bridge g f ih =>
    obtain ⟨k, hd⟩ := ih
    exact (hd.write (hd.store.clear f) (.clear ..)).addGlobals

/-! ## What only grows -/

theorem Runs.grows {bridge : Bridge σ} {O : Value → Prop} {w : World σ} {x : EvalM σ Value}
    {base : List Event} (hx : Runs bridge O w x base) (g : Guard) :
    ∃ es, (x ⟨g, w⟩).2.world.journal = es ++ base ∧
      w.store.Grown es (x ⟨g, w⟩).2.world.store := by
  cases hx with
  | @eval c f _ _ =>
    obtain ⟨es, hes, -⟩ := (eval_balanced bridge c f ⟨g, w⟩).journal
    exact ⟨es, hes.journal, hes.grown⟩
  | @apply callee args _ _ =>
    have hx : Stepwise bridge (evalWithin bridge g.room) (evalWithin bridge g.room)
        (applyWith bridge (evalWithin bridge g.room) callee args) _ := .apply callee args
    obtain ⟨es, hes, -⟩ := (hx.balanced (evalWithin_balanced bridge g.room) ⟨g, w⟩).journal
    exact ⟨es, hes.journal, hes.grown⟩
  | @text text f _ =>
    obtain ⟨y, hy, hrun⟩ := evalText_stepwise bridge text f
    rw [hrun]
    obtain ⟨es, hes, -⟩ := (hy.balanced (eval_balanced bridge) (Machine.restart ⟨g, w⟩)).journal
    exact ⟨es, hes.journal, hes.grown⟩

/-- **Stores stay coherent, and what runs only adds to them.** Take any state that a host can bring
about whose callables craft their values. Parents are older frames, so every walk to the root ends;
a frame binds a name once; the frames that closures capture exist; and values alive with one
identity are equal. What is evaluated, called or run from there, with whatever outcome, changes no
parent and unbinds no name. A value alive afterwards with the identity of one that was alive before
is that value. A frame that was there before binds a name anew only if a definition of the name was
visited in that very frame. -/
theorem stores_coherent {held : σ → Value → Prop} {O : Value → Prop} {w : World σ}
    (h : Reached held O w) :
    let s := w.store
    (∀ f p, s.link? f = some p → p < f) ∧
    (∀ f < s.nextFrame, ∃ fs, s.Chain f fs) ∧
    (∀ f, (s.names f).Nodup) ∧
    (∀ v, Alive held O w v → ∀ f, v.Captures True f → f < s.nextFrame) ∧
    (∀ v u addr, Alive held O w v → Alive held O w u → v.addr? = some addr →
      u.addr? = some addr → v = u) ∧
    ∀ bridge, bridge.Offers (HostFunction.Crafts held) → ∀ x base, Runs bridge O w x base → ∀ g,
      let p : Except EvalError Value × Machine σ := x ⟨g, w⟩
      let k := p.2.world
      (∀ f < s.nextFrame, k.store.link? f = s.link? f) ∧
      (∀ f name, name ∈ s.names f → name ∈ k.store.names f) ∧
      (∀ v u addr, Alive held O w v → Alive held (fun v => O v ∨ p.1 = .ok v) k u →
        v.addr? = some addr → u.addr? = some addr → u = v) ∧
      ∃ es, k.journal = es ++ base ∧ ∀ f < s.nextFrame, ∀ name, name ∈ k.store.names f →
        name ∉ s.names f → ∃ c e, .visit c f ∈ es ∧ c.Says (.define name e) := by
  obtain ⟨heap, hd⟩ := h.described
  have holder := hd.fits.older
  refine ⟨holder, fun f hf => holder.exists_chain hf, fun f => Store.nodup_names _ f,
    fun v hv f hc => ?_, fun v u addr hv hu => heap.same (hd.alive hv) (hd.alive hu),
    fun bridge hbridge x base hx g => ?_⟩
  · rw [hd.fits.frames]
    exact Heap.captured (hd.alive hv) hc
  · obtain ⟨k, hended⟩ := hd.run hbridge hx g
    obtain ⟨es, hes, hgrown⟩ := hx.grows g
    refine ⟨hgrown.link, fun f name hname => ?_, fun v u addr hv hu ha hb => ?_, es, hes,
      fun f hf name hnew hold => ?_⟩
    · rw [Store.mem_names_iff] at hname ⊢
      exact hgrown.binds f name hname
    · exact k.same (hended.described.alive hu) (hended.le.known v (hd.alive hv)) hb ha
    · rw [Store.mem_names_iff] at hnew hold
      obtain ⟨v, hv⟩ := hgrown.defined f hf name hnew (by simpa using hold)
      obtain ⟨es', hes', hjust⟩ := hended.events
      obtain rfl : es = es' := List.append_cancel_right (hes.symm.trans hes')
      exact hjust.defined f name v hv

/-- A callable wraps a list that the program bound. The list in its reply has the identity of the
bound one, so it is the bound one. -/
theorem stores_coherent_wrapped :
    let wrap : HostFunction Unit := fun args => do return .value (← Value.ofItems args)
    let bridge := Bridge.empty.registerFunction "wrap" wrap
    let p := evalText bridge "(def a (quote (1 2))) (call-js \"wrap\" a)" 0
      ⟨.start .standard .nominal, (World.start ()).addGlobals.2⟩
    let w := p.2.world
    Reached (fun _ _ => False) (fun v => False ∨ p.1 = .ok v) w ∧
      ∃ v outer depth u, w.store.own? 0 "a" = some v ∧ p.1 = .ok (.list outer depth [u]) ∧
        v.addr? = u.addr? ∧ v.typeName = "list" ∧ u = v := by
  intro wrap bridge p w
  have hwrap : wrap.Crafts fun _ _ => False := fun h args _ hargs _ =>
    ⟨_, .more .none (.list hargs), rfl, by rintro v ⟨⟩; exact .inr rfl, fun _ hv => hv.elim⟩
  have hbridge : bridge.Offers (HostFunction.Crafts fun _ _ => False) :=
    Bridge.Offers.empty.registerFunction "wrap" hwrap
  have hglobals : Reached (fun _ _ => False) (fun _ => False) (World.start ()).addGlobals.2 :=
    (Reached.start fun _ hv => hv.elim).globals
  have hreached : Reached (fun _ _ => False) (fun v => False ∨ p.1 = .ok v) w :=
    hglobals.run hbridge (.text _ (by decide)) _
  have hsame : ((w.store.own? 0 "a").any fun v => p.1.toOption.any fun r =>
      (Primitive.car.items r).toOption.any fun items => items.length == 1 && items.all fun u =>
        v.typeName == "list" && v.addr?.isSome && v.addr? == u.addr?) = true := by decide +kernel
  have of_toOption {ε α : Type} {r : Except ε α} {a : α} (h : r.toOption = some a) :
      r = .ok a := by
    cases r with
    | error e => cases h
    | ok b => cases h; rfl
  obtain ⟨v, hv, hsame⟩ := (Option.any_eq_true _ _).1 hsame
  obtain ⟨r, hr, hsame⟩ := (Option.any_eq_true _ _).1 hsame
  obtain ⟨items, hitems, hsame⟩ := (Option.any_eq_true _ _).1 hsame
  obtain ⟨outer, depth, rfl⟩ : ∃ outer depth, r = .list outer depth items := by
    have hitems := of_toOption hitems
    cases r <;> cases hitems
    exact ⟨_, _, rfl⟩
  obtain ⟨hlength, hsame⟩ := Bool.and_eq_true_iff.1 hsame
  obtain ⟨u, rfl⟩ := List.length_eq_one_iff.1 (beq_iff_eq.1 hlength)
  simp only [List.all_cons, List.all_nil, Bool.and_true, Bool.and_eq_true, beq_iff_eq,
    Option.isSome_iff_exists] at hsame
  obtain ⟨⟨hlist, addr, haddr⟩, heq⟩ := hsame
  have halive : Alive (fun _ _ => False) (fun v => False ∨ p.1 = .ok v) w v :=
    .inr ⟨v, .inr (.inr ⟨0, "a", hv⟩), .refl v⟩
  have halive' : Alive (fun _ _ => False) (fun v => False ∨ p.1 = .ok v) w u :=
    .inr ⟨_, .inl (.inr (of_toOption hr)), .item (by simp) (.refl u)⟩
  have hone := (stores_coherent hreached).2.2.2.2.1 u v addr halive' halive (heq ▸ haddr) haddr
  exact ⟨hreached, v, outer, depth, u, hv, of_toOption hr, heq, hlist, hone⟩

end GuardedLisp
