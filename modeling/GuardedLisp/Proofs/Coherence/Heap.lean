import GuardedLisp.Proofs.Discipline.Run
import GuardedLisp.Proofs.Discipline.Supply
import GuardedLisp.Proofs.Parts
import GuardedLisp.Proofs.Scopes.Growth

/-!
# Heaps

What is known of the values that exist: a heap says which they are, how many
identities and frames were given out, and that an identity belongs to one value. It
is closed under taking values apart. A new value takes the next identity and is made
of known ones, so it makes a heap again (`Heap.grow`). An evaluation keeps to
heaps that grow, if the host functions that it calls make their values in that way
(`coherence`).
-/

namespace GuardedLisp

variable {σ : Type}

structure Heap where
  known : Value → Prop
  /-- The next free identity. -/
  next : Nat
  /-- How many frames there are. -/
  frames : Nat
  atom {v : Value} (h : v.IsAtom) : known v
  item {addr depth : Nat} {items : List Value} (h : known (.list addr depth items)) :
    ∀ v ∈ items, known v
  body {addr f : Nat} {params : List String} {body : Value}
    (h : known (.closure addr params body f)) : known body ∧ f < frames
  given {v : Value} {addr : Nat} (h : known v) (ha : v.addr? = some addr) : addr < next
  same {v w : Value} {addr : Nat} (hv : known v) (hw : known w) (ha : v.addr? = some addr)
    (hb : w.addr? = some addr) : v = w

namespace Heap

/-- Nothing but atoms. -/
def start : Heap where
  known := Value.IsAtom
  next := 0
  frames := 0
  atom := id
  item h := h.elim
  body h := h.elim
  given {v _} h ha := by cases v <;> first | exact h.elim | cases ha
  same {v _ _} h _ ha _ := by cases v <;> first | exact h.elim | cases ha

variable (h : Heap)

/-- A value made of known ones, with the next identity. -/
abbrev New (v : Value) : Prop := v.NewAt h.next h.known h.known (· < h.frames)

theorem New.addr? {h : Heap} {v : Value} (hv : h.New v) : v.addr? = some h.next := by
  cases hv <;> rfl

def grow (v : Value) (hv : h.New v) : Heap where
  known u := h.known u ∨ u = v
  next := h.next + 1
  frames := h.frames
  atom ha := .inl (h.atom ha)
  item := by
    rintro addr depth items (hold | rfl) u hu
    · exact .inl (h.item hold u hu)
    · cases hv with
      | list hitems => exact .inl (hitems u hu)
  body := by
    rintro addr f params body (hold | rfl)
    · exact ⟨.inl (h.body hold).1, (h.body hold).2⟩
    · cases hv with
      | closure _ hbody hf => exact ⟨.inl hbody, hf⟩
  given := by
    rintro u addr (hold | rfl) ha
    · exact Nat.lt_succ_of_lt (h.given hold ha)
    · rw [hv.addr?] at ha
      cases ha
      exact Nat.lt_succ_self _
  same := by
    -- an identity that was given out is not the next one
    have hfresh {u : Value} {addr : Nat} (hu : h.known u) (ha : u.addr? = some addr)
        (hb : v.addr? = some addr) : False := by
      rw [hv.addr?] at hb
      cases hb
      exact Nat.lt_irrefl _ (h.given hu ha)
    rintro u w addr (hu | rfl) (hw | rfl) ha hb
    · exact h.same hu hw ha hb
    · exact (hfresh hu ha hb).elim
    · exact (hfresh hw hb ha).elim
    · rfl

def addFrame : Heap where
  known := h.known
  next := h.next
  frames := h.frames + 1
  atom := h.atom
  item := h.item
  body hc := ⟨(h.body hc).1, Nat.lt_succ_of_lt (h.body hc).2⟩
  given := h.given
  same := h.same

variable {h}

theorem part {v w : Value} (hv : h.known v) (hw : v.Part True w) : h.known w := by
  induction hw with
  | refl => exact hv
  | item hu _ ih => exact ih (h.item hv _ hu)
  | body _ _ ih => exact ih (h.body hv).1

theorem captured {v : Value} {f : Nat} (hv : h.known v) (hc : v.Captures True f) :
    f < h.frames := by
  obtain ⟨addr, params, body, hpart⟩ := hc
  exact (h.body (part hv hpart)).2

/-- More is known in the second heap. -/
structure Le (h k : Heap) : Prop where
  known : ∀ v, h.known v → k.known v
  next : h.next ≤ k.next
  frames : h.frames ≤ k.frames

theorem Le.refl (h : Heap) : h.Le h := ⟨fun _ => id, Nat.le_refl _, Nat.le_refl _⟩

theorem Le.trans {h k l : Heap} (hk : h.Le k) (hl : k.Le l) : h.Le l :=
  ⟨fun v hv => hl.known v (hk.known v hv), Nat.le_trans hk.next hl.next,
    Nat.le_trans hk.frames hl.frames⟩

theorem le_grow {v : Value} (hv : h.New v) : h.Le (h.grow v hv) :=
  ⟨fun _ => .inl, Nat.le_succ _, Nat.le_refl _⟩

theorem le_addFrame (h : Heap) : h.Le h.addFrame := ⟨fun _ => id, Nat.le_refl _, Nat.le_succ _⟩

/-- The second heap came from the first one by values that were made one after the other. -/
inductive Makes (h : Heap) : Heap → Prop where
  | none : Makes h h
  | more {k : Heap} (hk : Makes h k) {v : Value} (hv : k.New v) : Makes h (k.grow v hv)

theorem Makes.le {k : Heap} (hk : h.Makes k) : h.Le k := by
  induction hk with
  | none => exact .refl h
  | more _ hv ih => exact ih.trans (le_grow hv)

theorem Makes.frames {k : Heap} (hk : h.Makes k) : k.frames = h.frames := by
  induction hk with
  | none => rfl
  | more _ _ ih => exact ih

end Heap

/-- What the callable replies with, and what it keeps in a state that holds values as `held` says,
is what it was given or held, or made of that, with identities from the supply. -/
def HostFunction.Crafts (held : σ → Value → Prop) (f : HostFunction σ) : Prop :=
  ∀ (h : Heap) (args : List Value) (host : σ), (∀ v ∈ args, h.known v) →
    (∀ v, held host v → h.known v) →
    let run := ((f args).run host).run h.next
    ∃ k, h.Makes k ∧ k.next = run.2 ∧ (∀ v, run.1.1 = .value v → k.known v) ∧
      ∀ v, held run.1.2 v → k.known v

/-! ## What is kept -/

/-- New events: names are defined only where a definition was visited, and the host is called only
with known values. -/
structure Justified (known : Value → Prop) (visited : Value → Nat → Prop) (es : List Event) :
    Prop where
  visited : ∀ c f, visited c f → .visit c f ∈ es
  defined : ∀ f name v, .define f name v ∈ es →
    ∃ c e, .visit c f ∈ es ∧ c.Says (.define name e)
  called : ∀ target args, .callHost target args ∈ es → ∀ v ∈ args, known v

namespace Justified

variable {known known' : Value → Prop} {visited : Value → Nat → Prop} {es : List Event}

theorem nil : Justified known (fun _ _ => False) [] :=
  ⟨fun _ _ h => h.elim, fun _ _ _ h => (List.not_mem_nil h).elim,
    fun _ _ h => (List.not_mem_nil h).elim⟩

theorem mono (h : Justified known visited es) (hknown : ∀ v, known v → known' v) :
    Justified known' visited es :=
  ⟨h.visited, h.defined, fun target args hcall v hv => hknown v (h.called target args hcall v hv)⟩

/-- One more event, which justifies itself. -/
theorem cons (h : Justified known visited es) {e : Event}
    (hdefined : ∀ f name v, e = .define f name v →
      ∃ c e, .visit c f ∈ es ∧ c.Says (.define name e))
    (hcalled : ∀ target args, e = .callHost target args → ∀ v ∈ args, known v) :
    Justified known visited (e :: es) := by
  refine ⟨fun c f hc => List.mem_cons_of_mem _ (h.visited c f hc), fun f name v hv => ?_,
    fun target args hcall => ?_⟩
  · have hfound := (List.mem_cons.1 hv).elim (fun heq => hdefined f name v heq.symm)
      (h.defined f name v)
    obtain ⟨c, e', hc, hs⟩ := hfound
    exact ⟨c, e', List.mem_cons_of_mem _ hc, hs⟩
  · exact (List.mem_cons.1 hcall).elim (fun heq => hcalled target args heq.symm)
      (h.called target args)

/-- One more visit. -/
theorem visit (h : Justified known visited es) (c : Value) (f : Nat) :
    Justified known (fun c' f' => visited c' f' ∨ (c' = c ∧ f' = f)) (.visit c f :: es) := by
  have hcons := h.cons (e := .visit c f) (fun _ _ _ h => by cases h) fun _ _ h => by cases h
  refine ⟨?_, hcons.defined, hcons.called⟩
  rintro c' f' (hc | ⟨rfl, rfl⟩)
  · exact hcons.visited c' f' hc
  · exact List.mem_cons_self

end Justified

/-- The heap describes the world, apart from the values that frames bind. -/
structure Heap.Fits (held : σ → Value → Prop) (h : Heap) (w : World σ) : Prop where
  next : w.next = h.next
  frames : w.store.nextFrame = h.frames
  older : w.store.Older
  host : ∀ v, held w.host v → h.known v

namespace Heap.Fits

variable {held : σ → Value → Prop} {h : Heap} {w : World σ}

/-- Whatever was noted. -/
theorem noted (hw : h.Fits held w) (journal : List Event) : h.Fits held { w with journal } :=
  ⟨hw.next, hw.frames, hw.older, hw.host⟩

/-- Frames that are linked as before. -/
theorem write (hw : h.Fits held w) {s : Store} (hlinks : w.store.SameLinks s) :
    h.Fits held { w with store := s } :=
  ⟨hw.next, hlinks.size.trans hw.frames, hlinks.older hw.older, hw.host⟩

theorem addRoot (hw : h.Fits held w) (bindings : List (String × Value)) :
    h.addFrame.Fits held { w with store := w.store.addRoot bindings } := by
  refine ⟨hw.next, ?_, hw.older.addRoot bindings, hw.host⟩
  exact (Store.nextFrame_addRoot w.store bindings).trans (congrArg (· + 1) hw.frames)

theorem extend (hw : h.Fits held w) {parent : Nat} (hparent : parent < w.store.nextFrame)
    (bindings : List (String × Value)) :
    h.addFrame.Fits held { w with store := w.store.extend parent bindings } := by
  refine ⟨hw.next, ?_, hw.older.extend hparent bindings, hw.host⟩
  exact (Store.nextFrame_extend w.store parent bindings).trans (congrArg (· + 1) hw.frames)

theorem grow (hw : h.Fits held w) {v : Value} (hv : h.New v) :
    (h.grow v hv).Fits held { w with next := w.next + 1 } :=
  ⟨congrArg (· + 1) hw.next, hw.frames, hw.older, fun u hu => .inl (hw.host u hu)⟩

end Heap.Fits

/-- Heaps grow, and what happens from `base` on is justified. -/
def coherence (held : σ → Value → Prop) (base : List Event) : Discipline σ where
  Stage := Heap × (Value → Nat → Prop)
  After i j := i.1.Le j.1 ∧ ∀ c f, i.2 c f → j.2 c f
  value i := i.1.known
  code i := i.1.known
  frame i f := f < i.1.frames
  visited i := i.2
  rest i w := i.1.Fits held w ∧ ∃ es, w.journal = es ++ base ∧ Justified i.1.known i.2 es
  refl i := ⟨.refl i.1, fun _ _ => id⟩
  trans h h' := ⟨h.1.trans h'.1, fun c f hc => h'.2 c f (h.2 c f hc)⟩
  value_after h _ hv := h.1.known _ hv
  code_after h _ hc := h.1.known _ hc
  frame_after h _ hf := Nat.lt_of_lt_of_le hf h.1.frames
  visited_after h _ _ hc := h.2 _ _ hc
  atom {i _} h := i.1.atom h
  item {i _ _ _} h := i.1.item h
  body {i _ _ _ _} h := i.1.body h
  data := id
  subform {i _ _} hc he := Heap.part hc he.part
  make := by
    rintro ⟨h, visited⟩ w v ⟨hfits, es, hes, hjust⟩ hv
    rw [hfits.next] at hv
    exact ⟨⟨h.grow v hv, visited⟩, ⟨Heap.le_grow hv, fun _ _ => id⟩,
      ⟨hfits.grow hv, es, hes, hjust.mono fun _ => .inl⟩, .inr rfl⟩
  idle := by
    rintro i w ⟨hfits, es, hes, hjust⟩ e he
    refine ⟨hfits.noted _, e :: es, congrArg _ hes, hjust.cons ?_ ?_⟩
    · rintro f name v rfl
      exact he.elim
    · rintro target args rfl
      exact he.elim
  visit := by
    rintro ⟨h, visited⟩ w c f ⟨hfits, es, hes, hjust⟩ - -
    exact ⟨⟨h, fun c' f' => visited c' f' ∨ (c' = c ∧ f' = f)⟩, ⟨.refl h, fun _ _ => .inl⟩,
      ⟨hfits.noted _, .visit c f :: es, congrArg _ hes, hjust.visit c f⟩, .inr ⟨rfl, rfl⟩⟩
  extend := by
    rintro ⟨h, visited⟩ w parent bindings ⟨hfits, es, hes, hjust⟩ hparent -
    have hlt : parent < w.store.nextFrame := hfits.frames ▸ hparent
    refine ⟨⟨h.addFrame, visited⟩, ⟨h.le_addFrame, fun _ _ => id⟩,
      ⟨(hfits.extend hlt bindings).noted _, .extend parent bindings :: es, congrArg _ hes,
        hjust.cons (fun _ _ _ h => by cases h) fun _ _ h => by cases h⟩, ?_⟩
    change w.store.nextFrame < h.frames + 1
    rw [hfits.frames]
    exact Nat.lt_succ_self _
  define := by
    rintro ⟨h, visited⟩ w c e v f name ⟨hfits, es, hes, hjust⟩ - - hc hs
    refine ⟨(hfits.write (.define w.store f name v)).noted _, .define f name v :: es,
      congrArg _ hes, hjust.cons ?_ fun _ _ h => by cases h⟩
    rintro _ _ _ ⟨⟩
    exact ⟨c, e, hjust.visited c f hc, hs⟩
  assign := by
    rintro ⟨h, visited⟩ w v f name ⟨hfits, es, hes, hjust⟩ - - hbound
    rw [World.assign, if_pos hbound]
    exact ⟨(hfits.write (.set w.store f name v)).noted _, .assign f name v :: es,
      congrArg _ hes, hjust.cons (fun _ _ _ h => by cases h) fun _ _ h => by cases h⟩

end GuardedLisp
