import GuardedLisp.Proofs.Correspondence.Renaming
import GuardedLisp.Proofs.Parts
import Mathlib.Logic.Relation

/-!
# What can be reached

A frame refers to its parent and to the frames that the values bound in it capture;
a value captures the frames of the closures that are parts of it. What can be
reached from a frame or a value is what these references lead to. Values that are
alike up to a renaming capture only frames that the renaming knows, and a value
that captures only such frames is alike to itself.
-/

namespace GuardedLisp

variable {bodies : Prop}

namespace Store

/-- One reference from a frame to another. -/
inductive Refers (bodies : Prop) (s : Store) : Nat → Nat → Prop where
  | parent {f g : Nat} {x : Frame} (hx : s.frames[f]? = some x) (hp : x.parent = some g) :
    Refers bodies s f g
  | bound {f g : Nat} {name : String} {v : Value} (hv : s.own? f name = some v)
    (hc : v.Captures bodies g) : Refers bodies s f g

/-- Any number of references. -/
abbrev Reaches (bodies : Prop) (s : Store) : Nat → Nat → Prop :=
  Relation.ReflTransGen (s.Refers bodies)

/-- The frame can be reached from frame `e` or from the value. -/
def Reachable (bodies : Prop) (s : Store) (e : Nat) (x : Value) (f : Nat) : Prop :=
  s.Reaches bodies e f ∨ ∃ g, x.Captures bodies g ∧ s.Reaches bodies g f

/-- Parents are older frames, and values capture only frames that exist. -/
structure WellFormed (s : Store) : Prop where
  parent {f p : Nat} {x : Frame} (hx : s.frames[f]? = some x) (hp : x.parent = some p) : p < f
  bound {f g : Nat} {name : String} {v : Value} (hv : s.own? f name = some v)
    (hc : v.Captures True g) : g < s.nextFrame

section reachable

variable {s : Store} {e f g : Nat} {x : Value}

theorem Reachable.refers (h : s.Reachable bodies e x f) (hfg : s.Refers bodies f g) :
    s.Reachable bodies e x g := by
  rcases h with h | ⟨g', hc, h⟩
  · exact .inl (h.tail hfg)
  · exact .inr ⟨g', hc, h.tail hfg⟩

/-- References stay inside a set of frames that is closed under them. -/
theorem Reaches.closed {S : Nat → Prop} (hclosed : ∀ f g, S f → s.Refers bodies f g → S g)
    (h : s.Reaches bodies f g) (hf : S f) : S g := by
  induction h with
  | refl => exact hf
  | tail _ hstep ih => exact hclosed _ _ ih hstep

/-- In a well-formed store, only frames that exist can be reached from such. -/
theorem WellFormed.reachable_lt (hs : s.WellFormed) (he : e < s.nextFrame)
    (hx : ∀ g, x.Captures True g → g < s.nextFrame) (h : s.Reachable True e x f) :
    f < s.nextFrame := by
  have hclosed (f g : Nat) (hf : f < s.nextFrame) (hfg : s.Refers True f g) : g < s.nextFrame := by
    cases hfg with
    | parent hx hp => exact Nat.lt_trans (hs.parent hx hp) hf
    | bound hv hc => exact hs.bound hv hc
  rcases h with h | ⟨g, hc, h⟩
  · exact h.closed (S := (· < s.nextFrame)) hclosed he
  · exact h.closed (S := (· < s.nextFrame)) hclosed (hx g hc)

end reachable

end Store

/-! ## Renamings and captured frames -/

namespace Value

variable {ρ : Renaming}

theorem Alike.part {v v' w : Value} (h : v.Alike ρ v') (hw : v.Part True w) :
    ∃ w', v'.Part True w' ∧ w.Alike ρ w' := by
  induction hw generalizing v' with
  | refl => exact ⟨v', .refl v', h⟩
  | item hv _ ih =>
    cases h with
    | list _ _ hitems =>
      obtain ⟨u', hu', hu⟩ := forall₂_mem_left hitems hv
      obtain ⟨w', hpart, hw⟩ := ih hu
      exact ⟨w', .item hu' hpart, hw⟩
  | body _ _ ih =>
    cases h with
    | closure _ _ hbody _ =>
      obtain ⟨w', hpart, hw⟩ := ih hbody
      exact ⟨w', .body trivial hpart, hw⟩

/-- What a value captures stands for something. -/
theorem Alike.captured {v v' : Value} (h : v.Alike ρ v') {f : Nat} (hc : v.Captures True f) :
    ∃ f', ρ.frame f f' := by
  obtain ⟨addr, params, body, hpart⟩ := hc
  obtain ⟨w', -, hw⟩ := h.part hpart
  cases hw with
  | closure _ _ _ hf => exact ⟨_, hf⟩

mutual

/-- A value is alike to itself if the renaming keeps the identities in it and the frames that it
captures. -/
theorem Alike.ofParts (v : Value)
    (ha : ∀ u addr, v.Part True u → u.addr? = some addr → ρ.addr addr addr)
    (hf : ∀ f, v.Captures True f → ρ.frame f f) : v.Alike ρ v := by
  match v with
  | .list addr depth items =>
    exact .list depth (ha _ addr (.refl _) rfl) (Alike.ofPartsItems items
      (fun w hw u a hu => ha u a (.item hw hu)) fun w hw f hc => hf f (.item hw hc))
  | .closure addr params code f =>
    exact .closure params (ha _ addr (.refl _) rfl) (Alike.ofParts code
      (fun u a hu => ha u a (.body trivial hu)) fun g hc => hf g hc.body)
      (hf f (captures_frame addr params code f))
  | .builtin addr p => exact .builtin p (ha _ addr (.refl _) rfl)
  | .bridge addr call => exact .bridge call (ha _ addr (.refl _) rfl)
  | .nil | .bool _ | .number _ | .string _ | .symbol _ => exact .ofAtom trivial

theorem Alike.ofPartsItems (vs : List Value)
    (ha : ∀ v ∈ vs, ∀ u addr, v.Part True u → u.addr? = some addr → ρ.addr addr addr)
    (hf : ∀ v ∈ vs, ∀ f, v.Captures True f → ρ.frame f f) : List.Forall₂ (Alike ρ) vs vs := by
  match vs with
  | [] => exact .nil
  | v :: vs =>
    exact .cons (Alike.ofParts v (ha v List.mem_cons_self) (hf v List.mem_cons_self))
      (Alike.ofPartsItems vs (fun w hw => ha w (List.mem_cons_of_mem _ hw))
        fun w hw => hf w (List.mem_cons_of_mem _ hw))

end

/-- A renaming that keeps all identities. -/
theorem Alike.ofCaptured (ha : ∀ a, ρ.addr a a) (v : Value)
    (h : ∀ f, v.Captures True f → ρ.frame f f) : v.Alike ρ v :=
  .ofParts v (fun _ addr _ _ => ha addr) h

mutual

/-- Without a change of numbers, only equal values are alike. -/
theorem Alike.eq (ha : ∀ {a a'}, ρ.addr a a' → a = a') (hf : ∀ {f f'}, ρ.frame f f' → f = f')
    {v v' : Value} (h : v.Alike ρ v') : v = v' := by
  match v, v', h with
  | .list _ _ items, .list _ _ items', .list _ haddr hitems =>
    rw [ha haddr, Alike.eqItems ha hf hitems]
  | .closure _ _ code _, .closure _ _ code' _, .closure _ haddr hcode hframe =>
    rw [ha haddr, Alike.eq ha hf hcode, hf hframe]
  | .builtin .., .builtin .., .builtin _ haddr => rw [ha haddr]
  | .bridge .., .bridge .., .bridge _ haddr => rw [ha haddr]
  | _, _, .nil | _, _, .bool _ | _, _, .number _ | _, _, .string _ | _, _, .symbol _ => rfl

theorem Alike.eqItems (ha : ∀ {a a'}, ρ.addr a a' → a = a')
    (hf : ∀ {f f'}, ρ.frame f f' → f = f') {vs vs' : List Value}
    (h : List.Forall₂ (Alike ρ) vs vs') : vs = vs' := by
  match vs, vs', h with
  | [], [], _ => rfl
  | v :: vs, v' :: vs', .cons hv hvs => rw [Alike.eq ha hf hv, Alike.eqItems ha hf hvs]

end

end Value

end GuardedLisp
