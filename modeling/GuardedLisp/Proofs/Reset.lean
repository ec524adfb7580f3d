import GuardedLisp.Proofs.Correspondence.Renaming
import GuardedLisp.Proofs.Scenes

/-!
# A reset interpreter is as good as new

After a reset an interpreter answers every sequence of inquiries as a new one
does that has the same limits and the same host: whatever it evaluated before, or
was given, cannot be told from its answers any more (`reset_as_new`). Only the
identities and frames that it gives out have other numbers, so answers are
compared, and the values that the host supplies are, up to this renaming. A value
that was obtained before the reset is alike to none.
-/

namespace GuardedLisp

variable {σ : Type}

/-! ## Inquiries and answers -/

/-- What a host can ask of an interpreter, or do on its behalf. -/
inductive Inquiry where
  | eval (text : String)
  | define (name : String) (v : Value)
  | get (name : String)
  | assign (name : String) (v : Value)
  | contains (name : String)
  | names
  | clear
  | reset
  /-- The evaluations that come next take another time. -/
  | time (clock : Clock)
  /-- The host takes an identity, for a list or a procedure that it makes. -/
  | takeIdentity
  /-- The host makes a frame without a parent, for a closure that it makes. -/
  | makeFrame (bindings : List (String × Value))

inductive Answer where
  /-- How an evaluation ended, and what it called in the host on which arguments, oldest first. -/
  | evaluated (result : Except EvalError Value) (calls : List (HostTarget × List Value))
  | value (result : Except EvalError Value)
  | done (result : Except EvalError Unit)
  | truth (b : Bool)
  | names (names : List String)
  | identity (addr : Nat)
  | frame (f : Nat)

namespace Interpreter

def calls (i : Interpreter σ) : List (HostTarget × List Value) :=
  i.machine.world.journal.reverse.filterMap Event.hostCall?

def answer (i : Interpreter σ) : Inquiry → Answer × Interpreter σ
  | .eval text => (.evaluated (i.eval text).1 (i.eval text).2.calls, (i.eval text).2)
  | .define name v => (.done (.ok ()), i.define name v)
  | .get name => (.value (i.get name), i)
  | .assign name v => (.done (i.assign name v).1, (i.assign name v).2)
  | .contains name => (.truth (i.contains name), i)
  | .names => (.names i.names, i)
  | .clear => (.done (.ok ()), i.clear)
  | .reset => (.done (.ok ()), i.reset)
  | .time clock => (.done (.ok ()), i.setClock clock)
  | .takeIdentity => (.identity i.machine.world.next, (i.onWorld (·.alloc fresh)).2)
  | .makeFrame bindings =>
    (.frame i.machine.world.store.nextFrame, i.onStore (·.addRoot bindings))

/-- The answers to a sequence of inquiries. -/
def answers (i : Interpreter σ) : List Inquiry → List Answer
  | [] => []
  | q :: qs => (i.answer q).1 :: (i.answer q).2.answers qs

end Interpreter

/-! ## Inquiries and answers that are alike -/

inductive Inquiry.Alike (ρ : Renaming) : Inquiry → Inquiry → Prop where
  | eval (text : String) : Alike ρ (.eval text) (.eval text)
  | define {v v' : Value} (name : String) (hv : v.Alike ρ v') :
    Alike ρ (.define name v) (.define name v')
  | get (name : String) : Alike ρ (.get name) (.get name)
  | assign {v v' : Value} (name : String) (hv : v.Alike ρ v') :
    Alike ρ (.assign name v) (.assign name v')
  | contains (name : String) : Alike ρ (.contains name) (.contains name)
  | names : Alike ρ .names .names
  | clear : Alike ρ .clear .clear
  | reset : Alike ρ .reset .reset
  | time (clock : Clock) : Alike ρ (.time clock) (.time clock)
  | takeIdentity : Alike ρ .takeIdentity .takeIdentity
  | makeFrame {bindings bindings' : List (String × Value)}
    (hb : List.Forall₂ (BindingKin (Value.Alike ρ)) bindings bindings') :
    Alike ρ (.makeFrame bindings) (.makeFrame bindings')

/-- Both results are values that are alike, or both are the same failure, about values that are. -/
abbrev ResultAlike {α : Type} (ρ : Renaming) (R : α → α → Prop) :
    Except EvalError α → Except EvalError α → Prop :=
  ExceptKin (EvalError.Kin (Value.Alike ρ)) R

/-- One callable, on arguments that are alike. -/
def CallAlike (ρ : Renaming) (call call' : HostTarget × List Value) : Prop :=
  call.1 = call'.1 ∧ List.Forall₂ (Value.Alike ρ) call.2 call'.2

inductive Answer.Alike (ρ : Renaming) : Answer → Answer → Prop where
  | evaluated {result result' : Except EvalError Value} {calls calls' : List (HostTarget × List Value)}
    (hr : ResultAlike ρ (Value.Alike ρ) result result')
    (hc : List.Forall₂ (CallAlike ρ) calls calls') :
    Alike ρ (.evaluated result calls) (.evaluated result' calls')
  | value {result result' : Except EvalError Value}
    (hr : ResultAlike ρ (Value.Alike ρ) result result') : Alike ρ (.value result) (.value result')
  | done {result result' : Except EvalError Unit} (hr : ResultAlike ρ Eq result result') :
    Alike ρ (.done result) (.done result')
  | truth (b : Bool) : Alike ρ (.truth b) (.truth b)
  | names (names : List String) : Alike ρ (.names names) (.names names)
  | identity {addr addr' : Nat} (ha : ρ.addr addr addr') :
    Alike ρ (.identity addr) (.identity addr')
  | frame {f f' : Nat} (hf : ρ.frame f f') : Alike ρ (.frame f) (.frame f')

/-! ## What a host reads -/

def resultText : Except EvalError Value → String
  | .ok v => v.text
  | .error e => e.message

/-- The texts of the values and the messages of the failures in an answer. -/
def Answer.texts : Answer → List String
  | .evaluated result calls =>
    resultText result :: calls.flatMap fun call => call.2.map Value.text
  | .value result => [resultText result]
  | .done (.ok ()) => []
  | .done (.error e) => [e.message]
  | .names bound => bound
  | .truth _ | .identity _ | .frame _ => []

section texts

variable {ρ : Renaming}

theorem resultText_eq {r r' : Except EvalError Value} (h : ResultAlike ρ (Value.Alike ρ) r r') :
    resultText r = resultText r' := by
  cases h with
  | ok hv => exact Correspondence.text_eq (C := .ofRenaming (σ := Unit) ρ) hv
  | error he => exact Correspondence.message_eq (C := .ofRenaming (σ := Unit) ρ) he

theorem argumentTexts_eq {vs vs' : List Value} (h : List.Forall₂ (Value.Alike ρ) vs vs') :
    vs.map Value.text = vs'.map Value.text := by
  induction h with
  | nil => rfl
  | cons hv _ ih =>
    rw [List.map_cons, List.map_cons, ih,
      Correspondence.text_eq (C := .ofRenaming (σ := Unit) ρ) hv]

/-- Answers that are alike read the same. -/
theorem Answer.Alike.texts_eq {a a' : Answer} (h : a.Alike ρ a') : a.texts = a'.texts := by
  cases h with
  | @evaluated _ _ calls calls' hr hc =>
    have hcalls : (calls.flatMap fun call => call.2.map Value.text) =
        calls'.flatMap fun call => call.2.map Value.text := by
      induction hc with
      | nil => rfl
      | cons h _ ih => rw [List.flatMap_cons, List.flatMap_cons, ih, argumentTexts_eq h.2]
    rw [Answer.texts, Answer.texts, resultText_eq hr, hcalls]
  | value hr => rw [Answer.texts, Answer.texts, resultText_eq hr]
  | done hr =>
    cases hr with
    | ok _ => rfl
    | error he =>
      rw [Answer.texts, Answer.texts,
        Correspondence.message_eq (C := .ofRenaming (σ := Unit) ρ) he]
  | _ => rfl

end texts

/-! ## Interpreters that correspond answer alike -/

section answers

variable {ρ : Renaming} {i i' : Interpreter σ}

theorem calls_alike {es es' : List Event}
    (h : List.Forall₂ (Event.Kin (Value.Alike ρ) ρ.frame) es es') :
    List.Forall₂ (CallAlike ρ) (es.reverse.filterMap Event.hostCall?)
      (es'.reverse.filterMap Event.hostCall?) := by
  refine List.rel_filterMap (fun e e' he => ?_) (List.rel_reverse h)
  cases he with
  | callHost hargs => exact .some ⟨rfl, hargs⟩
  | _ => exact .none

theorem answer_alike (h : (Correspondence.ofRenaming ρ).Twins i i') {q q' : Inquiry}
    (hq : q.Alike ρ q') : (i.answer q).1.Alike ρ (i'.answer q').1 ∧
      (Correspondence.ofRenaming ρ).Twins (i.answer q).2 (i'.answer q').2 := by
  cases hq with
  | eval text =>
    rcases h.eval text with hbroken | ⟨hr, htwins, hevents⟩
    · exact hbroken.elim
    · exact ⟨.evaluated hr (calls_alike hevents), htwins⟩
  | define name hv => exact ⟨.done (.ok rfl), h.define name hv⟩
  | get name => exact ⟨.value (h.get name), h⟩
  | assign name hv => exact ⟨.done (h.assign name hv).1, (h.assign name hv).2⟩
  | contains name =>
    refine ⟨?_, h⟩
    simp only [Interpreter.answer, h.contains_eq name]
    exact .truth _
  | names =>
    refine ⟨?_, h⟩
    simp only [Interpreter.answer, h.names_eq]
    exact .names _
  | clear => exact ⟨.done (.ok rfl), h.clear⟩
  | reset => exact ⟨.done (.ok rfl), h.reset⟩
  | time clock => exact ⟨.done (.ok rfl), { h with clock := rfl }⟩
  | takeIdentity =>
    have hsupply : ρ.Supplies i.machine.world.next i'.machine.world.next := h.worlds.supply
    exact ⟨.identity hsupply.next,
      { h with worlds := ⟨h.worlds.store, hsupply.succ, h.worlds.host⟩ }⟩
  | makeFrame hb =>
    exact ⟨.frame h.worlds.store.next,
      { h with worlds := ⟨h.worlds.store.addRoot hb, h.worlds.supply, h.worlds.host⟩ }⟩

theorem answers_alike (h : (Correspondence.ofRenaming ρ).Twins i i') {qs qs' : List Inquiry}
    (hqs : List.Forall₂ (Inquiry.Alike ρ) qs qs') :
    List.Forall₂ (Answer.Alike ρ) (i.answers qs) (i'.answers qs') := by
  induction hqs generalizing i i' with
  | nil => exact .nil
  | cons hq _ ih => exact .cons (answer_alike h hq).1 (ih (answer_alike h hq).2)

end answers

/-! ## Resetting -/

/-- The numbers that identities and frames have from the beginning, and those that they have when
this many were given out before. -/
def Renaming.shift (identities frames : Nat) : Renaming where
  addr a a' := a = identities + a'
  frame f f' := f = frames + f'
  addr_inj := by omega
  older := by omega

/-- An interpreter with the limits, the clock and the host of this one, as it is in the beginning. -/
def Interpreter.anew (i : Interpreter σ) : Interpreter σ :=
  { Interpreter.new i.limits i.machine.guard.clock i.machine.world.host with bridge := i.bridge }

theorem reset_twins {i : Interpreter σ} (h : i.bridge.Offers HostFunction.Opaque) :
    (Correspondence.ofRenaming
      (.shift i.machine.world.next i.machine.world.store.nextFrame)).Twins i.reset i.anew := by
  let ρ := Renaming.shift i.machine.world.next i.machine.world.store.nextFrame
  have hsize : i.clear.machine.world.store.nextFrame = i.machine.world.store.nextFrame :=
    Array.size_modify
  have hstart : (Correspondence.ofRenaming ρ).Worlds i.clear.machine.world
      (World.start i.machine.world.host) := by
    refine ⟨⟨fun k => ?_, fun {f f'} hf => ?_⟩, fun k => ?_, rfl⟩
    · change i.clear.machine.world.store.nextFrame + k = _ + (0 + k)
      omega
    · have hf : f = i.clear.machine.world.store.nextFrame + f' := by rw [hsize]; exact hf
      have hnone : i.clear.machine.world.store.frames[f]? = none :=
        Store.frame_eq_none (hf ▸ Nat.le_add_right _ _)
      rw [hnone]
      exact .none
    · change i.machine.world.next + k = i.machine.world.next + (0 + k)
      omega
  -- after the global frame is cleared, a reset does what the making of an interpreter does
  obtain ⟨hglobal, hworlds⟩ := Correspondence.addGlobals_alike hstart
  have hbridges : (Correspondence.ofRenaming ρ).Bridges i.bridge i.bridge :=
    Correspondence.bridges_of_respects fun target f hf => h target f hf ρ
  exact ⟨hbridges, rfl, rfl, hworlds, hglobal⟩

/-- **A reset interpreter is as good as new.** Whatever the state of an interpreter, after a reset it
answers inquiries as a new one does that has the same limits and the same host, up to the numbers of
identities and frames; what a host reads in the answers is equal. The host's callables see no
identities, and the values in the inquiries are alike in the two, so they hold nothing from before
the reset. -/
theorem reset_as_new (i : Interpreter σ) (hblind : i.bridge.Offers HostFunction.Opaque) :
    let ρ := Renaming.shift i.machine.world.next i.machine.world.store.nextFrame
    ∀ qs qs', List.Forall₂ (Inquiry.Alike ρ) qs qs' →
      List.Forall₂ (fun a a' => a.Alike ρ a' ∧ a.texts = a'.texts)
        (i.reset.answers qs) (i.anew.answers qs') :=
  fun _ _ hqs => (answers_alike (reset_twins hblind) hqs).imp fun _ _ h => ⟨h, h.texts_eq⟩

/-- A program made `list` a closure over the global frame; the host calls back what it is given. -/
theorem reset_as_new_shadowed :
    let wrap : HostFunction Unit := fun args => do return .value (← Value.ofItems args)
    let i := (((Interpreter.new .standard .nominal ()).registerFunction "wrap" wrap).eval
      "(def list (lambda (x) list))").2
    let ρ := Renaming.shift i.machine.world.next i.machine.world.store.nextFrame
    let before := i.machine.world.next
    let inquiries (n : Nat) : List Inquiry := [.define "a" (.list (n + 40) 1 []),
      .eval "(call-js \"wrap\" (list a))", .get "list"]
    List.Forall₂ (fun a a' => a.Alike ρ a' ∧ a.texts = a'.texts)
        (i.reset.answers (inquiries before)) (i.anew.answers (inquiries 0)) ∧
      (i.anew.answers (inquiries 0)).map Answer.texts =
        [[], ["((()))", "(())"], ["#<builtin list>"]] := by
  intro wrap i ρ before inquiries
  have hwrap : wrap.Opaque := by
    intro ρ args args' host n n' hargs hn
    refine ⟨.value ?_, rfl, hn.succ⟩
    have hdepth := Value.depthOver_congr (hargs.imp fun _ _ => Value.Alike.depth_eq)
    change Value.Alike ρ (.list n (Value.depthOver args) args)
      (.list n' (Value.depthOver args') args')
    rw [hdepth]
    exact .list _ hn.next hargs
  have hblind : i.bridge.Offers HostFunction.Opaque :=
    Bridge.Offers.empty.registerFunction "wrap" hwrap
  refine ⟨reset_as_new i hblind _ _ ?_, by decide +kernel⟩
  have ha : ρ.addr (before + 40) (0 + 40) := by
    change before + 40 = before + (0 + 40)
    omega
  exact .cons (.define "a" (.list 1 ha .nil)) (.cons (.eval _) (.cons (.get _) .nil))

end GuardedLisp
