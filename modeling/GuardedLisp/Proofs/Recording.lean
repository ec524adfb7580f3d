import GuardedLisp.Proofs.Capabilities
import GuardedLisp.Proofs.Correspondence.Program

/-!
# Values that a host returns

To speak of the values that host callables returned in the course of a history,
the same history is run with callables that note what they return in the host's
state (`returned`). Noting changes nothing else: the two runs correspond, as long
as the values noted have any property that programs keep (`Hereditary`), and so
have all the values in them. Every value has the trivial property, so the runs do
the same unconditionally (`eval_recorded`).
-/

namespace GuardedLisp

variable {σ : Type}

/-! ## Callables that note what they return -/

def HostReply.value? : HostReply → Option Value
  | .value v => some v
  | _ => none

/-- The same callable; its state also holds the values returned, newest first. -/
def HostFunction.recorded (f : HostFunction σ) : HostFunction (σ × List Value) :=
  fun args state => do
    let r ← (f args).run state.1
    return (r.1, r.2, r.1.value?.toList ++ state.2)

def HostModule.recorded (m : HostModule σ) : HostModule (σ × List Value) :=
  Std.TreeMap.map (fun _ f => f.recorded) m

def CustomFunction.recorded (f : CustomFunction σ) : CustomFunction (σ × List Value) :=
  fun args state => do
    let r ← (f args).run state.1
    return (r.1, r.2, r.1.toOption.toList ++ state.2)

theorem CustomFunction.callable_recorded (f : CustomFunction σ) :
    f.recorded.callable = f.callable.recorded := by
  funext args ⟨host, returned⟩ n
  have hvalue (r : Except Report Value) :
      r.toOption.toList = (HostReply.ofResult r).value?.toList := by cases r <;> rfl
  exact congrArg (fun noted => ((HostReply.ofResult (f args host n).1.1, (f args host n).1.2,
    noted ++ returned), (f args host n).2)) (hvalue _)

def Request.recorded : Request σ → Request (σ × List Value)
  | registerFunction name f => .registerFunction name f.recorded
  | registerModule name m => .registerModule name m.recorded
  | write code f => .write code f.recorded
  | allow name => .allow name
  | revoke name => .revoke name
  | reset => .reset
  | define name v => .define name v
  | eval text => .eval text
  | time clock => .time clock

/-- A new interpreter after a history. -/
def Interpreter.hosted (limits : Limits) (clock : Clock) (host : σ) (history : List (Request σ)) :
    Interpreter σ := (Interpreter.new limits clock host).after history

namespace Interpreter

variable (limits : Limits) (clock : Clock) (host : σ) (history : List (Request σ))

def recorded : Interpreter (σ × List Value) :=
  hosted limits clock (host, []) (history.map Request.recorded)

/-- The values that host callables returned in the course of a history of a new interpreter. -/
def returned : List Value := (recorded limits clock host history).machine.world.host.2

end Interpreter

/-! ## Properties that programs keep -/

/-- Programs build only values with the property from values that have it. -/
structure Hereditary (P : Value → Prop) : Prop where
  atom {v : Value} (h : v.IsAtom) : P v
  item {addr depth : Nat} {items : List Value} (h : P (.list addr depth items)) : ∀ v ∈ items, P v
  body {addr frame : Nat} {params : List String} {body : Value}
    (h : P (.closure addr params body frame)) : P body
  list {items : List Value} (addr : Nat) (h : ∀ v ∈ items, P v)
    (hdepth : Value.depthOver items ≤ Source.maxNesting) :
    P (.list addr (Value.depthOver items) items)
  tail {addr depth : Nat} {items : List Value} (addr' : Nat) (h : P (.list addr depth items)) :
    P (.list addr' (Value.depthOver (items.drop 1)) (items.drop 1))
  closure {body : Value} (addr : Nat) (params : List String) (frame : Nat) (h : P body) :
    P (.closure addr params body frame)
  builtin (addr : Nat) (p : Primitive) : P (.builtin addr p)
  bridge (addr : Nat) (call : BridgeCall) : P (.bridge addr call)

theorem forall₂_eq_and {P : Value → Prop} {vs vs' : List Value} :
    List.Forall₂ (fun v v' => v = v' ∧ P v) vs vs' ↔ vs = vs' ∧ ∀ v ∈ vs, P v := by
  constructor
  · intro h
    induction h with
    | nil => simp
    | cons hv _ ih =>
      obtain ⟨rfl, hv⟩ := hv
      obtain ⟨rfl, hvs⟩ := ih
      exact ⟨rfl, List.forall_mem_cons.2 ⟨hv, hvs⟩⟩
  · rintro ⟨rfl, h⟩
    exact List.forall₂_same.2 fun v hv => ⟨rfl, h v hv⟩

/-- The same in both, and every value has the property, unless a value was returned that has not. -/
def recording (P : Value → Prop) (hP : Hereditary P) : Correspondence σ (σ × List Value) where
  value v v' := v = v' ∧ P v
  frame := Eq
  supply := Eq
  host h h' := h = h'.1
  broken h' := ∃ v ∈ h'.2, ¬ P v
  kin := by
    rintro v _ ⟨rfl, hv⟩
    cases v with
    | nil | bool | number | string | symbol => constructor
    | list addr depth items => exact .list (forall₂_eq_and.2 ⟨rfl, hP.item hv⟩)
    | builtin | bridge => constructor
    | closure => exact .closure ⟨rfl, hP.body hv⟩ rfl
  atom h := ⟨rfl, hP.atom h⟩
  list := by
    rintro n _ items _ rfl h hdepth
    obtain ⟨rfl, hitems⟩ := forall₂_eq_and.1 h
    exact ⟨rfl, hP.list n hitems hdepth⟩
  tail := by
    rintro n _ addr _ depth _ items _ rfl ⟨heq, h⟩
    cases heq
    exact ⟨rfl, hP.tail n h⟩
  closure := by
    rintro n _ f _ params body _ rfl ⟨rfl, hbody⟩ rfl
    exact ⟨rfl, hP.closure n params f hbody⟩
  builtin := by rintro n _ rfl p; exact ⟨rfl, hP.builtin n p⟩
  bridge := by rintro n _ rfl call; exact ⟨rfl, hP.bridge n call⟩
  equal := by rintro v _ w _ ⟨rfl, -⟩ ⟨rfl, -⟩; rfl
  succ := by rintro n _ rfl; rfl
  older := by rintro f _ g _ rfl rfl; rfl

section recording

variable {P : Value → Prop} (hP : Hereditary P)

theorem recorded_alike (f : HostFunction σ) :
    (recording (σ := σ) P hP).HostFunctions f f.recorded := by
  refine ⟨fun args host n ⟨v, hv, hbad⟩ => ⟨v, List.mem_append_right _ hv, hbad⟩, ?_⟩
  rintro args args' host ⟨_, returned⟩ n _ hargs rfl rfl
  obtain ⟨rfl, -⟩ := forall₂_eq_and.1 hargs
  have hrecorded : ((f.recorded args).run (host, returned)).run n =
      (((((f args).run host).run n).1.1, (((f args).run host).run n).1.2,
        (((f args).run host).run n).1.1.value?.toList ++ returned),
        (((f args).run host).run n).2) := rfl
  rw [hrecorded]
  generalize (((f args).run host).run n).1.1 = reply
  by_cases hgood : ∀ v, reply = .value v → P v
  · refine .inr ⟨?_, rfl, rfl⟩
    cases reply with
    | value v => exact .value ⟨rfl, hgood v rfl⟩
    | failure => exact .failure _
    | crash => exact .crash _
    | raise => exact .raise _
  · obtain ⟨v, rfl, hbad⟩ : ∃ v, reply = .value v ∧ ¬ P v := by simpa using hgood
    exact .inl ⟨v, List.mem_cons_self, hbad⟩

theorem lastly_recorded {α β : Type} (history : List (Request σ)) {tells : Request σ → Option α}
    {tells' : Request (σ × List Value) → Option β} {g : α → β}
    (h : ∀ r, tells' (Request.recorded r) = (tells r).map g) :
    lastly tells' (history.map Request.recorded) = (lastly tells history).map g := by
  unfold lastly
  rw [← List.map_reverse, List.findSome?_map, List.map_findSome?]
  exact congrArg (List.findSome? · _) (funext h)

theorem function?_recorded (name : String) (r : Request σ) :
    (Request.recorded r).function? name = (r.function? name).map HostFunction.recorded := by
  cases r with
  | registerFunction name' f => simp only [Request.recorded, Request.function?]; split <;> rfl
  | _ => rfl

theorem module?_recorded (name : String) (r : Request σ) :
    (Request.recorded r).module? name = (r.module? name).map HostModule.recorded := by
  cases r with
  | registerModule name' m => simp only [Request.recorded, Request.module?]; split <;> rfl
  | _ => rfl

theorem code?_recorded (code : Nat) (r : Request σ) :
    (Request.recorded r).code? code = (r.code? code).map CustomFunction.recorded := by
  cases r with
  | write code' f => simp only [Request.recorded, Request.code?]; split <;> rfl
  | _ => rfl

theorem permission?_recorded (name : String) (r : Request σ) :
    (Request.recorded r).permission? name = (r.permission? name).map id := by
  cases r with
  | registerFunction name' _ | allow name' | revoke name' =>
    simp only [Request.recorded, Request.permission?]; split <;> rfl
  | _ => rfl

variable (limits : Limits) (clock : Clock) (host : σ) (history : List (Request σ))

open Interpreter (hosted recorded returned)

theorem recorded_bridges : (recording P hP).Bridges (hosted limits clock host history).bridge
    (recorded limits clock host history).bridge := by
  intro target
  cases target with
  | function name =>
    unfold hosted recorded hosted
    rw [Interpreter.resolve_function_after rfl, Interpreter.resolve_function_after rfl,
      lastly_recorded history (permission?_recorded name),
      lastly_recorded history (function?_recorded name), Option.map_id, id]
    split
    · cases lastly (·.function? name) history with
      | none => exact .error rfl
      | some f => exact .ok (recorded_alike hP f)
    · exact .error rfl
  | member owner name =>
    unfold hosted recorded hosted
    rw [Interpreter.resolve_member_after rfl, Interpreter.resolve_member_after rfl,
      lastly_recorded history (module?_recorded owner)]
    cases lastly (·.module? owner) history with
    | none => exact .error rfl
    | some m =>
      have hmember : m.recorded[name]? = m[name]?.map HostFunction.recorded :=
        Std.TreeMap.getElem?_map
      simp only [Option.map_some, hmember]
      cases m[name]? with
      | none => exact .error rfl
      | some f => exact .ok (recorded_alike hP f)
  | custom code name =>
    unfold hosted recorded hosted
    rw [Interpreter.resolve_custom_after rfl, Interpreter.resolve_custom_after rfl,
      lastly_recorded history (code?_recorded code)]
    cases lastly (·.code? code) history with
    | none => exact .error rfl
    | some f =>
      refine .ok ?_
      rw [CustomFunction.callable_recorded]
      exact recorded_alike hP f.callable

/-! ## Histories -/

theorem hosted_concat (r : Request σ) : hosted limits clock host (history ++ [r]) =
    (hosted limits clock host history).handle r := Interpreter.after_concat _ history r

theorem recorded_concat (r : Request σ) : recorded limits clock host (history ++ [r]) =
    (recorded limits clock host history).handle r.recorded := by
  unfold recorded
  rw [List.map_append]
  exact hosted_concat limits clock (host, []) _ r.recorded

include hP in
/-- What was returned stays noted. -/
theorem broken_append (rest : List (Request σ))
    (h : ∃ v ∈ returned limits clock host history, ¬ P v) :
    ∃ v ∈ returned limits clock host (history ++ rest), ¬ P v := by
  induction rest using List.reverseRecOn with
  | nil => rwa [List.append_nil]
  | append_singleton rest r ih =>
    rw [← List.append_assoc]
    unfold returned at ih ⊢
    rw [recorded_concat]
    cases r with
    | eval text =>
      have hkeeps := Correspondence.evalText_keeps
        (recorded_bridges hP limits clock host (history ++ rest)) text
      exact hkeeps _ _ ih
    | _ => exact ih

theorem new_twins : (recording P hP).Twins (Interpreter.new limits clock host)
    (Interpreter.new limits clock (host, [])) := by
  have hstart : (recording P hP).Worlds (World.start host) (World.start (host, [])) := by
    refine ⟨⟨fun _ => rfl, ?_⟩, rfl, rfl⟩
    rintro f _ rfl
    exact .none
  obtain ⟨hglobal, hworlds⟩ := Correspondence.addGlobals_alike hstart
  exact ⟨recorded_bridges hP limits clock host [], rfl, rfl, hworlds, hglobal⟩

/-- The two runs correspond, unless a value was returned that has not the property. -/
theorem recorded_twins (hdefined : ∀ name v, .define name v ∈ history → P v) :
    (∃ v ∈ returned limits clock host history, ¬ P v) ∨
      (recording P hP).Twins (hosted limits clock host history)
        (recorded limits clock host history) := by
  -- the bridges are compared by the whole history, so they are put in anew after every step
  induction history using List.reverseRecOn with
  | nil => exact .inr (new_twins hP limits clock host)
  | append_singleton history r ih =>
    rcases ih fun name v h => hdefined name v (List.mem_append_left _ h) with hbad | htwins
    · exact .inl (broken_append hP limits clock host history [r] hbad)
    have hbridges := recorded_bridges hP limits clock host (history ++ [r])
    unfold returned
    rw [hosted_concat, recorded_concat] at *
    cases r with
    | registerFunction | registerModule | write | allow | revoke =>
      exact .inr { htwins with bridges := hbridges }
    | time clock => exact .inr { htwins with clock := rfl }
    | reset => exact .inr htwins.reset
    | define name v =>
      have hv : P v := hdefined name v (List.mem_append_right _ List.mem_cons_self)
      exact .inr (htwins.define name ⟨rfl, hv⟩)
    | eval text => exact (htwins.eval text).imp id fun h => h.2.1

/-- How an evaluation ends after the history, and what it notes. -/
theorem recorded_eval (hdefined : ∀ name v, .define name v ∈ history → P v) (text : String) :
    (∃ v ∈ returned limits clock host (history ++ [.eval text]), ¬ P v) ∨
      (recording (σ := σ) P hP).Results (recording (σ := σ) P hP).value
        ((hosted limits clock host history).eval text).1
        ((recorded limits clock host history).eval text).1 ∧
      List.Forall₂ (Event.Kin (recording (σ := σ) P hP).value Eq)
        ((hosted limits clock host history).eval text).2.machine.world.journal
        ((recorded limits clock host history).eval text).2.machine.world.journal := by
  rcases recorded_twins hP limits clock host history hdefined with hbad | htwins
  · exact .inl (broken_append hP limits clock host history [.eval text] hbad)
  · unfold returned
    rw [recorded_concat]
    exact (htwins.eval text).imp id fun h => ⟨h.1, h.2.2⟩

end recording

/-! ## Noting changes nothing -/

theorem Hereditary.trivial : Hereditary fun _ => True := by constructor <;> simp

/-- Every evaluation answers the same with callables that note what they return. -/
theorem eval_recorded (limits : Limits) (clock : Clock) (host : σ) (history : List (Request σ))
    (text : String) : ((Interpreter.recorded limits clock host history).eval text).1 =
      ((Interpreter.hosted limits clock host history).eval text).1 := by
  rcases recorded_eval .trivial limits clock host history (fun _ _ _ => trivial) text with
    ⟨_, _, hbad⟩ | ⟨hresult, -⟩
  · exact absurd trivial hbad
  · exact (hresult.eq (EvalError.Kin.eq And.left) And.left).symm

end GuardedLisp
