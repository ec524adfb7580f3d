import GuardedLisp.Proofs.Adequacy
import GuardedLisp.Proofs.Correspondence.Renaming
import GuardedLisp.Proofs.Discipline.Run
import GuardedLisp.Proofs.Lexing.Scanning
import GuardedLisp.Proofs.Loading
import GuardedLisp.Proofs.Nesting

/-!
# Nesting through the bridge

What a call of the bridge answers is what the host callable replied, however deeply
that is nested. So the bridge keeps the limit on nesting exactly if every callable
within reach does (`applied_preserves_iff`), and then histories keep it, too
(`kept_twins`). If a callable does not, the limit that `list`, `cons` and the reader
put on nesting means nothing: `echo`, which answers the list of its arguments, adds
a level with every call, and a program that hands it back its own answer gets as deep
as it likes, one evaluation after the other (`Interpreter.Echoing.eval`).
-/

namespace GuardedLisp

open EvalM
open Source (Datum maxNesting)
open Interpreter (hosted)

variable {σ : Type}

/-- Answers arguments with the property with nothing but values that have it. -/
def HostFunction.Preserves (P : Value → Prop) (f : HostFunction σ) : Prop :=
  ∀ args host n v, (∀ w ∈ args, P w) → (((f args).run host).run n).1.1 = .value v → P v

/-! ## One call -/

section apply

variable {bridge : Bridge σ} {addr : Nat} {call : BridgeCall} {args rest : List Value}
  {target : HostTarget} {f : HostFunction σ} {m : Machine σ} {v : Value}

theorem apply_bridge_of_reply (h : call.target args = .ok (target, rest))
    (hf : bridge.resolve target = .ok f)
    (hreply : (((f rest).run m.world.host).run m.world.next).1.1 = .value v) :
    (apply bridge (.bridge addr call) args m).1 = .ok v := by
  unfold apply
  rw [applyWith_bridge, tryOnWorld_apply, World.applyBridge_of_resolve_ok h hf, hreply]
  rfl

/-- A value that comes from the bridge is what a callable replied. -/
theorem reply_of_apply_bridge (h : (apply bridge (.bridge addr call) args m).1 = .ok v) :
    ∃ target rest f, call.target args = .ok (target, rest) ∧ bridge.resolve target = .ok f ∧
      (((f rest).run m.world.host).run m.world.next).1.1 = .value v := by
  unfold apply at h
  rw [applyWith_bridge, tryOnWorld_apply] at h
  cases ht : call.target args with
  | error e => rw [World.applyBridge_of_target_error ht] at h; cases h
  | ok asked =>
    cases hf : bridge.resolve asked.1 with
    | error e => rw [World.applyBridge_of_resolve_error ht hf] at h; cases h
    | ok f =>
      rw [World.applyBridge_of_resolve_ok ht hf] at h
      refine ⟨asked.1, asked.2, f, rfl, hf, ?_⟩
      cases hreply : (((f asked.2).run m.world.host).run m.world.next).1.1 with
      | value u => rw [hreply] at h; cases h; rfl
      | failure | crash | raise => rw [hreply] at h; cases h

/-- The bridge adds nothing to what the callables do, and checks nothing. -/
theorem applied_preserves_iff {P : Value → Prop} (hstring : ∀ s, P (.string s))
    (bridge : Bridge σ) :
    (∀ addr call args m v, (∀ w ∈ args, P w) →
      (apply bridge (.bridge addr call) args m).1 = .ok v → P v) ↔
      bridge.Offers (HostFunction.Preserves P) := by
  constructor
  · intro h target f hf args host n v hargs hreply
    let m : Machine σ := ⟨.start .standard .nominal, ⟨.empty, n, host, []⟩⟩
    have hleading : ∀ w ∈ target.leading ++ args, P w := by
      rw [List.forall_mem_append]
      refine ⟨?_, hargs⟩
      cases target <;> simp [HostTarget.leading, hstring]
    exact h 0 target.call _ m v hleading
      (apply_bridge_of_reply (target.target_call args) hf hreply)
  · intro h addr call args m v hargs hv
    obtain ⟨target, rest, f, ht, hf, hreply⟩ := reply_of_apply_bridge hv
    exact h target f hf rest _ _ v
      (fun w hw => hargs w (BridgeCall.mem_args_of_target ht w hw)) hreply

end apply

/-! ## Histories of callables that keep a property -/

section keeping

variable {P : Value → Prop} (hP : Hereditary P)

/-- The same in both, and every value has the property. -/
def keeping (P : Value → Prop) (hP : Hereditary P) : Correspondence σ σ :=
  { recording (σ := σ) P hP with
    host := Eq
    broken := fun _ => False }

theorem keeping_bridges {bridge : Bridge σ} (h : bridge.Offers (HostFunction.Preserves P)) :
    (keeping P hP).Bridges bridge bridge := by
  intro target
  cases hf : bridge.resolve target with
  | error e => exact .error rfl
  | ok f =>
    refine .ok ⟨fun _ _ _ h => h, ?_⟩
    rintro args args' host _ n _ hargs rfl rfl
    obtain ⟨rfl, hall⟩ := forall₂_eq_and.1 hargs
    refine .inr ⟨?_, rfl, rfl⟩
    have hkept := h target f hf args host n
    generalize (((f args).run host).run n).1.1 = reply at hkept ⊢
    cases reply with
    | value v => exact .value ⟨rfl, hkept v hall rfl⟩
    | failure => exact .failure _
    | crash => exact .crash _
    | raise => exact .raise _

variable (limits : Limits) (clock : Clock) (host : σ) {history : List (Request σ)}

/-- By induction on the history: nothing that a host or a program does makes a value without the
property, if the callables do not. -/
theorem kept_twins (hdefined : ∀ name v, .define name v ∈ history → P v)
    (hoffers : ∀ past, past <+: history →
      (hosted limits clock host past).bridge.Offers (HostFunction.Preserves P)) :
    (keeping P hP).Twins (hosted limits clock host history) (hosted limits clock host history) := by
  -- the bridges may differ after every step, so they are put in anew
  induction history using List.reverseRecOn with
  | nil =>
    have hstart : (keeping P hP).Worlds (World.start host) (World.start host) := by
      refine ⟨⟨fun _ => rfl, ?_⟩, rfl, rfl⟩
      rintro f _ rfl
      exact .none
    obtain ⟨hglobal, hworlds⟩ := Correspondence.addGlobals_alike hstart
    exact ⟨keeping_bridges hP (hoffers [] List.nil_prefix), rfl, rfl, hworlds, hglobal⟩
  | append_singleton history r ih =>
    have htwins := ih (fun name v h => hdefined name v (List.mem_append_left _ h))
      fun past hpast => hoffers past (hpast.trans (List.prefix_append _ _))
    have hbridges := keeping_bridges hP (hoffers _ (List.prefix_refl _))
    rw [hosted_concat] at hbridges ⊢
    cases r with
    | registerFunction | registerModule | write | allow | revoke =>
      exact { htwins with bridges := hbridges }
    | time clock => exact { htwins with clock := rfl }
    | reset => exact htwins.reset
    | define name v =>
      exact htwins.define name ⟨rfl, hdefined name v (List.mem_append_right _ List.mem_cons_self)⟩
    | eval text => exact ((htwins.eval text).resolve_left id).2.1

end keeping

/-! ## What a history registers -/

/-- All callables that the step registers have the property, and so have the custom procedures. -/
def Request.Registers (P : HostFunction σ → Prop) : Request σ → Prop
  | registerFunction _ f => P f
  | registerModule _ m => ∀ (name : String) f, m[name]? = some f → P f
  | write _ f => P f.callable
  | _ => True

theorem exists_of_lastly {α : Type} {tells : Request σ → Option α} {history : List (Request σ)}
    {a : α} (h : lastly tells history = some a) : ∃ r ∈ history, tells r = some a := by
  obtain ⟨r, hr, hra⟩ := List.exists_of_findSome?_eq_some h
  exact ⟨r, List.mem_reverse.1 hr, hra⟩

/-- Only what was registered can be called. -/
theorem hosted_offers {P : HostFunction σ → Prop} {limits : Limits} {clock : Clock} {host : σ}
    {history : List (Request σ)} (h : ∀ r ∈ history, r.Registers P) :
    (hosted limits clock host history).bridge.Offers P := by
  unfold hosted
  intro target f hf
  cases target with
  | function name =>
    rw [Interpreter.resolve_function_after rfl] at hf
    split at hf
    · cases hlast : lastly (·.function? name) history <;> rw [hlast] at hf <;> cases hf
      obtain ⟨r, hr, hrf⟩ := exists_of_lastly hlast
      have hr := h r hr
      cases r with
      | registerFunction other g =>
        simp only [Request.function?] at hrf
        split at hrf <;> cases hrf
        exact hr
      | _ => cases hrf
    · cases hf
  | member owner name =>
    rw [Interpreter.resolve_member_after rfl] at hf
    cases hlast : lastly (·.module? owner) history with
    | none => rw [hlast] at hf; cases hf
    | some m =>
      obtain ⟨r, hr, hrm⟩ := exists_of_lastly hlast
      have hr := h r hr
      simp only [hlast] at hf
      cases hmember : m[name]? <;> rw [hmember] at hf <;> cases hf
      cases r with
      | registerModule other m' =>
        simp only [Request.module?] at hrm
        split at hrm <;> cases hrm
        exact hr name f hmember
      | _ => cases hrm
  | custom code name =>
    rw [Interpreter.resolve_custom_after rfl] at hf
    cases hlast : lastly (·.code? code) history <;> rw [hlast] at hf <;> cases hf
    obtain ⟨r, hr, hrf⟩ := exists_of_lastly hlast
    have hr := h r hr
    cases r with
    | write other g =>
      simp only [Request.code?] at hrf
      split at hrf <;> cases hrf
      exact hr
    | _ => cases hrf

/-! ## A callable that wraps -/

/-- Answers the list of the arguments. -/
def HostFunction.echo : HostFunction σ := fun args => do return .value (← Value.ofItems args)

/-- Hands `a` to the callable and binds the answer to `a` again. -/
def echoText : String := "(def a (call-js \"echo\" a))"

def echoDatum : Datum :=
  .list [.symbol "def", .symbol "a", .list [.symbol "call-js", .string "echo", .symbol "a"]]

theorem ofText_echoText : Source.Program.ofText echoText = .ok [echoDatum] := by
  rw [Source.Program.ofText, Source.tokenize_eq]
  cbv

/-- A frame that binds the name itself is the nearest one that does. -/
theorem Store.get?_of_own? {s : Store} {f : Nat} {name : String} {v : Value}
    (h : s.own? f name = some v) : s.get? f name = some v := by
  obtain ⟨frame, hframe, hv⟩ := Option.bind_eq_some_iff.1 h
  have hbinds : frame.bindings.contains name = true := by
    rw [Std.TreeMap.contains_eq_isSome_getElem?, hv]; rfl
  have hbinder : s.binder? f name = some f := by
    rw [binder?.eq_def, hframe]
    exact if_pos hbinds
  rw [get?, hbinder]
  exact h

/-- What that program needs: the callable, a way and the room to call it, and a value. -/
structure Interpreter.Echoing (i : Interpreter σ) (v : Value) : Prop where
  callable : i.bridge.resolve (.function "echo") = .ok .echo
  caller : ∃ addr, i.machine.world.store.own? i.global "call-js" = some (.bridge addr .function)
  bound : i.machine.world.store.own? i.global "a" = some v
  timely : ∀ visit, i.machine.guard.clock visit ≤ i.machine.guard.limits.timeout
  operations : 5 ≤ i.machine.guard.limits.maxOperations
  levels : 3 ≤ i.machine.guard.limits.maxDepth

namespace Interpreter.Echoing

variable {i : Interpreter σ} {v : Value}

theorem evaluates (h : i.Echoing v) {s : Scene σ} (hs : s.store = i.machine.world.store)
    (addr depth addr' depth' : Nat) :
    Evaluates i.bridge (.list addr depth [.symbol "def", .symbol "a",
      .list addr' depth' [.symbol "call-js", .string "echo", .symbol "a"]]) i.global s
      (.ok (.list s.next (Value.depthOver [v]) [v]))
      ({ s with next := s.next + 1, calls := s.calls ++ [(HostTarget.function "echo", [v])] }.define
        i.global "a" (.list s.next (Value.depthOver [v]) [v])) ⟨5, 3⟩ := by
  obtain ⟨caller, hcaller⟩ := h.caller
  rw [← hs] at hcaller
  have ha : s.store.get? i.global "a" = some v := Store.get?_of_own? (hs ▸ h.bound)
  have hcall : ¬ (Value.symbol "call-js").IsReserved := by
    rintro ⟨form, hform⟩
    cases form <;> simp [Keyword.name] at hform
  have hargs : EvaluatesEach i.bridge [.string "echo", .symbol "a"] i.global s
      (.ok [.string "echo", v]) s ⟨2, 1⟩ :=
    .cons (.constant (v := .string "echo") trivial) (.cons (.bound ha) .nil)
  have hreply : Calls i.bridge (.bridge caller .function) [.string "echo", v] s
      (.ok (.list s.next (Value.depthOver [v]) [v]))
      { s with next := s.next + 1, calls := s.calls ++ [(.function "echo", [v])] } .none :=
    .host rfl h.callable rfl
  exact .special (.define "a" _)
    (.define (.application hcall (.bound (Store.get?_of_own? hcaller)) hargs hreply))

/-- **A step.** The answer is one level deeper, and it can be handed over again. -/
theorem eval (h : i.Echoing v) : ∃ w, (i.eval echoText).1 = .ok w ∧
    (i.eval echoText).2.Echoing w ∧ w.nesting = v.nesting + 1 := by
  -- what the text is read to, and where it runs: with a guard that starts afresh
  let m := i.machine.load [echoDatum]
  let code : Value := .list (i.machine.world.next + 1) 2 [.symbol "def", .symbol "a",
    .list i.machine.world.next 1 [.symbol "call-js", .string "echo", .symbol "a"]]
  let w : Value := .list m.world.next (Value.depthOver [v]) [v]
  have hrun : evalText i.bridge echoText i.global i.machine =
      GuardedLisp.eval i.bridge code i.global m := evalText_of_ok ofText_echoText
  have hafford : m.guard.Affords ⟨5, 3⟩ :=
    ⟨(Nat.zero_add 5).symm ▸ h.operations, (Nat.zero_add 3).symm ▸ h.levels⟩
  have heval : i.eval echoText = ((GuardedLisp.eval i.bridge code i.global m).1,
      { i with machine := (GuardedLisp.eval i.bridge code i.global m).2 }) := by
    rw [← hrun]
    rfl
  obtain ⟨hresult, hscene, hguard⟩ := (h.evaluates (s := m.world.scene) rfl
    (i.machine.world.next + 1) 2 i.machine.world.next 1).attains m rfl h.timely hafford
  have hstore : (GuardedLisp.eval i.bridge code i.global m).2.world.store =
      i.machine.world.store.define i.global "a" w := congrArg Scene.store hscene
  have hbinds : i.machine.world.store.binds i.global "a" = true := by
    rw [Store.binds, h.bound]; rfl
  have hglobal := Store.lt_nextFrame_of_binds hbinds
  rw [heval]
  refine ⟨w, hresult, ⟨h.callable, ?_, ?_, ?_, ?_, ?_⟩, ?_⟩
  · obtain ⟨caller, hcaller⟩ := h.caller
    refine ⟨caller, ?_⟩
    rw [hstore, Store.own?_define _ hglobal, if_neg (by simp)]
    exact hcaller
  · rw [hstore, Store.own?_define _ hglobal, if_pos ⟨rfl, rfl⟩]
  · rw [hguard]; exact h.timely
  · rw [hguard]; exact h.operations
  · rw [hguard]; exact h.levels
  · simp only [w, Value.nesting, Value.nestingOfItems]
    omega

/-- **A run.** Every evaluation adds a level. -/
theorem after (h : i.Echoing v) (n : Nat) : ∃ w,
    (i.after (List.replicate n (.eval echoText))).Echoing w ∧ w.nesting = v.nesting + n := by
  induction n generalizing i v with
  | zero => exact ⟨v, h, rfl⟩
  | succ n ih =>
    obtain ⟨w, -, hw, hnesting⟩ := h.eval
    obtain ⟨u, hu, hnesting'⟩ := ih hw
    exact ⟨u, hu, by omega⟩

theorem get (h : i.Echoing v) : i.get "a" = .ok v := by
  unfold Interpreter.get World.lookup
  rw [Store.get?_of_own? h.bound]

/-- The host registers the callable and defines the value. -/
theorem start {limits : Limits} {clock : Clock} (host : σ) (v : Value)
    (htime : ∀ visit, clock visit ≤ limits.timeout) (hoperations : 5 ≤ limits.maxOperations)
    (hlevels : 3 ≤ limits.maxDepth) :
    (hosted limits clock host [.registerFunction "echo" .echo, .define "a" v]).Echoing v := by
  let w : World σ := (World.start host).addGlobals.2
  have hframe : 0 < w.store.nextFrame := Nat.one_pos
  have hcaller : ∃ addr, w.store.own? 0 "call-js" = some (.bridge addr .function) := by
    have hstore : w.store = Store.empty.addRoot (Globals.table.run 0).1 := rfl
    have hlast : lastBinding? "call-js" (Globals.table.run 0).1 =
        some (.bridge Primitive.all.length .function) := rfl
    refine ⟨Primitive.all.length, ?_⟩
    rw [hstore, Store.own?_addRoot, hlast]
    exact if_pos rfl
  have hresolve : (Bridge.empty.registerFunction "echo" HostFunction.echo).resolve
      (.function "echo") = .ok (HostFunction.echo (σ := σ)) := by
    simp [Bridge.resolve, Bridge.registerFunction, Bridge.isAllowed]
  refine ⟨hresolve, ?_, ?_, htime, hoperations, hlevels⟩
  · obtain ⟨caller, hcaller⟩ := hcaller
    refine ⟨caller, ?_⟩
    change (w.store.define 0 "a" v).own? 0 "call-js" = _
    rw [Store.own?_define _ hframe, if_neg (by simp), hcaller]
  · change (w.store.define 0 "a" v).own? 0 "a" = _
    rw [Store.own?_define _ hframe, if_pos ⟨rfl, rfl⟩]

end Interpreter.Echoing

/-! ## The limit and the bridge -/

theorem hosted_append (limits : Limits) (clock : Clock) (host : σ)
    (past rest : List (Request σ)) : hosted limits clock host (past ++ rest) =
      (hosted limits clock host past).after rest := List.foldl_append

/-- **The bridge keeps the limit on nesting exactly if the callables do.** On any bridge, what the
calls of it answer to arguments within the limit is within the limit if, and only if, the callables
that a program can get at reply so. Take a history of a new interpreter in which such callables keep
values sound, and those that the host defines are sound. Then at every moment of it every binding of
every frame is sound, and so is whatever an evaluation answers. With `echo`, in contrast, nothing
limits the nesting: a value gets a level deeper with every evaluation of `echoText`, for which five
operations and three levels are room enough. -/
theorem nesting_through_bridge :
    (∀ bridge : Bridge σ,
      (∀ addr call args m v, (∀ w ∈ args, w.nesting ≤ maxNesting) →
        (apply bridge (.bridge addr call) args m).1 = .ok v → v.nesting ≤ maxNesting) ↔
      bridge.Offers (HostFunction.Preserves (·.nesting ≤ maxNesting))) ∧
    (∀ limits clock (host : σ) history, (∀ name v, .define name v ∈ history → v.Sound) →
      (∀ past, past <+: history →
        (hosted limits clock host past).bridge.Offers (HostFunction.Preserves Value.Sound)) →
      (∀ past, past <+: history → ∀ frame name v,
        (hosted limits clock host past).machine.world.store.own? frame name = some v → v.Sound) ∧
      ∀ past text, past ++ [.eval text] <+: history → ∀ v,
        ((hosted limits clock host past).eval text).1 = .ok v → v.Sound) ∧
    ∀ limits clock (host : σ), (∀ visit, clock visit ≤ limits.timeout) →
      5 ≤ limits.maxOperations → 3 ≤ limits.maxDepth → ∀ v n,
        ∃ w, (hosted limits clock host ([.registerFunction "echo" .echo, .define "a" v] ++
          List.replicate n (.eval echoText))).get "a" = .ok w ∧ w.nesting = v.nesting + n := by
  refine ⟨fun bridge => applied_preserves_iff (fun _ => Nat.zero_le _) bridge,
    fun limits clock host history hdefined hoffers => ?_,
    fun limits clock host htime hoperations hlevels v n => ?_⟩
  · have htwins (past : List (Request σ)) (hpast : past <+: history) :=
      kept_twins Value.hereditary_sound limits clock host
        (fun name v h => hdefined name v (hpast.subset h))
        fun before hbefore => hoffers before (hbefore.trans hpast)
    refine ⟨fun past hpast frame name v hv => ?_, fun past text hpast v hv => ?_⟩
    · have hown := (htwins past hpast).worlds.store.own?_alike (f := frame) rfl name
      rw [hv] at hown
      obtain ⟨u, -, -, hsound⟩ := hown.some_left
      exact hsound
    · have hbefore : past <+: history := (List.prefix_append past _).trans hpast
      have hresult := (((htwins past hbefore).eval text).resolve_left id).1
      rw [hv] at hresult
      cases hresult with
      | ok h => exact h.2
  · have hstart := Interpreter.Echoing.start host v htime hoperations hlevels
    obtain ⟨w, hw, hnesting⟩ := hstart.after n
    rw [hosted_append]
    exact ⟨w, hw.get, hnesting⟩

/-- A callable that answers its last argument keeps the limit. After 600 evaluations with `echo` the
limit is passed. -/
theorem nesting_through_bridge_last :
    let last : HostFunction Unit := fun args => return .value (args.getLast?.getD .nil)
    let history : List (Request Unit) := [.registerFunction "last" last,
      .define "a" (.list 90 1 [.nil]), .eval "(def b (call-js \"last\" (list a)))"]
    (∀ addr args m v, (∀ w ∈ args, w.nesting ≤ maxNesting) →
      (apply (Bridge.empty.registerFunction "last" last) (.bridge addr .function) args m).1 = .ok v →
        v.nesting ≤ maxNesting) ∧
      ((hosted .standard .nominal () history).machine.world.store.own? 0 "b").map Value.nesting =
        some 2 ∧
      (∀ v, (hosted .standard .nominal () history).machine.world.store.own? 0 "b" = some v →
        v.Sound) ∧
      ∃ w, (hosted ⟨5, 0, 3⟩ (fun _ => 0) () ([.registerFunction "echo" .echo, .define "a" .nil] ++
        List.replicate 600 (.eval echoText))).get "a" = .ok w ∧ w.nesting = 600 := by
  intro last history
  have hlast {P : Value → Prop} (hnil : P .nil) : last.Preserves P := by
    intro args host n v hargs hv
    obtain rfl : args.getLast?.getD .nil = v := HostReply.value.inj hv
    cases h : args.getLast? with
    | none => exact hnil
    | some w => exact hargs w (List.mem_of_getLast? h)
  have hoffers {P : Value → Prop} (hnil : P .nil) :
      (Bridge.empty.registerFunction "last" last).Offers (HostFunction.Preserves P) :=
    Bridge.Offers.empty.registerFunction "last" (hlast hnil)
  obtain ⟨hcalls, hkept, hechoed⟩ := nesting_through_bridge (σ := Unit)
  refine ⟨fun addr => (hcalls _).2 (hoffers (Nat.zero_le _)) addr .function, by decide +kernel,
    ?_, ?_⟩
  · refine (hkept .standard .nominal () history ?_ ?_).1 history (List.prefix_refl _) 0 "b"
    · intro name v h
      obtain ⟨-, rfl⟩ : name = "a" ∧ v = .list 90 1 [.nil] := by simpa [history] using h
      decide
    · have hregisters : ∀ r ∈ history, r.Registers (HostFunction.Preserves Value.Sound) := by
        simp [history, Request.Registers, hlast (P := Value.Sound) (.ofAtom trivial)]
      exact fun past hpast => hosted_offers fun r hr => hregisters r (hpast.subset hr)
  · obtain ⟨w, hw, hnesting⟩ := hechoed ⟨5, 0, 3⟩ (fun _ => 0) () (fun _ => Nat.le_refl 0)
      (Nat.le_refl 5) (Nat.le_refl 3) .nil 600
    exact ⟨w, hw, by rw [hnesting]; rfl⟩

/-- One list in the other, as many as that. -/
def Value.wrapped : Nat → Value
  | 0 => .nil
  | n + 1 => .list n (n + 1) [wrapped n]

theorem Value.nesting_wrapped (n : Nat) : (wrapped n).nesting = n := by
  induction n with
  | zero => rfl
  | succ n ih => simp only [wrapped, nesting, nestingOfItems, ih]; omega

theorem Value.sound_wrapped {n : Nat} (h : n ≤ maxNesting) : (wrapped n).Sound := by
  induction n with
  | zero => exact .ofAtom trivial
  | succ n ih =>
    have hitems : ∀ v ∈ [wrapped n], v.Sound := List.forall_mem_singleton.2 (ih (by omega))
    refine .ofList n hitems ?_ h
    simp only [nestingOfItems, nesting_wrapped]
    omega

/-- `list` refuses to put a list that is nested as deeply as the limit allows into another one, and
a call of `echo` does it. -/
theorem call_past_limit :
    let bridge : Bridge Unit := Bridge.empty.registerFunction "echo" .echo
    let m : Machine Unit := ⟨.start .standard .nominal, ⟨.empty, maxNesting, (), []⟩⟩
    let v := Value.wrapped maxNesting
    v.Sound ∧ v.nesting = maxNesting ∧
      (apply bridge (.builtin 600 .list) [v] m).1 = .error .listTooDeep ∧
      ∃ w, (apply bridge (.bridge 601 .function) [.string "echo", v] m).1 = .ok w ∧
        w.nesting = maxNesting + 1 := by
  intro bridge m v
  have hsound : v.Sound := Value.sound_wrapped (Nat.le_refl _)
  have hnesting : v.nesting = maxNesting := Value.nesting_wrapped _
  have hdeep : 1 + Value.nestingOfItems [v] = maxNesting + 1 := by
    simp only [Value.nestingOfItems, hnesting]; omega
  refine ⟨hsound, hnesting, ?_, .list maxNesting (Value.depthOver [v]) [v], ?_, ?_⟩
  · have hlist := apply_boundedList bridge 600 (p := .list) m rfl
      (List.forall_mem_singleton.2 hsound)
    rw [hlist.1, if_neg (by omega)]
  · have hresolve : bridge.resolve (.function "echo") = .ok .echo := by
      simp [bridge, Bridge.resolve, Bridge.registerFunction, Bridge.isAllowed]
    have htarget : BridgeCall.function.target [.string "echo", v] =
        .ok (.function "echo", [v]) := rfl
    exact apply_bridge_of_reply htarget hresolve rfl
  · rw [Value.nesting, hdeep]

end GuardedLisp
