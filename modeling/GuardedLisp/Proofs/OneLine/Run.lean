import GuardedLisp.Proofs.OneLine.Message
import GuardedLisp.Proofs.Printing.Survival
import GuardedLisp.Proofs.Provenance

/-!
# Which failures are one line

A symbol that is read is one line, since a line feed ends it. So where the host's own
names are one line, and the names in the values that it defines and returns, every name
in the state of an interpreter is, and every failure is tidy: what an action, a call or a
visit fails with quotes names and values at hand (`Tidies`). The callables note what they
return, and the values noted are those that the assumption is about.

What remains are the strings of a program. A message quotes them with their line feeds
escaped, as part of a value, but for those with which the program asks the host for a name
that is not allowed, for a module that there is not, or for a missing member of a module.
-/

namespace GuardedLisp

open EvalM
open Interpreter (hosted recorded returned)

variable {σ α β : Type}

/-! ## What is read -/

namespace Value

open Source (Datum)

mutual

theorem oneLine_ofDatum (d : Datum) (hd : ∀ k ∈ d.flatten, k.Legible) (n : Nat) :
    ((ofDatum d).run n).1.OneLine := by
  match d with
  | .number x => rw [ofDatum]; exact .ofAtom trivial nofun
  | .string s => rw [ofDatum]; exact .ofAtom trivial nofun
  | .symbol name =>
    rw [ofDatum]
    have hname : Source.TokenKind.Legible (.symbol name) := hd _ List.mem_cons_self
    refine .ofSymbol fun hfeed => ?_
    have hdelimiter := hname.1.2 _ hfeed
    cases hdelimiter
  | .list items =>
    rw [run_ofDatum_list]
    exact .ofList _ _ (oneLine_ofData items (fun k hk => hd k (by simp [Datum.flatten, hk])) n)

theorem oneLine_ofData (ds : List Datum) (hds : ∀ k ∈ Datum.flattenAll ds, k.Legible) (n : Nat) :
    ∀ v ∈ ((ofData ds).run n).1, v.OneLine := by
  match ds with
  | [] => rw [ofData]; exact nofun
  | d :: ds =>
    rw [Datum.flattenAll, List.forall_mem_append] at hds
    rw [run_ofData_cons]
    exact List.forall_mem_cons.2 ⟨oneLine_ofDatum d hds.1 n, oneLine_ofData ds hds.2 _⟩

end

end Value

/-! ## What the host names -/

/-- Names that the host registers or allows are one line, and so are those in a value that it
defines. -/
def Request.OneLine : Request σ → Prop
  | registerFunction name _ | allow name => GuardedLisp.OneLine name
  | registerModule name m =>
    GuardedLisp.OneLine name ∧ ∀ member ∈ m.names, GuardedLisp.OneLine member
  | define _ v => v.OneLine
  | _ => True

/-- A custom procedure has any name. -/
def HostTarget.names : HostTarget → List String
  | custom _ name => [name]
  | _ => []

theorem names_of_target {call : BridgeCall} {args rest : List Value} {target : HostTarget}
    (h : call.target args = .ok (target, rest)) : target.names = call.names := by
  obtain ⟨rfl, -⟩ := BridgeCall.target_eq_ok h
  cases target <;> rfl

structure Bridge.OneLine (b : Bridge σ) : Prop where
  allowed : ∀ name, b.isAllowed name = true → GuardedLisp.OneLine name
  modules : ∀ owner m, b.modules[owner]? = some m →
    GuardedLisp.OneLine owner ∧ ∀ member ∈ m.names, GuardedLisp.OneLine member

namespace Bridge.OneLine

variable {b : Bridge σ} {target : HostTarget}

/-- Callables that a program can get at have names on one line. -/
theorem text (h : b.OneLine) (hshown : ∀ name ∈ target.names, GuardedLisp.OneLine name)
    {f : HostFunction σ} (hf : b.resolve target = .ok f) :
    GuardedLisp.OneLine target.text := by
  cases target with
  | function name =>
    simp only [resolve] at hf
    split at hf
    · next hallowed => exact h.allowed name hallowed
    · cases hf
  | member owner name =>
    simp only [resolve] at hf
    split at hf
    · cases hf
    · next m hm =>
      split at hf
      · next g hg =>
        obtain ⟨howner, hmembers⟩ := h.modules owner m hm
        have hname : name ∈ m.names :=
          Std.TreeMap.mem_keys.2 (Std.TreeMap.mem_iff_isSome_getElem?.2 (hg ▸ rfl))
        exact .append (.append howner (by decide)) (hmembers name hname)
      · cases hf
  | custom code name => exact hshown name List.mem_cons_self

theorem tidy (h : b.OneLine) (hshown : ∀ name ∈ target.names, GuardedLisp.OneLine name)
    {e : BridgeError} (he : b.resolve target = .error e) : (EvalError.bridge e).Tidy := by
  cases target with
  | function name =>
    simp only [resolve] at he
    split at he
    · next hallowed =>
      split at he
      · cases he
      · cases he; exact h.allowed name hallowed
    · cases he; trivial
  | member owner name =>
    simp only [resolve] at he
    split at he
    · cases he; trivial
    · next m hm =>
      split at he
      · cases he
      · cases he; exact (h.modules owner m hm).1
  | custom code name =>
    simp only [resolve] at he
    split at he
    · cases he
    · cases he; exact hshown name List.mem_cons_self

end Bridge.OneLine

theorem Request.OneLine.permission {r : Request σ} (h : r.OneLine) {name : String}
    (hname : r.permission? name = some true) : GuardedLisp.OneLine name := by
  cases r with
  | registerFunction name' | allow name' =>
    simp only [permission?] at hname
    split at hname
    · next heq => exact heq ▸ h
    · cases hname
  | revoke name' => simp only [permission?] at hname; split at hname <;> cases hname
  | _ => cases hname

theorem Request.OneLine.module {r : Request σ} (h : r.OneLine) {owner : String}
    {m : HostModule σ} (hm : r.module? owner = some m) :
    GuardedLisp.OneLine owner ∧ ∀ member ∈ m.names, GuardedLisp.OneLine member := by
  cases r with
  | registerModule owner' m' =>
    simp only [module?] at hm
    split at hm
    · next heq => cases hm; exact heq ▸ h
    · cases hm
  | _ => cases hm

theorem Bridge.OneLine.hosted {limits : Limits} {clock : Clock} {host : σ}
    {history : List (Request σ)} (h : ∀ r ∈ history, r.OneLine) :
    (hosted limits clock host history).bridge.OneLine := by
  induction history using List.reverseRecOn with
  | nil =>
    refine ⟨fun name hname => ?_, fun owner m hm => ?_⟩
    · cases hname
    · cases hm
  | append_singleton history r ih =>
    rw [List.forall_mem_append, List.forall_mem_singleton] at h
    have ih := ih h.1
    rw [hosted_concat]
    refine ⟨fun name hname => ?_, fun owner m hm => ?_⟩
    · rw [Interpreter.isAllowed_handle] at hname
      cases hp : r.permission? name with
      | none => rw [hp] at hname; exact ih.allowed name hname
      | some b => rw [hp] at hname; cases hname; exact h.2.permission hp
    · rw [Interpreter.modules_handle] at hm
      cases hr : r.module? owner with
      | none => rw [hr] at hm; exact ih.modules owner m hm
      | some m' => rw [hr] at hm; cases hm; exact h.2.module hr

theorem Request.OneLine.recorded {r : Request σ} (h : r.OneLine) :
    r.recorded.OneLine := by
  cases r with
  | registerModule name m =>
    refine ⟨h.1, fun member hmember => h.2 member ?_⟩
    rw [HostModule.names, HostModule.recorded, Std.TreeMap.keys_map] at hmember
    exact hmember
  | _ => exact h

/-! ## Computations -/

section tidies

/-- How a computation may end. -/
def EndsTidy (R : α → Prop) : Except EvalError α → Prop
  | .ok a => R a
  | .error e => e.Tidy

/-- The host has returned at least what it had returned before. Under the condition, if what the
scopes hold is one line and all that the host has returned in the end, then what the scopes hold in
the end is one line, too, a failure is tidy, and the property holds of a result. -/
def RunsTidy (pre : Prop) (R : α → Prop) (w : World (σ × List Value))
    (run : Except EvalError α × Machine (σ × List Value)) : Prop :=
  w.host.2 <:+ run.2.world.host.2 ∧
  (pre → w.store.Holds Value.OneLine → (∀ v ∈ run.2.world.host.2, v.OneLine) →
    run.2.world.store.Holds Value.OneLine ∧ EndsTidy R run.1)

/-- The condition is about what the computation is given. What the host returns is noted in any
case, so that a later computation can tell of the values behind an earlier one. -/
def Tidies (pre : Prop) (R : α → Prop) (x : EvalM (σ × List Value) α) : Prop :=
  ∀ m, RunsTidy pre R m.world (x m)

namespace Tidies

variable {pre : Prop} {R : α → Prop} {S : β → Prop}

theorem imp {pre' : Prop} {x : EvalM (σ × List Value) α} (h : Tidies pre R x) (hpre : pre' → pre) :
    Tidies pre' R x := fun m => ⟨(h m).1, fun hp => (h m).2 (hpre hp)⟩

theorem quiet {f : World (σ × List Value) → Except EvalError α × World (σ × List Value)}
    (hf : Quiet f) (h : pre → ∀ w, w.store.Holds Value.OneLine →
      (f w).2.store.Holds Value.OneLine ∧ EndsTidy R (f w).1) : Tidies pre R (tryOnWorld f) :=
  fun m => ⟨(hf.host m.world).symm ▸ List.suffix_refl _, fun hp hstore _ => h hp m.world hstore⟩

theorem pure {a : α} (h : pre → R a) : Tidies pre R (pure a : EvalM (σ × List Value) α) :=
  quiet (.ofResult (.ok a)) fun hp _ hstore => ⟨hstore, h hp⟩

theorem throw {e : EvalError} (h : pre → e.Tidy) :
    Tidies pre R (throw e : EvalM (σ × List Value) α) :=
  fun _ => ⟨List.suffix_refl _, fun hp hstore _ => ⟨hstore, h hp⟩⟩

theorem bind {x : EvalM (σ × List Value) α} {f : α → EvalM (σ × List Value) β}
    (hx : Tidies pre R x) (hf : ∀ a, Tidies (pre ∧ R a) S (f a)) : Tidies pre S (x >>= f) := by
  intro m
  obtain ⟨hnoted, hends⟩ := hx m
  refine bind_cases (P := RunsTidy pre S m.world) (fun e m' he => ?_) (fun a m' ha => ?_)
  · rw [he] at hnoted hends
    exact ⟨hnoted, hends⟩
  · rw [ha] at hnoted hends
    obtain ⟨hnoted', hends'⟩ := hf a m'
    refine ⟨hnoted.trans hnoted', fun hp hstore hreturned => ?_⟩
    obtain ⟨hstore', ha⟩ := hends hp hstore fun v hv => hreturned v (hnoted'.mem hv)
    exact hends' ⟨hp, ha⟩ hstore' hreturned

theorem note {callee : Value} {args : List Value} {x : EvalM (σ × List Value) α}
    (hx : Tidies pre R x) : Tidies pre R (EvalM.note (.apply callee args) >>= fun _ => x) := by
  have hnote : Tidies pre (fun _ => True)
      (EvalM.note (.apply callee args) : EvalM (σ × List Value) Unit) :=
    fun _ => ⟨List.suffix_refl _, fun _ hstore _ => ⟨hstore, trivial⟩⟩
  exact hnote.bind fun _ => hx.imp And.left

theorem lookup (frame : Nat) (name : String) : Tidies (OneLine name) Value.OneLine
    (tryOnWorld fun w : World (σ × List Value) => (w.lookup frame name, w)) := by
  refine .quiet (.ofLookup frame name) fun hname w hstore => ⟨hstore, ?_⟩
  unfold World.lookup
  split
  · next hv => exact hstore.get? hv
  · exact hname

theorem extend (parent : Nat) (bindings : List (String × Value)) :
    Tidies (∀ b ∈ bindings, b.2.OneLine) (fun _ => True)
      (onWorld fun w : World (σ × List Value) => w.extend parent bindings) :=
  quiet (.ofExtend parent bindings) fun hb _ hstore => ⟨hstore.extend hb parent, trivial⟩

theorem define (frame : Nat) (name : String) (v : Value) : Tidies v.OneLine Value.OneLine
    (onWorld fun w : World (σ × List Value) => (v, w.define frame name v)) :=
  quiet (.ofDefine frame name v) fun hv _ hstore => ⟨hstore.define hv frame name, hv⟩

theorem assign (frame : Nat) (name : String) (v : Value) :
    Tidies (OneLine name ∧ v.OneLine) (fun _ => True)
      (tryOnWorld fun w : World (σ × List Value) => w.assign frame name v) := by
  refine .quiet (.ofAssign frame name v) fun ⟨hname, hv⟩ w hstore => ?_
  unfold World.assign
  split
  · exact ⟨hstore.set hv frame name, trivial⟩
  · exact ⟨hstore, hname⟩

theorem fresh : Tidies pre (fun _ => True)
    (onWorld fun w : World (σ × List Value) => w.alloc GuardedLisp.fresh) :=
  quiet (.ofAlloc (x := do return .ok (← GuardedLisp.fresh)) fun _ => .ok _)
    fun _ _ hstore => ⟨hstore, trivial⟩

end Tidies

theorem EvalError.IsOwn.tidy {e : EvalError} {args : List Value} (h : e.IsOwn args)
    (hargs : ∀ v ∈ args, v.OneLine) : e.Tidy := by
  have hnone {call : BridgeCall} (hcall : call ∈ BridgeCall.all) :
      ∀ name ∈ call.names, GuardedLisp.OneLine name := BridgeCall.names_eq_nil hcall ▸ nofun
  cases e with
  | arity fault =>
    cases fault with
    | builtin | noArguments => exact nofun
    | closure => exact h.elim
    | hostName call => exact hnone h
  | type fault =>
    cases fault with
    | number | list | callable => exact ⟨nofun, hargs _ h⟩
    | hostName call => exact ⟨hnone h.1, hargs _ h.2⟩
  | listTooDeep => trivial
  | _ => exact h.elim

theorem Primitive.oneLine_of_drawn {args : List Value} {v : Value} (h : Drawn args v)
    (hargs : ∀ v ∈ args, v.OneLine) : v.OneLine := by
  cases h with
  | atom h hsymbol => exact .ofAtom h hsymbol
  | arg h => exact hargs _ h
  | item h hv => exact (hargs _ h).item _ hv

theorem tidies_builtin (p : Primitive) (args : List Value) :
    Tidies (∀ v ∈ args, v.OneLine) Value.OneLine
      (tryOnWorld fun w : World (σ × List Value) => w.alloc (p.apply args)) := by
  refine .quiet (.ofAlloc (p.failsInternally_apply args)) fun hargs w hstore => ⟨hstore, ?_⟩
  change EndsTidy Value.OneLine ((p.apply args).run w.next).1
  have hyields := Primitive.apply_yields p args w.next
  have hfails := Primitive.failsOwn_apply args w.next p
  generalize (p.apply args).run w.next = r at hyields hfails ⊢
  cases hyields with
  | error e => exact (hfails e rfl).tidy hargs
  | given hv => exact Primitive.oneLine_of_drawn hv hargs
  | list hitems => exact .ofList _ _ fun v hv => Primitive.oneLine_of_drawn (hitems v hv) hargs

/-! ## Steps -/

/-- What a fault is found in is an operand, or an item of one. -/
theorem SpecialForm.Faulty.oneLine {form : Keyword} {operands : List Value} {fault : SyntaxFault}
    (h : Faulty form operands fault) (hoperands : ∀ v ∈ operands, v.OneLine) :
    ∀ got ∈ fault.got?, got.OneLine := by
  cases h with
  | shape => exact nofun
  | name | parameters | bindings =>
    rintro got ⟨⟩
    exact hoperands _ List.mem_cons_self
  | parameter | binding =>
    rintro got ⟨⟩
    exact (hoperands _ List.mem_cons_self).item _ (by simp)

/-- The names of the bridge are one line, and its callables note what they return. -/
structure Bridge.Noted (bridge : Bridge (σ × List Value)) : Prop where
  oneLine : bridge.OneLine
  recorded : ∀ target f, bridge.resolve target = .ok f → ∃ g : HostFunction σ, f = g.recorded

theorem tidies_applyBridge {bridge : Bridge (σ × List Value)} (hbridge : bridge.Noted) (addr : Nat)
    (call : BridgeCall) (args : List Value) :
    Tidies ((Value.bridge addr call).OneLine ∧ ∀ v ∈ args, v.OneLine) Value.OneLine
      (tryOnWorld (World.applyBridge bridge addr call args)) := by
  intro m
  rw [tryOnWorld_apply]
  cases ht : call.target args with
  | error e =>
    rw [World.applyBridge_of_target_error ht]
    exact ⟨List.suffix_refl _, fun ⟨hcall, hargs⟩ hstore _ =>
      ⟨hstore, (failsOwn_target call args e ht).tidy hargs⟩⟩
  | ok asked =>
    obtain ⟨target, rest⟩ := asked
    cases hr : bridge.resolve target with
    | error e =>
      rw [World.applyBridge_of_resolve_error ht hr]
      refine ⟨List.suffix_refl _, fun ⟨hcall, _⟩ hstore _ => ⟨hstore, hbridge.oneLine.tidy ?_ hr⟩⟩
      rw [names_of_target ht]
      exact hcall.call
    | ok f =>
      obtain ⟨g, rfl⟩ := hbridge.recorded target f hr
      rw [World.applyBridge_of_resolve_ok ht hr]
      let reply := (((g rest).run m.world.host.1).run m.world.next).1.1
      refine ⟨List.suffix_append reply.value?.toList _, fun ⟨hcall, _⟩ hstore hreturned =>
        ⟨hstore, ?_⟩⟩
      have htext := hbridge.oneLine.text (names_of_target ht ▸ hcall.call) hr
      change ∀ v ∈ reply.value?.toList ++ m.world.host.2, v.OneLine at hreturned
      change EndsTidy Value.OneLine ((Bridge.outcome target reply).mapError .bridge)
      cases hreply : reply with
      | value v =>
        rw [hreply] at hreturned
        exact hreturned v List.mem_cons_self
      | failure message => exact htext
      | crash message => exact htext
      | raise report =>
        cases target with
        | function | member => exact htext
        | custom => trivial

section steps

variable {bridge : Bridge (σ × List Value)} (hbridge : bridge.Noted) {visit : Visit (σ × List Value)}
  (hvisit : ∀ code frame, Tidies code.OneLine Value.OneLine (visit code frame)) (frame : Nat)

include hvisit

theorem Tidies.each (es : List Value) : Tidies (∀ e ∈ es, e.OneLine) (fun vs => ∀ v ∈ vs, v.OneLine)
    (visit.each frame es) := by
  induction es with
  | nil => exact .pure fun _ => nofun
  | cons e es ih =>
    rw [List.forall_mem_cons]
    refine .bind ((hvisit e frame).imp And.left) fun v => ?_
    refine .bind (ih.imp fun h => h.1.2) fun vs => .pure fun h => ?_
    exact List.forall_mem_cons.2 ⟨h.1.2, h.2⟩

theorem Tidies.last (e : Value) (es : List Value) :
    Tidies (∀ e' ∈ e :: es, e'.OneLine) Value.OneLine (visit.last frame e es) := by
  induction es generalizing e with
  | nil => exact (hvisit e frame).imp fun h => h e List.mem_cons_self
  | cons e' es ih =>
    rw [List.forall_mem_cons]
    exact .bind ((hvisit e frame).imp And.left) fun _ => (ih e').imp fun h => h.1.2

theorem Tidies.inFrame (bindings : List (String × Value)) (body : Value) :
    Tidies ((∀ b ∈ bindings, b.2.OneLine) ∧ body.OneLine) Value.OneLine
      (visit.inFrame frame bindings body) :=
  .bind ((Tidies.extend frame bindings).imp And.left) fun new =>
    (hvisit body new).imp fun h => h.1.2

theorem Tidies.form {keyword : Keyword} {operands : List Value} {f : SpecialForm}
    (h : SpecialForm.Spells keyword operands f) :
    Tidies (∀ v ∈ operands, v.OneLine) Value.OneLine (f.run visit frame) := by
  cases h with
  | quote datum => exact .pure fun h => h datum List.mem_cons_self
  | branch condition consequent =>
    simp only [List.forall_mem_cons]
    refine .bind ((hvisit condition frame).imp And.left) fun v => ?_
    split
    · exact (hvisit consequent frame).imp fun h => h.1.2.1
    · exact .pure fun _ => .ofAtom trivial nofun
  | branchElse condition consequent alternative =>
    simp only [List.forall_mem_cons]
    refine .bind ((hvisit condition frame).imp And.left) fun v => ?_
    split
    · exact (hvisit consequent frame).imp fun h => h.1.2.1
    · exact (hvisit alternative frame).imp fun h => h.1.2.2.1
  | define name e =>
    simp only [List.forall_mem_cons]
    refine .bind ((hvisit e frame).imp fun h => h.2.1) fun v => ?_
    exact (Tidies.define frame name v).imp And.right
  | assign name e =>
    simp only [List.forall_mem_cons]
    refine .bind ((hvisit e frame).imp fun h => h.2.1) fun v => ?_
    refine .bind ((Tidies.assign frame name v).imp fun h => ⟨h.1.1.symbol, h.2⟩) fun _ => ?_
    exact .pure fun h => h.1.2
  | lambda addr depth params body =>
    refine .bind .fresh fun new => .pure fun h => ?_
    simp only [List.forall_mem_cons] at h
    refine .ofClosure new frame (fun name hname => ?_) h.1.2.1
    exact (h.1.1.item _ (List.mem_map_of_mem hname)).symbol
  | @bind addr depth pairs bindings body hpairs =>
    simp only [List.forall_mem_cons]
    have hinits (h : (Value.list addr depth pairs).OneLine) :
        ∀ e ∈ bindings.map Prod.snd, e.OneLine := by
      intro e he
      obtain ⟨b, hb, rfl⟩ := List.mem_map.1 he
      obtain ⟨pair, hpair, hbinds⟩ := forall₂_mem_left hpairs.flip hb
      exact (h.item pair hpair).part (Value.part_of_binds hbinds)
    refine .bind ((Tidies.each hvisit frame _).imp fun h => hinits h.1) fun vs => ?_
    refine (Tidies.inFrame hvisit frame _ body).imp fun h => ⟨fun b hb => ?_, h.1.2.1⟩
    exact h.2 _ (List.of_mem_zip hb).2
  | sequence first rest => exact .last hvisit frame first rest

include hbridge

theorem Tidies.apply (callee : Value) (args : List Value) :
    Tidies (callee.OneLine ∧ ∀ v ∈ args, v.OneLine) Value.OneLine
      (applyWith bridge visit callee args) := by
  cases callee with
  | bridge addr call =>
    rw [applyWith_bridge]
    exact tidies_applyBridge hbridge addr call args
  | builtin addr p => exact .note ((tidies_builtin p args).imp And.right)
  | closure addr params body captured =>
    refine .note ?_
    dsimp only
    split
    · refine (Tidies.inFrame hvisit captured _ body).imp fun h => ⟨fun b hb => ?_, h.1.body⟩
      exact h.2 _ (List.of_mem_zip hb).2
    · exact .throw fun h => h.1.params
  | _ => exact .note (.throw fun h => ⟨nofun, h.1⟩)

theorem Tidies.step (code : Value) :
    Tidies code.OneLine Value.OneLine (evalStep bridge visit code frame) := by
  rcases code.code_cases with hconst | ⟨name, rfl⟩ | ⟨addr, depth, form, operands, rfl⟩ |
    ⟨addr, depth, head, operands, hhead, rfl⟩
  · rw [evalStep_of_isConstant hconst]
    exact .pure id
  · exact (Tidies.lookup frame name).imp Value.OneLine.symbol
  · have hoperands (h : (Value.list addr depth (.symbol form.name :: operands)).OneLine) :
        ∀ v ∈ operands, v.OneLine := fun v hv => h.item v (List.mem_cons_of_mem _ hv)
    rcases SpecialForm.spells_or_faulty form operands with ⟨f, hf⟩ | ⟨fault, hfault⟩
    · rw [evalStep_of_spells hf]
      exact (Tidies.form hvisit frame hf).imp hoperands
    · rw [evalStep_of_faulty hfault]
      exact .throw fun h => hfault.oneLine (hoperands h)
  · rw [evalStep_of_not_isReserved hhead]
    refine .bind ((hvisit head frame).imp fun h => h.item head List.mem_cons_self) fun callee => ?_
    refine .bind ((Tidies.each hvisit frame operands).imp fun h e he =>
      h.1.item e (List.mem_cons_of_mem _ he)) fun args => ?_
    exact (Tidies.apply hbridge hvisit callee args).imp fun h => ⟨h.1.2, h.2⟩

end steps

/-! ## Runs -/

section runs

variable {bridge : Bridge (σ × List Value)} (hbridge : bridge.Noted) (frame : Nat)

theorem tidies_guarded {code : Value} {step : EvalM (σ × List Value) Value}
    (hstep : Tidies code.OneLine Value.OneLine step) :
    Tidies code.OneLine Value.OneLine (guarded code frame step) := by
  intro m
  cases hr : m.guard.refusal? with
  | some why =>
    rw [guarded_of_refusal hr]
    exact ⟨List.suffix_refl _, fun _ hstore _ => ⟨hstore, trivial⟩⟩
  | none =>
    rw [guarded_of_admission hr]
    exact hstep (m.enter code frame)

include hbridge

theorem evalWithin_tidies (room : Nat) (code : Value) :
    Tidies code.OneLine Value.OneLine (evalWithin bridge room code frame) := by
  induction room generalizing code frame with
  | zero => exact tidies_guarded frame (.throw fun _ => trivial)
  | succ room ih => exact tidies_guarded frame (.step hbridge (fun c f => ih f c) frame code)

/-- **Evaluations fail with tidy failures.** -/
theorem eval_tidies (code : Value) : Tidies code.OneLine Value.OneLine (eval bridge code frame) :=
  fun m => evalWithin_tidies hbridge frame m.guard.room code m

theorem evalProgram_tidies (program : List Value) :
    Tidies (∀ e ∈ program, e.OneLine) Value.OneLine (evalProgram bridge frame program) := by
  cases program with
  | nil => exact .pure fun _ => .ofAtom trivial nofun
  | cons e es => exact .last (fun c f => eval_tidies hbridge f c) frame e es

theorem evalText_tidies (text : String) (m : Machine (σ × List Value)) :
    RunsTidy True Value.OneLine m.world (evalText bridge text frame m) := by
  cases hdata : Source.Program.ofText text with
  | error e =>
    rw [evalText_of_error hdata]
    exact ⟨List.suffix_refl _, fun _ hstore _ => ⟨hstore, trivial⟩⟩
  | ok data =>
    rw [evalText_of_ok hdata]
    have hprogram := Value.oneLine_ofData data (Source.legible_of_ofText hdata) m.world.next
    exact (evalProgram_tidies hbridge frame (m.program data)).imp (fun _ => hprogram) (m.load data)

end runs

end tidies

/-! ## Histories -/

section histories

variable {limits : Limits} {clock : Clock} {host : σ} {history : List (Request σ)}

theorem recorded_noted (h : ∀ r ∈ history, r.OneLine) :
    (recorded limits clock host history).bridge.Noted :=
  ⟨.hosted (by
      simp only [List.forall_mem_map]
      exact fun r hr => (h r hr).recorded),
    fun _ _ => Interpreter.exists_recorded limits clock host history⟩

theorem Globals.oneLine_named {γ : Type} (name : γ → String) {procedure : Nat → γ → Value}
    {cs : List γ} (h : ∀ n, ∀ c ∈ cs, (procedure n c).OneLine) (n : Nat) :
    ∀ b ∈ ((named name procedure cs).run n).1, b.2.OneLine := by
  induction cs generalizing n with
  | nil => exact nofun
  | cons c cs ih =>
    exact List.forall_mem_cons.2 ⟨h n c List.mem_cons_self,
      ih (fun n c hc => h n c (List.mem_cons_of_mem _ hc)) (n + 1)⟩

theorem Globals.oneLine_table (n : Nat) : ∀ b ∈ (table.run n).1, b.2.OneLine := by
  have hconstants : ∀ b ∈ constants, b.2.OneLine := by
    simp only [constants, List.forall_mem_cons]
    refine ⟨.ofAtom trivial ?_, .ofAtom trivial ?_, .ofAtom trivial ?_, ?_⟩ <;> simp
  let primitives := (named Primitive.name .builtin Primitive.all).run n
  have htable : (table.run n).1 =
      primitives.1 ++ ((named BridgeCall.name .bridge BridgeCall.all).run primitives.2).1 ++
        constants := rfl
  rw [htable]
  refine List.forall_mem_append.2 ⟨List.forall_mem_append.2 ⟨?_, ?_⟩, hconstants⟩
  · exact oneLine_named Primitive.name (fun n p _ => .builtin n p) n
  · refine oneLine_named BridgeCall.name (fun n call hcall => .bridge n ?_) primitives.2
    rw [BridgeCall.names_eq_nil hcall]
    exact List.forall_mem_nil _

/-- **The invariant.** Whatever the history, the names in the scopes are one line. -/
theorem oneLine_recorded (h : ∀ r ∈ history, r.OneLine)
    (hreturned : ∀ v ∈ returned limits clock host history, v.OneLine) :
    (recorded limits clock host history).machine.world.store.Holds Value.OneLine := by
  induction history using List.reverseRecOn with
  | nil =>
    have hstart : (World.start (host, ([] : List Value))).store.Holds Value.OneLine := by
      intro f name v hv
      simp [World.start, Store.own?, Store.empty] at hv
    exact hstart.addRoot (Globals.oneLine_table _)
  | append_singleton history r ih =>
    rw [List.forall_mem_append, List.forall_mem_singleton] at h
    unfold returned at hreturned ih
    rw [recorded_concat] at hreturned ⊢
    cases r with
    | registerFunction | registerModule | write | allow | revoke | time => exact ih h.1 hreturned
    | reset => exact ((ih h.1 hreturned).clear _).addRoot (Globals.oneLine_table _)
    | define name v => exact (ih h.1 hreturned).define h.2 _ name
    | eval text =>
      let i := recorded limits clock host history
      obtain ⟨hnoted, hends⟩ := evalText_tidies (recorded_noted h.1) i.global text i.machine
      exact (hends trivial (ih h.1 fun v hv => hreturned v (hnoted.mem hv)) hreturned).1

/-- Every failure of an evaluation is tidy. -/
theorem tidy_of_eval_eq_error (h : ∀ r ∈ history, r.OneLine) {text : String}
    (hreturned : ∀ v ∈ returned limits clock host (history ++ [.eval text]), v.OneLine)
    {e : EvalError} (he : ((hosted limits clock host history).eval text).1 = .error e) : e.Tidy := by
  unfold returned at hreturned
  rw [recorded_concat] at hreturned
  rw [← eval_recorded] at he
  let i := recorded limits clock host history
  obtain ⟨hnoted, hends⟩ := evalText_tidies (recorded_noted h) i.global text i.machine
  have hstore := oneLine_recorded h fun v hv => hreturned v (hnoted.mem hv)
  have hfailed := (hends trivial hstore hreturned).2
  change (evalText i.bridge text i.global i.machine).1 = _ at he
  rwa [he] at hfailed

end histories

/-! ## Messages of an interpreter -/

/-- A program asked the host for this name, and there is nothing that it could have. -/
def EvalError.Denies (e : EvalError) (name : String) : Prop :=
  e = .bridge (.notAllowed name) ∨ e = .bridge (.unknownModule name) ∨
    ∃ owner, e = .bridge (.unknownMember owner name)

theorem EvalError.Tidy.not_oneLine_message_iff {e : EvalError} (h : e.Tidy)
    (hhost : ∀ callee message, e = .bridge (.hostFailure callee message) → OneLine message)
    (hcustom : ∀ report, e = .bridge (.raised report) → OneLine report.message) :
    ¬ OneLine e.message ↔ ∃ name, e.Denies name ∧ ¬ OneLine name := by
  rw [h.oneLine_message_iff]
  constructor
  · intro hraw
    obtain ⟨text, htext, hlong⟩ : ∃ text ∈ e.raw?, ¬ OneLine text := by
      simpa only [not_forall, exists_prop] using hraw
    cases e with
    | bridge e =>
      cases e with
      | notAllowed => cases htext; exact ⟨text, .inl rfl, hlong⟩
      | unknownModule => cases htext; exact ⟨text, .inr (.inl rfl), hlong⟩
      | unknownMember owner => cases htext; exact ⟨text, .inr (.inr ⟨owner, rfl⟩), hlong⟩
      | hostFailure callee => cases htext; exact absurd (hhost callee text rfl) hlong
      | raised report => cases htext; exact absurd (hcustom report rfl) hlong
      | notRegistered => cases htext
    | _ => cases htext
  · rintro ⟨name, rfl | rfl | ⟨owner, rfl⟩, hname⟩ h
    · exact hname (h name rfl)
    · exact hname (h name rfl)
    · exact hname (h name rfl)

/-- A call of `call-js` with a name that is not allowed is denied. -/
theorem apply_of_not_isAllowed {bridge : Bridge σ} {name : String}
    (h : bridge.isAllowed name = false) (addr : Nat) (args : List Value) (m : Machine σ) :
    (apply bridge (.bridge addr .function) (.string name :: args) m).1 =
      .error (.bridge (.notAllowed name)) := by
  have htarget : BridgeCall.function.target (.string name :: args) =
      .ok (.function name, args) := rfl
  have hresolve : bridge.resolve (.function name) = .error (.notAllowed name) :=
    if_neg (Bool.eq_false_iff.1 h)
  unfold apply
  rw [applyWith_bridge, tryOnWorld_apply, World.applyBridge_of_resolve_error htarget hresolve]

/-- **Messages are one line, except where a program asks for what it cannot have.** Take a history
in which the host registers, allows and defines only names on one line, and an evaluation of a text
in the course of which, as before, it returns only such values; its own message, or that of a custom
procedure, may be what the evaluation fails with if this is one line, too. Then the message of the
failure has a line feed if, and only if, the failure is that a name is not allowed, or that there is
no such module or member of one, and the string with which the program asked has one: it is quoted
as it is. Any string that is not one line gets into a message so. -/
theorem messages_one_line (limits : Limits) (clock : Clock) (host : σ) (history : List (Request σ))
    (text : String) (h : ∀ r ∈ history, r.OneLine)
    (hreturned : ∀ v ∈ returned limits clock host (history ++ [.eval text]), v.OneLine) :
    let i := hosted limits clock host history
    (∀ e, (i.eval text).1 = .error e →
      (∀ callee message, e = .bridge (.hostFailure callee message) → OneLine message) →
      (∀ report, e = .bridge (.raised report) → OneLine report.message) →
      (¬ OneLine e.message ↔ ∃ name, e.Denies name ∧ ¬ OneLine name)) ∧
    ∀ name, ¬ OneLine name → ∀ addr args m, ∃ e,
      (apply i.bridge (.bridge addr .function) (.string name :: args) m).1 = .error e ∧
        e.Denies name ∧ ¬ OneLine e.message := by
  intro i
  refine ⟨fun e he hhost hcustom => ?_, fun name hname addr args m => ?_⟩
  · exact (tidy_of_eval_eq_error h hreturned he).not_oneLine_message_iff hhost hcustom
  · have hallowed : i.bridge.isAllowed name = false :=
      Bool.eq_false_iff.2 fun hallowed => hname ((Bridge.OneLine.hosted h).allowed name hallowed)
    have htidy : (EvalError.bridge (.notAllowed name)).Tidy := trivial
    refine ⟨_, apply_of_not_isAllowed hallowed addr args m, .inl rfl, ?_⟩
    exact (htidy.not_oneLine_message_iff nofun nofun).2 ⟨name, .inl rfl, hname⟩

/-- The message about a value that `car` does not take quotes it with its line feed escaped. The one
about a name that is not allowed quotes it as it is. -/
theorem messages_one_line_escaped :
    let answer : HostFunction Unit := fun _ => return .value (.symbol "g")
    let history := [.registerFunction "f" answer, .eval "(def x (call-js \"f\"))"]
    let text := "(car \"a\\nb\")"
    let i := hosted .standard .nominal () history
    (∃ e, (i.eval text).1 = .error e ∧ OneLine e.message) ∧
      ∃ e, (apply i.bridge (.bridge 30 .function) [.string "a\nb"] i.machine).1 = .error e ∧
        ¬ OneLine e.message := by
  intro answer history text i
  have hnames : ∀ r ∈ history, r.OneLine := by
    simp only [history, List.forall_mem_cons]
    exact ⟨(by decide : OneLine "f"), trivial, nofun⟩
  have hbinding : Source.Program.ofText "(def x (call-js \"f\"))" =
      .ok [.list [.symbol "def", .symbol "x", .list [.symbol "call-js", .string "f"]]] := by
    rw [Source.Program.ofText, Source.tokenize_eq]
    cbv
  have htext : Source.Program.ofText text = .ok [.list [.symbol "car", .string "a\nb"]] := by
    rw [Source.Program.ofText, Source.tokenize_eq]
    cbv
  have hnoted : returned .standard .nominal () (history ++ [.eval text]) = [.symbol "g"] := by
    simp only [history, returned, Interpreter.recorded, hosted, Interpreter.after,
      List.cons_append, List.nil_append, List.map_cons, List.map_nil, List.foldl_cons,
      List.foldl_nil, Request.recorded, Interpreter.handle, Interpreter.eval, ExceptT.run,
      evalText_of_ok hbinding, evalText_of_ok htext]
    cbv
  have hreturned : ∀ v ∈ returned .standard .nominal () (history ++ [.eval text]), v.OneLine := by
    rw [hnoted, List.forall_mem_singleton]
    exact .ofSymbol (by decide)
  obtain ⟨hfails, hdenied⟩ := messages_one_line .standard .nominal () history text hnames hreturned
  have hcar : (i.eval text).1 = .error (.type (.list .car (.string "a\nb"))) := by
    simp only [i, history, hosted, Interpreter.after, List.foldl_cons, List.foldl_nil,
      Interpreter.handle, Interpreter.eval, ExceptT.run, evalText_of_ok hbinding,
      evalText_of_ok htext]
    cbv
  refine ⟨⟨_, hcar, Decidable.by_contra fun hlong => ?_⟩, ?_⟩
  · have hlines := hfails _ hcar (fun _ _ h => by cases h) fun _ h => by cases h
    obtain ⟨name, h | h | ⟨owner, h⟩, -⟩ := hlines.1 hlong <;> cases h
  · obtain ⟨e, he, -, hlong⟩ := hdenied "a\nb" (by decide) 30 [] i.machine
    exact ⟨e, he, hlong⟩

/-- A program without anything from a host gets a line feed into a message. -/
theorem denied_with_line_feed :
    let e : EvalError := .bridge (.notAllowed "a\nb")
    ((hosted .standard .nominal () []).eval "(call-js \"a\\nb\")").1 = .error e ∧
      ¬ OneLine e.message := by
  have h : Source.Program.ofText "(call-js \"a\\nb\")" =
      .ok [.list [.symbol "call-js", .string "a\nb"]] := by
    rw [Source.Program.ofText, Source.tokenize_eq]
    cbv
  refine ⟨?_, by decide +kernel⟩
  simp only [Interpreter.eval, ExceptT.run, evalText_of_ok h]
  cbv

end GuardedLisp
