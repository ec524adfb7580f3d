import GuardedLisp.Proofs.Discipline.Run
import GuardedLisp.Proofs.Discipline.Supply
import GuardedLisp.Proofs.Quotation
import GuardedLisp.Proofs.Recording

/-!
# Where code comes from

Code and data have one representation, and closures carry code through the scopes,
through lists, through arguments and through the host. Still only what was written
as code is run: every visited expression occurs in an evaluated position of a text,
or of the body of a closure that the host supplied (`code_has_source`). What carries
this through an evaluation is that every closure anywhere has such an expression as
its body (`provenance`). The values that the host returns are noted, as they are
supplied in the course of it.
-/

namespace GuardedLisp

variable {σ : Type}

namespace Value

/-- The value has a closure with this body among its parts. -/
def Carries (v body : Value) : Prop :=
  ∃ addr params frame, v.Part True (.closure addr params body frame)

variable {v c e body : Value}

theorem Carries.ofPart (h : v.Part True c) (hc : c.Carries body) : v.Carries body := by
  obtain ⟨addr, params, frame, hpart⟩ := hc
  exact ⟨addr, params, frame, h.trans hpart⟩

theorem not_carries_of_isAtom (h : v.IsAtom) : ¬ v.Carries body := by
  rintro ⟨addr, params, frame, hpart⟩
  exact not_captures_of_isAtom h frame ⟨addr, params, body, hpart⟩

theorem Carries.cases_list {addr depth : Nat} {items : List Value}
    (h : (Value.list addr depth items).Carries body) : ∃ v ∈ items, v.Carries body := by
  obtain ⟨a, params, frame, hpart⟩ := h
  rcases hpart with _ | ⟨hv, hpart⟩
  exact ⟨_, hv, a, params, frame, hpart⟩

theorem Carries.cases_closure {addr frame : Nat} {params : List String}
    (h : (Value.closure addr params c frame).Carries body) : body = c ∨ c.Carries body := by
  obtain ⟨a, ps, f, hpart⟩ := h
  rcases hpart with _ | _ | ⟨-, hpart⟩
  · exact .inl rfl
  · exact .inr ⟨a, ps, f, hpart⟩

end Value

/-- The parts of what was read carry no code. -/
theorem Value.Read.not_carries {n n' : Nat} {v body : Value}
    (h : ∀ w, v.Part True w → w.Read n n') : ¬ v.Carries body := by
  rintro ⟨addr, params, frame, hpart⟩
  cases h _ hpart with
  | atom h => exact h

/-! ## The invariant -/

section provenance

variable (Root : Value → Prop)

/-- Given these sources of code, and the values that the host has returned. -/
def Runnable (returned : List Value) (c : Value) : Prop :=
  ∃ root, (Root root ∨ ∃ v ∈ returned, v.Carries root) ∧ root.Occurs c

variable {Root} {returned : List Value} {v c : Value}

theorem Runnable.ofReturned {returned' : List Value} (h : Runnable Root returned c)
    (hsuffix : returned <:+ returned') : Runnable Root returned' c := by
  obtain ⟨root, hroot, hc⟩ := h
  exact ⟨root, hroot.imp id fun ⟨v, hv, hcarries⟩ => ⟨v, hsuffix.mem hv, hcarries⟩, hc⟩

/-- The bodies of closures in code can be run: they are supplied with it. -/
theorem Runnable.carried (hroot : ∀ root body, Root root → root.Carries body → Root body)
    (h : Runnable Root returned c) {body : Value} (hbody : c.Carries body) :
    Runnable Root returned body := by
  obtain ⟨root, hsource, hc⟩ := h
  have hcarries : root.Carries body := .ofPart hc.part hbody
  refine ⟨body, ?_, .refl⟩
  rcases hsource with hsource | ⟨v, hv, addr, params, frame, hpart⟩
  · exact .inl (hroot root body hsource hcarries)
  · exact .inr ⟨v, hv, .ofPart (hpart.trans (.body trivial (.refl root))) hcarries⟩

/-- Every closure at hand has a body that can be run, and only what can be run is visited. -/
def provenance (Root : Value → Prop)
    (hroot : ∀ root body, Root root → root.Carries body → Root body) :
    Discipline (σ × List Value) where
  Stage := List Value
  After := List.IsSuffix
  value returned v := ∀ body, v.Carries body → Runnable Root returned body
  code returned c := Runnable Root returned c
  frame _ _ := True
  visited _ _ _ := True
  rest returned w := w.host.2 = returned ∧
    ∀ c f, .visit c f ∈ w.journal → Runnable Root returned c
  refl := List.suffix_refl
  trans := List.IsSuffix.trans
  value_after h _ hv := fun body hbody => (hv body hbody).ofReturned h
  code_after h _ hc := hc.ofReturned h
  frame_after _ _ _ := trivial
  visited_after _ _ _ _ := trivial
  atom h := fun body hbody => absurd hbody (Value.not_carries_of_isAtom h)
  item h := fun v hv body hbody => h body (.ofPart (.item hv (.refl v)) hbody)
  body h := ⟨h _ ⟨_, _, _, .refl _⟩, trivial⟩
  data h := fun _ hbody => h.carried hroot hbody
  subform := by
    rintro returned c e ⟨root, hsource, hc⟩ he
    exact ⟨root, hsource, hc.tail he⟩
  make := by
    rintro returned w v hw hv
    refine ⟨returned, List.suffix_refl _, hw, fun body hbody => ?_⟩
    cases hv with
    | list h =>
      obtain ⟨u, hu, hbody⟩ := hbody.cases_list
      exact h u hu body hbody
    | closure params hcode _ =>
      rcases hbody.cases_closure with rfl | hbody
      · exact hcode
      · exact hcode.carried hroot hbody
    | builtin p => obtain ⟨_, _, _, hpart⟩ := hbody; cases hpart
    | bridge call => obtain ⟨_, _, _, hpart⟩ := hbody; cases hpart
  idle := by
    rintro returned w ⟨hhost, hvisits⟩ e he
    refine ⟨hhost, fun c f h => ?_⟩
    rcases List.mem_cons.1 h with rfl | h
    · exact he.elim
    · exact hvisits c f h
  visit := by
    rintro returned w c f ⟨hhost, hvisits⟩ hc -
    refine ⟨returned, List.suffix_refl _, ⟨hhost, fun c' f' h => ?_⟩, trivial⟩
    rcases List.mem_cons.1 h with h | h
    · cases h; exact hc
    · exact hvisits c' f' h
  extend := by
    rintro returned w parent bindings ⟨hhost, hvisits⟩ - -
    refine ⟨returned, List.suffix_refl _, ⟨hhost, fun c f h => ?_⟩, trivial⟩
    exact hvisits c f (by simpa [World.extend] using h)
  define := by
    rintro returned w c e v f name ⟨hhost, hvisits⟩ - - - -
    exact ⟨hhost, fun c f h => hvisits c f (by simpa [World.define] using h)⟩
  assign := by
    rintro returned w v f name ⟨hhost, hvisits⟩ - - hbound
    rw [World.assign, if_pos hbound]
    exact ⟨hhost, fun c f h => hvisits c f (by simpa using h)⟩

variable {hroot : ∀ root body, Root root → root.Carries body → Root body}

theorem provenance_serves (target : HostTarget) (f : HostFunction σ) :
    (provenance Root hroot).Serves target f.recorded := by
  rintro (returned : List Value) w args ⟨hhost, hvisits⟩ -
  let reply := ((f args).run w.host.1).run w.next
  refine ⟨reply.1.1.value?.toList ++ returned, List.suffix_append _ _, ⟨?_, fun c g h => ?_⟩,
    fun v hv body hbody => ⟨body, .inr ⟨v, ?_, hbody⟩, .refl⟩⟩
  · rw [← hhost]
    rfl
  · exact (hvisits c g (by simpa using h)).ofReturned (List.suffix_append _ _)
  · have hv : reply.1.1 = .value v := hv
    rw [hv]
    exact List.mem_cons_self

end provenance

/-! ## Histories -/

namespace Interpreter

variable (limits : Limits) (clock : Clock) (host : σ) (history : List (Request σ))

/-- A form of a text that the history evaluates, as it was read then. -/
def Written (c : Value) : Prop :=
  ∃ past text data, past ++ [.eval text] <+: history ∧ Source.Program.ofText text = .ok data ∧
    c ∈ (hosted limits clock host past).machine.program data

/-- The body of a closure in a value that the history defines. -/
def Defined (c : Value) : Prop := ∃ name v, .define name v ∈ history ∧ v.Carries c

/-- What code can come from, apart from values that the host returned. -/
def Origin (c : Value) : Prop := Written limits clock host history c ∨ Defined history c

variable {limits clock host history}

theorem Written.not_carries {c body : Value} (h : Written limits clock host history c) :
    ¬ c.Carries body := by
  obtain ⟨past, text, data, -, -, hc⟩ := h
  exact Value.Read.not_carries fun w hw => Value.read_ofData data _ hc hw

theorem Origin.carried {root body : Value} (h : Origin limits clock host history root)
    (hbody : root.Carries body) : Origin limits clock host history body := by
  rcases h with h | ⟨name, v, hv, addr, params, frame, hpart⟩
  · exact absurd hbody h.not_carries
  · exact .inr ⟨name, v, hv, .ofPart (hpart.trans (.body trivial (.refl root))) hbody⟩

theorem Origin.append {root : Value} (h : Origin limits clock host history root)
    (rest : List (Request σ)) : Origin limits clock host (history ++ rest) root := by
  rcases h with ⟨past, text, data, hpast, hdata, hc⟩ | ⟨name, v, hv, hcarries⟩
  · exact .inl ⟨past, text, data, hpast.trans (List.prefix_append _ _), hdata, hc⟩
  · exact .inr ⟨name, v, List.mem_append_left _ hv, hcarries⟩

variable (limits clock host history)

/-- What is kept from the history on. -/
abbrev sources : Discipline (σ × List Value) :=
  provenance (Origin limits clock host history) fun _ _ => Origin.carried

/-- Callables that can be reached note what they return. -/
theorem exists_recorded {target : HostTarget} {f : HostFunction (σ × List Value)}
    (h : (recorded limits clock host history).bridge.resolve target = .ok f) :
    ∃ g : HostFunction σ, f = g.recorded := by
  unfold recorded hosted at h
  cases target with
  | function name =>
    rw [resolve_function_after rfl, lastly_recorded history (permission?_recorded name),
      lastly_recorded history (function?_recorded name)] at h
    split at h
    · cases hf : lastly (·.function? name) history <;> rw [hf] at h <;> cases h
      exact ⟨_, rfl⟩
    · cases h
  | member owner name =>
    rw [resolve_member_after rfl, lastly_recorded history (module?_recorded owner)] at h
    cases hm : lastly (·.module? owner) history with
    | none => rw [hm] at h; cases h
    | some m =>
      have hmember : m.recorded[name]? = m[name]?.map HostFunction.recorded :=
        Std.TreeMap.getElem?_map
      simp only [hm, Option.map_some, hmember] at h
      cases hf : m[name]? <;> rw [hf] at h <;> cases h
      exact ⟨_, rfl⟩
  | custom code name =>
    rw [resolve_custom_after rfl, lastly_recorded history (code?_recorded code)] at h
    cases hf : lastly (·.code? code) history <;> rw [hf] at h <;> cases h
    exact ⟨_, CustomFunction.callable_recorded _⟩

theorem provenance_bridges {Root : Value → Prop}
    {hroot : ∀ root body, Root root → root.Carries body → Root body} :
    (provenance Root hroot).Bridges (recorded limits clock host history).bridge := by
  intro target f hf
  obtain ⟨g, rfl⟩ := exists_recorded limits clock host history hf
  exact provenance_serves target g

variable {limits clock host history}

/-- More is allowed when the history goes on. -/
theorem sources_append (rest : List (Request σ)) {i : List Value} {w : World (σ × List Value)}
    (h : (sources limits clock host history).World i w) :
    (sources limits clock host (history ++ rest)).World i w := by
  have hrunnable {c : Value} (hc : Runnable (Origin limits clock host history) i c) :
      Runnable (Origin limits clock host (history ++ rest)) i c := by
    obtain ⟨root, hroot, hc⟩ := hc
    exact ⟨root, hroot.imp (·.append rest) id, hc⟩
  exact ⟨h.store.imp fun v hv body hbody => hrunnable (hv body hbody), h.rest.1,
    fun c f hc => hrunnable (h.rest.2 c f hc)⟩

/-- A table of globals brings no code. -/
theorem sources_addGlobals {i : List Value} {w : World (σ × List Value)}
    (h : (sources limits clock host history).World i w) :
    (sources limits clock host history).World i w.addGlobals.2 := by
  obtain ⟨j, hij, hrest, hbound⟩ := Discipline.supplies_table w h.rest
  have hj : j = i := hrest.1.symm.trans h.rest.1
  subst hj
  exact ⟨h.store.addRoot hbound, hrest⟩

/-- Both runs read a text at the same point. -/
theorem program_recorded (data : List Source.Datum) :
    (recorded limits clock host history).machine.program data =
      (hosted limits clock host history).machine.program data := by
  rcases recorded_twins .trivial limits clock host history (fun _ _ _ => trivial) with
    ⟨_, _, hbad⟩ | htwins
  · exact absurd trivial hbad
  · have hnext : (hosted limits clock host history).machine.world.next =
        (recorded limits clock host history).machine.world.next := htwins.worlds.supply
    rw [Machine.program, Machine.program, hnext]

/-- The discipline at a point of a run of callables that note what they return. -/
def Sourced (limits : Limits) (clock : Clock) (host : σ) (history : List (Request σ))
    (w : World (σ × List Value)) : Prop := (sources limits clock host history).World w.host.2 w

theorem Sourced.eval (h : Sourced limits clock host history
      (recorded limits clock host history).machine.world) (text : String) :
    Sourced limits clock host (history ++ [.eval text])
      ((recorded limits clock host history).eval text).2.machine.world := by
  have hstart := sources_append [.eval text] h
  let i := recorded limits clock host history
  change Sourced limits clock host _ (evalText i.bridge text i.global i.machine).2.world
  cases hdata : Source.Program.ofText text with
  | error e =>
    rw [evalText_of_error hdata]
    exact ⟨hstart.store, rfl, fun c f hc => by cases hc⟩
  | ok data =>
    rw [evalText_of_ok hdata]
    have hloaded :
        Sourced limits clock host (history ++ [.eval text]) (i.machine.load data).world :=
      ⟨hstart.store, rfl, fun c f hc => by cases hc⟩
    -- the forms of the text are among the sources now
    have hprogram (c : Value) (hc : c ∈ i.machine.program data) :
        (sources limits clock host (history ++ [.eval text])).code i.machine.world.host.2 c := by
      rw [program_recorded] at hc
      exact ⟨c, .inl (.inl ⟨history, text, data, List.prefix_refl _, hdata, hc⟩), .refl⟩
    obtain ⟨j, -, hend, -⟩ := Discipline.keeps_evalProgram
      (provenance_bridges limits clock host history) trivial hprogram (i.machine.load data) hloaded
    have hj : _ = j := hend.rest.1
    subst hj
    exact hend

/-- **The invariant.** Whatever the history, every closure in the scopes has a body that comes from
the sources of code. -/
theorem sourced_recorded : Sourced limits clock host history
    (recorded limits clock host history).machine.world := by
  induction history using List.reverseRecOn with
  | nil =>
    have hstart : Sourced limits clock host ([] : List (Request σ)) (World.start (host, [])) :=
      ⟨fun f name v hv => by simp [World.start, Store.own?, Store.empty] at hv, rfl,
        fun c f hc => by cases hc⟩
    exact sources_addGlobals hstart
  | append_singleton history r ih =>
    have hstart := sources_append [r] ih
    rw [recorded_concat]
    cases r with
    | registerFunction | registerModule | write | allow | revoke | time => exact hstart
    | reset =>
      have hclear : Sourced limits clock host (history ++ [.reset])
          (recorded limits clock host history).clear.machine.world :=
        ⟨hstart.store.clear _, hstart.rest⟩
      exact sources_addGlobals hclear
    | define name v =>
      refine ⟨hstart.store.define (fun body hbody => ?_) _ name, hstart.rest⟩
      exact ⟨body, .inl (.inr ⟨name, v, List.mem_append_right _ List.mem_cons_self, hbody⟩), .refl⟩
    | eval text => exact ih.eval text

end Interpreter

open Interpreter in
/-- **Data never becomes code.** Take any history of a new interpreter that ends with the evaluation
of a text. Every expression visited then occurs in an evaluated position of a form of a text that
the history evaluates, or of the body of a closure that the host supplied, by a definition or in
what a callable returned. In the first case it is an atom or a list that the reader made when it
read that text, so that no list built since is run. Such a list is under no quote of the text. -/
theorem code_has_source (limits : Limits) (clock : Clock) (host : σ) (history : List (Request σ))
    (text : String) : ∀ c f,
    .visit c f ∈ ((hosted limits clock host history).eval text).2.machine.world.journal →
      (∃ past source data, past ++ [.eval source] <+: history ++ [.eval text] ∧
        Source.Program.ofText source = .ok data ∧
        let m := (hosted limits clock host past).machine
        (∃ form ∈ m.program data, form.Occurs c) ∧
          c.Read m.world.next (m.load data).world.next ∧
          (c.addr? = none ∨ ∀ form ∈ m.program data, ¬ form.Quotes c)) ∨
      ∃ v body, ((∃ name, .define name v ∈ history) ∨
          v ∈ returned limits clock host (history ++ [.eval text])) ∧
        v.Carries body ∧ body.Occurs c := by
  intro c f hvisit
  -- the run of callables that note what they return visits the same expressions
  have hrecorded : .visit c f ∈
      ((recorded limits clock host history).eval text).2.machine.world.journal := by
    rcases recorded_eval .trivial limits clock host history (fun _ _ _ => trivial) text with
      ⟨_, _, hbad⟩ | ⟨-, hevents⟩
    · exact absurd trivial hbad
    · obtain ⟨event, hevent, hkin⟩ := forall₂_mem_left hevents hvisit
      cases hkin with
      | visit hc hf =>
        obtain ⟨rfl, -⟩ := hc
        cases hf
        exact hevent
  obtain ⟨root, hroot, hc⟩ := (sourced_recorded.eval text).rest.2 c f hrecorded
  rcases hroot with (⟨past, source, data, hpast, hdata, hform⟩ | ⟨name, v, hv, hcarries⟩) |
    ⟨v, hv, hcarries⟩
  · refine .inl ⟨past, source, data, hpast, hdata, ⟨root, hform, hc⟩,
      Value.read_ofData data _ hform hc.part, ?_⟩
    cases ha : c.addr? with
    | none => exact .inl rfl
    | some addr =>
      exact .inr fun form hform' => Machine.not_quotes_of_program _ data hform hform' hc ha
  · have hv : .define name v ∈ history := by simpa using hv
    exact .inr ⟨v, root, .inl ⟨name, hv⟩, hcarries, hc⟩
  · refine .inr ⟨v, root, .inr ?_, hcarries, hc⟩
    rw [returned, recorded_concat]
    exact hv

open Interpreter in
/-- What is quoted here reads as an assignment from its second item on. The rest of it is computed,
and something is visited: code of the text. -/
theorem code_has_source_quoted :
    let text := "(cdr (quote (a set! b c)))"
    let i := hosted .standard .nominal () []
    (i.eval text).1.toOption.map Value.text = some "(set! b c)" ∧
      ∃ c f, .visit c f ∈ (i.eval text).2.machine.world.journal ∧
        ∃ data, Source.Program.ofText text = .ok data ∧
          (∃ form ∈ i.machine.program data, form.Occurs c) ∧
          (c.addr? = none ∨ ∀ form ∈ i.machine.program data, ¬ form.Quotes c) := by
  intro text i
  have hvisited : (i.eval text).2.machine.world.journal.any Event.isVisit = true := by
    decide +kernel
  obtain ⟨e, he, hvisit⟩ := List.any_eq_true.1 hvisited
  refine ⟨by decide +kernel, ?_⟩
  cases e
  case visit c f =>
    refine ⟨c, f, he, ?_⟩
    rcases code_has_source .standard .nominal () [] text c f he with
      ⟨past, source, data, hpast, hdata, hform, -, hunquoted⟩ | ⟨v, -, hsupplied, -⟩
    · obtain ⟨rfl, rfl⟩ : past = [] ∧ source = text := by
        have := hpast.eq_of_length_le (by simp)
        cases past <;> simp_all
      exact ⟨data, hdata, hform, hunquoted⟩
    · have hnone : (returned .standard .nominal () [.eval text]).isEmpty = true := by
        decide +kernel
      rcases hsupplied with ⟨_, hdefined⟩ | hv
      · cases hdefined
      · rw [List.nil_append, List.isEmpty_iff.1 hnone] at hv
        cases hv
  all_goals cases hvisit

end GuardedLisp
