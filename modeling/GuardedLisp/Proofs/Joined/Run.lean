import GuardedLisp.Proofs.Joined.Program
import GuardedLisp.Proofs.Joined.Renaming
import GuardedLisp.Proofs.Joined.Text
import GuardedLisp.Proofs.Reset

/-!
# A program in pieces

Evaluating two texts, the second one if the first one succeeds, does what evaluating
them as one text does (`pieces_as_whole`). The reader makes the lists of both texts
before anything runs if they are one text, and those of the second one later if they
are not. So identities differ: in the first piece those given out while it runs
(`Renaming.later`), and from the second piece on the two blocks have changed places
(`Renaming.swap`), while all that comes behind is the same again.
-/

namespace GuardedLisp

open EvalM
open Source (Datum)
open Correspondence (upTo)

variable {σ τ : Type}

/-! ## What is seen of an evaluation -/

structure Outcome (σ : Type) where
  result : Except EvalError Value
  store : Store
  host : σ
  /-- Oldest first. -/
  calls : List (HostTarget × List Value)
  operations : Nat

namespace Outcome

def ofRun (p : Except EvalError Value × Machine σ) : Outcome σ :=
  ⟨p.1, p.2.world.store, p.2.world.host, p.2.world.scene.calls, p.2.guard.operations⟩

/-- One evaluation and then another one, of these forms. The last value counts, which is that of the
first one if there are no forms. -/
def followedBy (o o' : Outcome σ) (forms : List Datum) : Outcome σ :=
  { o' with
    result := if forms = [] then o.result else o'.result
    calls := o.calls ++ o'.calls
    operations := o.operations + o'.operations }

/-- The same up to a renaming. -/
structure Alike (k : Keeping σ τ) (ρ : Renaming) (o o' : Outcome σ) : Prop where
  result : ResultAlike ρ (Value.Alike ρ) o.result o'.result
  store : (upTo k ρ).Stores o.store o'.store
  host : k.Alike ρ o.host o'.host
  calls : List.Forall₂ (CallAlike ρ) o.calls o'.calls
  operations : o.operations = o'.operations

end Outcome

/-- What is seen of the evaluation of a text. -/
def Interpreter.outcome (i : Interpreter σ) (text : String) : Outcome σ :=
  .ofRun ((i.eval text).1, (i.eval text).2.machine)

/-! ## Lists of a text -/

/-- A text takes the same number of identities wherever its reading begins. -/
theorem Value.exists_next_ofData {data : List Datum}
    (h : Datum.nestingOfItems data ≤ Source.maxNesting) :
    ∃ d, ∀ n, ((ofData data).run n).2 = n + d := by
  refine ⟨((ofData data).run 0).2, fun n => ?_⟩
  have hread := Correspondence.ofData_alike (C := .ofRenaming (σ := Unit) (.onward n 0)) data h n 0
    (Renaming.supplies_onward n 0)
  obtain ⟨-, hnext⟩ := hread.2.next
  omega

/-! ## The first piece -/

section pieces

variable {k : Keeping σ τ} {O : Value → Prop} {bridge : Bridge σ} {f : Nat} {h : Heap}
  {w w' : World σ} {n c d : Nat} {forms : List Value}

/-- Forms that run where `d` more identities were given out. -/
theorem first_alike (huniform : bridge.Offers (HostFunction.Uniform k))
    (hd : Described k.Holds O w h) (hforms : ∀ v ∈ forms, h.known v) (d : Nat) (g : Guard) :
    let ρ := Renaming.later w.next d
    let m : Machine σ := ⟨g, w⟩
    let m' : Machine σ := ⟨g, { w with next := w.next + d }⟩
    (upTo k ρ).Ends (Value.Alike ρ) m m' (evalProgram bridge f forms m)
      (evalProgram bridge f forms m') := by
  intro ρ m m'
  have hgiven {v : Value} (hv : h.known v) : v.GivenOut w.next := hd.fits.next ▸ Heap.givenOut hv
  have hworlds : (upTo k ρ).Worlds m.world m'.world :=
    Correspondence.worlds_later (hd.store.imp fun _ => hgiven)
      (fun v hv => hgiven (hd.fits.host v hv)) d _ _
  have hsame : (upTo k ρ).Values forms forms :=
    List.forall₂_same.2 fun v hv => (hgiven (hforms v hv)).alike_later d
  have hrun := Correspondence.evalProgram_alike
    (Correspondence.bridges_of_uniform huniform ρ) (rfl : f = f) hsame
  exact (hrun m m' rfl hworlds).resolve_left id

/-! ## The second piece -/

/-- Forms that are read after the first piece, or were read before it. -/
theorem second_alike (huniform : bridge.Offers (HostFunction.Uniform k))
    (hd : Described k.Holds O w h) (hw : (upTo k (.later n d)).Worlds w w') (hnext : w.next = n + c)
    {data : List Datum} (hnesting : Datum.nestingOfItems data ≤ Source.maxNesting)
    (hcount : ∀ j, ((Value.ofData data).run j).2 = j + d) (g : Guard) :
    let ρ := Renaming.swap n c d
    let m : Machine σ := (Machine.mk g w).load data
    let m' : Machine σ := ⟨g.reset, w'⟩
    (upTo k ρ).Ends (Value.Alike ρ) m m'
      (evalProgram bridge f ((Machine.mk g w).program data) m)
      (evalProgram bridge f ((Value.ofData data).run n).1 m') := by
  intro ρ m m'
  have hρ : (Renaming.later n d).AgreesBelow h.next ρ := by
    rw [← hd.fits.next, hnext]
    exact Renaming.later_agreesBelow_swap n c d
  have hnext' : w'.next = n + c + d := by
    rcases hw.supply 0 with ⟨hlt, -⟩ | ⟨-, heq⟩ <;> omega
  have hworlds : (upTo k ρ).Worlds m.world m'.world := by
    refine ⟨.realike hd.store hρ hw.store, fun j => .inl ⟨.inr ?_, ?_⟩, ?_, hw.host.rest⟩
    · change n + c + d ≤ ((Value.ofData data).run w.next).2 + j
      rw [hcount, hnext]
      exact Nat.le_add_right _ _
    · change w'.next + j = ((Value.ofData data).run w.next).2 + j
      rw [hcount, hnext, hnext']
    · exact Heap.realikeItems hρ hd.fits.host hw.host.values
  have hsame : (upTo k ρ).Values ((Machine.mk g w).program data) ((Value.ofData data).run n).1 := by
    obtain ⟨i, -, hforms, hd'⟩ := hd.supply (Discipline.supplies_ofData _ data) []
    have hread : (upTo k (.onward (n + c) n)).Values ((Machine.mk g w).program data)
        ((Value.ofData data).run n).1 := by
      rw [Machine.program, hnext]
      exact (Correspondence.ofData_alike data hnesting _ _ (Renaming.supplies_onward _ _)).1
    have hagrees : (Renaming.onward (n + c) n).AgreesBelow i.1.next ρ := by
      rw [← hd'.fits.next]
      change (Renaming.onward (n + c) n).AgreesBelow ((Value.ofData data).run w.next).2 ρ
      rw [hcount, hnext]
      exact Renaming.onward_agreesBelow_swap n c d
    exact Heap.realikeItems hagrees hforms hread
  have hrun := Correspondence.evalProgram_alike
    (Correspondence.bridges_of_uniform huniform ρ) (rfl : f = f) hsame
  exact (hrun m m' rfl hworlds).resolve_left id

/-- Calls with values that a heap knows. -/
theorem calls_realike {ρ ρ' : Renaming} (hρ : ρ.AgreesBelow h.next ρ') {es : List Event}
    (hknown : ∀ target args, .callHost target args ∈ es → ∀ v ∈ args, h.known v)
    {calls : List (HostTarget × List Value)}
    (halike : List.Forall₂ (CallAlike ρ) (es.reverse.filterMap Event.hostCall?) calls) :
    List.Forall₂ (CallAlike ρ') (es.reverse.filterMap Event.hostCall?) calls := by
  have hmem : ∀ call ∈ es.reverse.filterMap Event.hostCall?, ∀ v ∈ call.2, h.known v := by
    intro call hcall
    obtain ⟨e, he, hecall⟩ := List.mem_filterMap.1 hcall
    cases e with
    | callHost target args =>
      cases hecall
      exact hknown target args (List.mem_reverse.1 he)
    | _ => cases hecall
  generalize es.reverse.filterMap Event.hostCall? = known at hmem halike ⊢
  induction halike with
  | nil => exact .nil
  | cons hcall _ ih =>
    obtain ⟨hfirst, hrest⟩ := List.forall_mem_cons.1 hmem
    exact .cons ⟨hcall.1, Heap.realikeItems hρ hfirst hcall.2⟩ (ih hrest)

/-! ## The whole -/

/-- How the first piece ends, by itself and as a part of the whole. -/
structure FirstPiece (k : Keeping σ τ) (O : Value → Prop) (n d : Nat)
    (p p' : Except EvalError Value × Machine σ) (h : Heap) : Prop where
  result : ResultAlike (.later n d) (Value.Alike (.later n d)) p.1 p'.1
  guard : p.2.guard = p'.2.guard
  worlds : (upTo k (.later n d)).Worlds p.2.world p'.2.world
  described : Described k.Holds (fun v => O v ∨ p.1 = .ok v) p.2.world h
  next : n ≤ h.next
  calls : List.Forall₂ (CallAlike (.later n d)) p.2.world.scene.calls p'.2.world.scene.calls
  told : ∀ target args, .callHost target args ∈ p.2.world.journal → ∀ v ∈ args, h.known v

theorem exists_firstPiece (data : List Datum) {m : Machine σ}
    (hcrafts : bridge.Offers (HostFunction.Crafts k.Holds))
    (huniform : bridge.Offers (HostFunction.Uniform k)) (hd : Described k.Holds O m.world h)
    (hf : f < m.world.store.nextFrame) (d : Nat) :
    let l := m.load data
    ∃ h', FirstPiece k O l.world.next d (m.execute bridge f data) (evalProgram bridge f
      (m.program data) ⟨l.guard, { l.world with next := l.world.next + d }⟩) h' := by
  intro l
  obtain ⟨h₁, hle, hforms, hd₁⟩ := hd.load data
  obtain ⟨h₂, hended⟩ := hd₁.program hcrafts hf hforms l.guard
  obtain ⟨hresult, hguard, hworlds, ⟨es, es', hes, hes', hevents⟩, -⟩ :=
    first_alike (f := f) huniform hd₁ hforms d l.guard
  obtain ⟨es'', hes'', hjust⟩ := hended.events
  have hjournal : (m.execute bridge f data).2.world.journal = es :=
    hes.trans (List.append_nil es)
  obtain rfl : es = es'' := List.append_cancel_right (hes.symm.trans hes'')
  refine ⟨h₂, hresult, hguard, hworlds, hended.described, hd₁.fits.next ▸ hended.le.next, ?_, ?_⟩
  · have hcalls := calls_alike hevents
    rw [← hjournal] at hcalls
    have hjournal' := hes'.trans (List.append_nil es')
    rwa [← hjournal'] at hcalls
  · rw [hjournal]
    exact hjust.called

namespace FirstPiece

variable {p p' : Except EvalError Value × Machine σ} (hp : FirstPiece k O n d p p' h)

include hp

theorem alike : (Outcome.ofRun p).Alike k (.later n d) (.ofRun p') :=
  ⟨hp.result, hp.worlds.store, hp.worlds.host, hp.calls, congrArg Guard.operations hp.guard⟩

/-- A value that it ends with is alike under any renaming that agrees on what was given out. -/
theorem result_realike {ρ : Renaming} (hρ : (Renaming.later n d).AgreesBelow h.next ρ) {v : Value}
    (hv : p.1 = .ok v) : ResultAlike ρ (Value.Alike ρ) p.1 p'.1 := by
  have hresult := hp.result
  have hknown := hp.described.owned v (.inr hv)
  rw [hv] at hresult ⊢
  generalize p'.1 = r at hresult ⊢
  cases hresult with
  | ok halike => exact .ok (Heap.realike hρ hknown halike)

/-- Forms that run behind it, and the same forms when they are read and counted only then. -/
theorem followedBy (huniform : bridge.Offers (HostFunction.Uniform k)) {v : Value}
    (hv : p.1 = .ok v) {data : List Datum}
    (hnesting : Datum.nestingOfItems data ≤ Source.maxNesting)
    (hcount : ∀ j, ((Value.ofData data).run j).2 = j + d) {g : Guard} {cost : Cost}
    (hg : p'.2.guard = g.reset.spend cost) (ht : g.Timely) (ha : g.reset.Affords cost)
    (hrefused : ¬ Refused (evalProgram bridge f ((Value.ofData data).run n).1 p'.2).1) :
    let rest := evalProgram bridge f ((Value.ofData data).run n).1 p'.2
    ∃ c, ((Outcome.ofRun p).followedBy (.ofRun (p.2.execute bridge f data)) data).Alike k
      (.swap n c d) (.ofRun (if data = [] then p'.1 else rest.1, rest.2)) := by
  intro rest
  obtain ⟨c, hnext⟩ : ∃ c, p.2.world.next = n + c := by
    rw [hp.described.fits.next]
    exact Nat.exists_eq_add_of_le hp.next
  have hρ : (Renaming.later n d).AgreesBelow h.next (.swap n c d) := by
    rw [← hp.described.fits.next, hnext]
    exact Renaming.later_agreesBelow_swap n c d
  -- the count begins anew for the second piece
  have hreset : p.2.guard.reset = g.reset := by rw [hp.guard, hg]; rfl
  have hready : p'.2.guard.Timely ∧ p'.2.guard.Affords .none := by
    rw [hg]
    exact ⟨ht, ha.1, Nat.le_trans (Nat.le_add_right _ _) ha.2⟩
  obtain ⟨cost', -, hguard, hguard', hresult, hscene⟩ :=
    evalProgram_recount ⟨g.reset, p'.2.world⟩ hready.1 hready.2 hg rfl hrefused
  have hends :=
    second_alike (f := f) huniform hp.described hp.worlds hnext hnesting hcount p.2.guard
  simp only [hreset] at hends
  generalize evalProgram bridge f ((Value.ofData data).run n).1 ⟨g.reset, p'.2.world⟩ = alone
    at hends hguard' hresult hscene
  obtain ⟨hresult', hguards, hworlds, ⟨es, es', hes, hes', hevents⟩, -⟩ := hends
  rw [hresult] at hresult'
  refine ⟨c, ?result, ?store, ?host, ?calls, ?operations⟩
  case result =>
    by_cases hdata : data = []
    · simp only [Outcome.followedBy, Outcome.ofRun, if_pos hdata]
      exact hp.result_realike hρ hv
    · simp only [Outcome.followedBy, Outcome.ofRun, if_neg hdata]
      exact hresult'
  case store =>
    have hstore : rest.2.world.store = alone.2.world.store := (congrArg Scene.store hscene).symm
    simp only [Outcome.ofRun, Outcome.followedBy, hstore]
    exact hworlds.store
  case host =>
    have hhost : rest.2.world.host = alone.2.world.host := (congrArg Scene.host hscene).symm
    simp only [Outcome.ofRun, Outcome.followedBy, hhost]
    exact hworlds.host
  case calls =>
    have hcalls := calls_alike hevents
    have hfirst := calls_realike hρ hp.told hp.calls
    have hlast : rest.2.world.scene.calls = p'.2.world.scene.calls ++
        es'.reverse.filterMap Event.hostCall? := by
      rw [← congrArg Scene.calls hscene]
      simp only [World.scene, hes', List.reverse_append, List.filterMap_append]
    have hsecond : (p.2.execute bridge f data).2.world.scene.calls =
        es.reverse.filterMap Event.hostCall? :=
      congrArg (fun journal => journal.reverse.filterMap Event.hostCall?)
        (hes.trans (List.append_nil es))
    simp only [Outcome.followedBy, Outcome.ofRun, hlast, hsecond]
    exact List.rel_append hfirst hcalls
  case operations =>
    have hfirst := congrArg Guard.operations hp.guard
    have hsecond := congrArg Guard.operations hguards
    have hwhole := congrArg Guard.operations hguard
    rw [hg] at hfirst hwhole
    rw [hguard'] at hsecond
    simp only [Guard.spend, Guard.reset, Nat.zero_add] at hfirst hsecond hwhole
    change p.2.guard.operations + (p.2.execute bridge f data).2.guard.operations =
      rest.2.guard.operations
    rw [hfirst, hwhole]
    exact congrArg _ hsecond

end FirstPiece

theorem Value.ofData_eq_nil_iff (data : List Datum) (n : Nat) :
    ((ofData data).run n).1 = [] ↔ data = [] := by
  rw [← List.length_eq_zero_iff, ← List.length_eq_zero_iff, length_ofData]

/-- Data that run behind others, and the same data when they are read only then. -/
theorem execute_append {data data' : List Datum} {m : Machine σ}
    (hcrafts : bridge.Offers (HostFunction.Crafts k.Holds))
    (huniform : bridge.Offers (HostFunction.Uniform k)) (hd : Described k.Holds O m.world h)
    (hf : f < m.world.store.nextFrame) (ht : m.guard.Timely)
    (hnesting : Datum.nestingOfItems data' ≤ Source.maxNesting)
    (hrefused : ¬ Refused (m.execute bridge f (data ++ data')).1) :
    let first := m.execute bridge f data
    let second := first.2.execute bridge f data'
    let whole := Outcome.ofRun (m.execute bridge f (data ++ data'))
    ∃ ρ : Renaming, (∀ a < m.world.next, ρ.addr a a) ∧ (∀ f f', ρ.frame f f' ↔ f = f') ∧
      (∀ e, first.1 = .error e → (Outcome.ofRun first).Alike k ρ whole) ∧
      ∀ v, first.1 = .ok v →
        ((Outcome.ofRun first).followedBy (.ofRun second) data').Alike k ρ whole := by
  intro first second whole
  obtain ⟨d, hcount⟩ := Value.exists_next_ofData hnesting
  obtain ⟨h', hp⟩ := exists_firstPiece data hcrafts huniform hd hf d
  let n := (m.load data).world.next
  let start : Machine σ := ⟨m.guard.reset, { (m.load data).world with next := n + d }⟩
  have hwhole : m.execute bridge f (data ++ data') =
      evalProgram bridge f (m.program data ++ ((Value.ofData data').run n).1) start := by
    rw [Machine.execute, Machine.program_append, Machine.load_append, hcount]
    rfl
  have hold (a : Nat) (ha : a < m.world.next) : a < n :=
    Nat.lt_of_lt_of_le ha (Value.le_next_ofData data m.world.next)
  rcases hrun : evalProgram bridge f (m.program data) start with ⟨r, m'⟩
  change FirstPiece k O n d first (evalProgram bridge f (m.program data) start) h' at hp
  rw [hrun] at hp
  have hresult := hp.result
  cases hfirst : first.1 with
  | error e =>
    rw [hfirst] at hresult
    cases hresult with
    | error he =>
      refine ⟨.later n d, fun a ha => .inl ⟨hold a ha, rfl⟩, fun _ _ => .rfl, fun _ _ => ?_,
        fun v hv => by cases hv⟩
      rw [evalProgram_append_error hrun] at hwhole
      change (Outcome.ofRun first).Alike k _ (.ofRun (m.execute bridge f (data ++ data')))
      rw [hwhole]
      exact hp.alike
  | ok v =>
    rw [hfirst] at hresult
    cases hresult with
    | @ok _ v' hv =>
      rw [evalProgram_append_ok hrun] at hwhole
      simp only [Value.ofData_eq_nil_iff] at hwhole
      have hrest : ¬ Refused (evalProgram bridge f ((Value.ofData data').run n).1 m').1 := by
        rw [hwhole] at hrefused
        by_cases hdata : data' = []
        · rw [hdata, Value.ofData]
          exact not_refused_ok _
        · rwa [if_neg hdata] at hrefused
      have hlet : ¬ Refused (evalProgram bridge f (m.program data) start).1 := by
        rw [hrun]
        exact not_refused_ok v'
      obtain ⟨cost, hafford, hguard, -⟩ := evalProgram_recount start (c := .none)
        (show start.guard.Timely from ht) ⟨Nat.zero_le _, Nat.zero_le _⟩ rfl rfl hlet
      rw [hrun] at hguard
      obtain ⟨c, halike⟩ := hp.followedBy huniform hfirst hnesting hcount hguard ht hafford hrest
      refine ⟨.swap n c d, fun a ha => .inl ⟨.inl (hold a ha), rfl⟩, fun _ _ => .rfl,
        fun e he => (by cases he), fun _ _ => ?_⟩
      change (Outcome.followedBy _ _ _).Alike k _ (.ofRun (m.execute bridge f (data ++ data')))
      rw [hwhole]
      exact halike

end pieces

/-- **A program in pieces.** Take a text that can be read, and another one behind it on a line of
its own. What is read is what the two are read as, one after the other; if the second one cannot be
read, it is blamed for the same, in the same column, as many lines further down as there are lines
above it. Now let an interpreter evaluate them, in any state that a host can bring about whose
callables make no difference between values that are alike, where time does not run out and the
whole is not refused. Evaluating the first text, and the second one if that succeeds, ends as the
evaluation of the whole does: in the same error or with the same last value, with the same scopes,
host and calls, up to a renaming that keeps all frames and every identity given out before. The
whole takes as many operations as the evaluations together. -/
theorem pieces_as_whole {a b : String} {data : List Datum}
    (ha : Source.Program.ofText a = .ok data) :
    (∀ data', Source.Program.ofText b = .ok data' →
      Source.Program.ofText (a ++ "\n" ++ b) = .ok (data ++ data')) ∧
    (∀ e, Source.Program.ofText b = .error e →
      ∃ e', Source.Program.ofText (a ++ "\n" ++ b) = .error e' ∧ e'.fault = e.fault ∧
        e'.position.column = e.position.column ∧
        e'.position.line = e.position.line + (1 + a.toList.count '\n')) ∧
    ∀ {σ τ : Type} (k : Keeping σ τ) (O : Value → Prop) (i : Interpreter σ),
      Reached k.Holds O i.machine.world → i.global < i.machine.world.store.nextFrame →
      i.bridge.Offers (HostFunction.Crafts k.Holds) → i.bridge.Offers (HostFunction.Uniform k) →
      (∀ visit, i.machine.guard.clock visit ≤ i.limits.timeout) →
      ∀ data', Source.Program.ofText b = .ok data' → ¬ Refused (i.eval (a ++ "\n" ++ b)).1 →
        let first := i.outcome a
        let second := (i.eval a).2.outcome b
        let whole := i.outcome (a ++ "\n" ++ b)
        ∃ ρ : Renaming, (∀ a < i.machine.world.next, ρ.addr a a) ∧
          (∀ f f', ρ.frame f f' ↔ f = f') ∧
          (∀ e, first.result = .error e → first.Alike k ρ whole) ∧
          ∀ v, first.result = .ok v → (first.followedBy second data').Alike k ρ whole := by
  have hjoined {b : String} {data' : List Datum} (hb : Source.Program.ofText b = .ok data') :
      Source.Program.ofText (a ++ "\n" ++ b) = .ok (data ++ data') := by
    rw [Source.ofText_joined ha, hb]
    rfl
  refine ⟨fun data' hb => hjoined hb, fun e hb => ?_, ?_⟩
  · rw [Source.ofText_joined ha, hb]
    exact ⟨_, rfl, rfl, rfl, congrArg (e.position.line + ·) (Nat.add_comm _ _)⟩
  · intro σ τ k O i hreached hglobal hcrafts huniform hclock data' hb hrefused
    obtain ⟨h, hd⟩ := hreached.described
    have hnesting := Datum.nestingOfItems_le (Source.nesting_le_of_ofText hb)
    have hfirst : evalText i.bridge a i.global i.machine =
        i.machine.execute i.bridge i.global data := evalText_of_ok ha
    have hsecond (m : Machine σ) : evalText i.bridge b i.global m =
        m.execute i.bridge i.global data' := evalText_of_ok hb
    have hwhole : evalText i.bridge (a ++ "\n" ++ b) i.global i.machine =
        i.machine.execute i.bridge i.global (data ++ data') := evalText_of_ok (hjoined hb)
    change ¬ Refused (evalText i.bridge (a ++ "\n" ++ b) i.global i.machine).1 at hrefused
    rw [hwhole] at hrefused
    have halike := execute_append hcrafts huniform hd hglobal hclock hnesting hrefused
    rw [← hfirst, ← hwhole] at halike
    simp only [← hsecond] at halike
    exact halike

/-- The host keeps every value that it is told and replies with a list of them; the second piece
tells it what the first one bound. -/
theorem pieces_as_whole_told :
    let tell : HostFunction (List Value) := fun args => do
      modify (args ++ ·)
      return .value (← Value.ofItems args)
    let k : Keeping (List Value) Unit := ⟨id, fun _ => ()⟩
    let i := (Interpreter.new .standard (fun _ => 0) []).registerFunction "tell" tell
    let a := "(def x (list 1 (quote (2)))) ; no more"
    let b := "(def y (quote (3)))\n(call-js \"tell\" x y)"
    let whole := i.outcome (a ++ "\n" ++ b)
    ∃ data data' ρ, Source.Program.ofText (a ++ "\n" ++ b) = .ok (data ++ data') ∧
      ((i.outcome a).followedBy ((i.eval a).2.outcome b) data').Alike k ρ whole ∧
      resultText whole.result = "((1 (2)) (3))" ∧ whole.calls.length = 1 ∧
      whole.host.length = 2 ∧ whole.operations = 12 := by
  intro tell k i a b whole
  have hcrafts : tell.Crafts k.Holds := by
    intro h args host hargs hheld
    refine ⟨_, .more .none (.list hargs), rfl, ?_, fun v hv => .inl ?_⟩
    · rintro v ⟨⟩
      exact .inr rfl
    · exact (List.mem_append.1 hv).elim (hargs v) (hheld v)
  have huniform : tell.Uniform k := by
    intro ρ args args' host host' n n' hargs hhost hn
    refine ⟨.value ?_, ⟨List.rel_append hargs hhost.values, rfl⟩, hn.succ⟩
    have hdepth := Value.depthOver_congr (hargs.imp fun _ _ => Value.Alike.depth_eq)
    change Value.Alike ρ (.list n (Value.depthOver args) args)
      (.list n' (Value.depthOver args') args')
    rw [hdepth]
    exact .list _ hn.next hargs
  have hreached : Reached k.Holds (fun _ => False) i.machine.world :=
    (Reached.start fun _ hv => (List.not_mem_nil hv).elim).globals
  have exists_ok {ε α : Type} (r : Except ε α) (hr : r.toBool = true) : ∃ v, r = .ok v := by
    cases r with
    | ok v => exact ⟨v, rfl⟩
    | error e => cases hr
  obtain ⟨data, ha⟩ := exists_ok (Source.Program.ofText a) (by decide +kernel)
  obtain ⟨data', hb⟩ := exists_ok (Source.Program.ofText b) (by decide +kernel)
  obtain ⟨v, hv⟩ := exists_ok (i.outcome a).result (by decide +kernel)
  have hrefused : ¬ Refused (i.eval (a ++ "\n" ++ b)).1 := by
    obtain ⟨v, hv⟩ := exists_ok (i.eval (a ++ "\n" ++ b)).1 (by decide +kernel)
    rw [hv]
    exact not_refused_ok v
  have hpieces := pieces_as_whole (b := b) ha
  obtain ⟨ρ, -, -, -, halike⟩ := hpieces.2.2 k (fun _ => False) i hreached (by decide)
    (Bridge.Offers.empty.registerFunction "tell" hcrafts)
    (Bridge.Offers.empty.registerFunction "tell" huniform) (fun _ => Nat.zero_le _) data' hb
    hrefused
  exact ⟨data, data', ρ, hpieces.1 data' hb, halike v hv, by decide +kernel⟩

end GuardedLisp
