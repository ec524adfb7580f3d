import GuardedLisp.Proofs.Parts
import GuardedLisp.Proofs.Printing.Rescan
import GuardedLisp.Proofs.Unrefused

/-!
# Messages on one line

Numbers and quoted strings are written on one line, and so is every other value
whose names are (`Value.OneLine.text`). A message quotes values in this form, and
a few texts as they are: names of variables and parameters, names that the host
registered or allowed, what a host callable says of its failure, and the strings
with which a program asks for a callable that there is not. Only the last two
may bring a line feed into a message (`EvalError.Tidy.oneLine_message_iff`).
-/

namespace GuardedLisp

open Decimal (Layout)
open Text (escape codePointEscape quoted)

/-- No line feed is in the text. -/
def OneLine (s : String) : Prop := '\n' ∉ s.toList

instance (s : String) : Decidable (OneLine s) := inferInstanceAs (Decidable ('\n' ∉ s.toList))

theorem oneLine_append_iff {s t : String} : OneLine (s ++ t) ↔ OneLine s ∧ OneLine t := by
  rw [OneLine, String.toList_append, List.mem_append, not_or]
  rfl

theorem OneLine.append {s t : String} (hs : OneLine s) (ht : OneLine t) : OneLine (s ++ t) :=
  oneLine_append_iff.2 ⟨hs, ht⟩

/-- The text in the middle decides. -/
theorem oneLine_enclosed {front text back : String} (hfront : OneLine front)
    (hback : OneLine back) : OneLine (front ++ text ++ back) ↔ OneLine text :=
  ⟨fun h => (oneLine_append_iff.1 (oneLine_append_iff.1 h).1).2,
    fun h => (hfront.append h).append hback⟩

theorem oneLine_ofList {cs : List Char} (h : '\n' ∉ cs) : OneLine (String.ofList cs) := by
  rwa [OneLine, String.toList_ofList]

theorem oneLine_intercalate {sep : String} (hsep : OneLine sep) {texts : List String}
    (h : ∀ s ∈ texts, OneLine s) : OneLine (sep.intercalate texts) := by
  induction texts with
  | nil => exact List.not_mem_nil
  | cons s texts ih =>
    rw [List.forall_mem_cons] at h
    cases texts with
    | nil => rw [String.intercalate_singleton]; exact h.1
    | cons t texts =>
      rw [String.intercalate_cons_cons]
      exact (h.1.append hsep).append (ih h.2)

/-! ## Numbers -/

theorem ne_lineFeed_of_isDigit {c : Char} (h : Decimal.isDigit c = true) : c ≠ '\n' := by
  rintro rfl
  cases h

theorem lineFeed_notMem_toDigits (n : Nat) : '\n' ∉ Nat.toDigits 10 n :=
  fun h => ne_lineFeed_of_isDigit (Decimal.isDigit_of_mem_toDigits h) rfl

theorem oneLine_toString (n : Nat) : OneLine (toString n) :=
  oneLine_ofList (lineFeed_notMem_toDigits n)

theorem oneLine_text_number (x : Float) : OneLine (Layout.plain.text x) := by
  cases hnan : x.isNaN with
  | true =>
    rw [Layout.text, hnan, if_pos rfl]
    decide
  | false =>
    cases hinf : x.isInf with
    | true =>
      rcases Layout.text_of_isInf hinf with h | h <;> rw [h] <;> decide
    | false =>
      obtain ⟨n, hn, htext, -⟩ := Decimal.exists_spelling hnan hinf
      rw [htext]
      refine oneLine_ofList fun hfeed => ?_
      have hdelimiter := Source.IsNumeral.isDelimiter_eq ⟨n, hn, rfl⟩ hfeed
      cases hdelimiter

theorem oneLine_durationText (ns : Nat) : OneLine (Text.durationText ns) := by
  have hunit : OneLine (Text.TimeUnit.largestIn ns).name := by
    unfold Text.TimeUnit.largestIn
    split_ifs <;> decide
  have hdecimals (fraction places : Nat) : '\n' ∉ Text.decimals fraction places := by
    intro h
    have hpadded := (List.dropWhile_suffix _).mem (List.mem_reverse.1 h)
    simp [lineFeed_notMem_toDigits] at hpadded
  refine OneLine.append (oneLine_ofList fun h => ?_) hunit
  rcases List.mem_append.1 h with h | h
  · exact lineFeed_notMem_toDigits _ h
  · split at h
    · cases h
    · rcases List.mem_cons.1 h with h | h
      · cases h
      · exact hdecimals _ _ h

/-! ## Quoted strings -/

theorem lineFeed_notMem_escape (c : Char) : '\n' ∉ escape c := by
  unfold escape
  split_ifs with hquote hbackslash hfeed hreturn htab hnul hcode
  · decide
  · decide
  · decide
  · decide
  · decide
  · decide
  · simp only [codePointEscape, List.mem_append]
    rintro ((h | h) | h)
    · revert h; decide
    · obtain ⟨k, hk⟩ := Source.exists_digitChar_of_mem_toDigits (by decide) h
      exact Nat.digitChar_ne _ (by decide) hk.symm
    · revert h; decide
  · simpa using Ne.symm hfeed

theorem oneLine_quoted (s : String) : OneLine (quoted s) :=
  oneLine_ofList (by simp [lineFeed_notMem_escape])

/-! ## Values -/

namespace Value

end Value

/-- A custom procedure has any name. -/
def BridgeCall.names : BridgeCall → List String
  | custom _ name => [name]
  | _ => []

theorem BridgeCall.names_eq_nil {call : BridgeCall} (h : call ∈ BridgeCall.all) :
    call.names = [] := by
  rcases List.mem_pair.1 h with rfl | rfl <;> rfl

namespace Value

/-- The names that a value shows as they are. -/
def names : Value → List String
  | .symbol name => [name]
  | .closure _ params _ _ => params
  | .bridge _ call => call.names
  | _ => []

/-- Every name in the value is one line; those in bodies of closures count, since they are run. -/
def OneLine (v : Value) : Prop := ∀ w, v.Part True w → ∀ name ∈ w.names, GuardedLisp.OneLine name

namespace OneLine

variable {v code : Value} {addr depth frame : Nat} {items : List Value} {names : List String}

theorem part {w : Value} (h : v.OneLine) (hw : v.Part True w) : w.OneLine :=
  fun u hu => h u (hw.trans hu)

theorem item (h : (Value.list addr depth items).OneLine) : ∀ v ∈ items, v.OneLine :=
  fun v hv => h.part (.item hv (.refl v))

theorem body (h : (Value.closure addr names code frame).OneLine) : code.OneLine :=
  h.part (.body trivial (.refl code))

theorem params (h : (Value.closure addr names code frame).OneLine) :
    ∀ name ∈ names, GuardedLisp.OneLine name := h _ (.refl _)

theorem symbol {name : String} (h : (Value.symbol name).OneLine) : GuardedLisp.OneLine name :=
  h _ (.refl _) name List.mem_cons_self

/-- A value without parts that have names. -/
theorem ofNameless (h : ∀ w, v.Part True w → w.names = []) : v.OneLine := by
  intro w hw name hname
  rw [h w hw] at hname
  cases hname

theorem ofAtom (h : v.IsAtom) (hsymbol : ∀ name, v ≠ .symbol name) : v.OneLine := by
  refine .ofNameless fun w hw => ?_
  cases hw with
  | refl =>
    cases v with
    | symbol name => exact absurd rfl (hsymbol name)
    | nil | bool | number | string => rfl
    | _ => cases h
  | item | body => cases h

theorem builtin (addr : Nat) (p : Primitive) : (Value.builtin addr p).OneLine := by
  refine .ofNameless fun w hw => ?_
  cases hw
  rfl

theorem bridge (addr : Nat) {call : BridgeCall} (h : ∀ name ∈ call.names, GuardedLisp.OneLine name) :
    (Value.bridge addr call).OneLine := by
  rintro w (_ | _) name hname
  exact h name hname

theorem call {call : BridgeCall} (h : (Value.bridge addr call).OneLine) :
    ∀ name ∈ call.names, GuardedLisp.OneLine name := h _ (.refl _)

theorem ofSymbol {name : String} (h : GuardedLisp.OneLine name) : (Value.symbol name).OneLine := by
  rintro w (_ | _) name' hname'
  rwa [List.mem_singleton.1 hname']

theorem ofList (addr depth : Nat) (h : ∀ v ∈ items, v.OneLine) :
    (Value.list addr depth items).OneLine := by
  rintro w (_ | ⟨hv, hw⟩) name hname
  · cases hname
  · exact h _ hv w hw name hname

theorem ofClosure (addr frame : Nat) (hnames : ∀ name ∈ names, GuardedLisp.OneLine name)
    (hbody : code.OneLine) : (Value.closure addr names code frame).OneLine := by
  rintro w (_ | _ | ⟨-, hw⟩) name hname
  · exact hnames name hname
  · exact hbody w hw name hname

end OneLine

theorem oneLine_closureText {names : List String} (h : ∀ name ∈ names, GuardedLisp.OneLine name) :
    GuardedLisp.OneLine (closureText names) :=
  .append (.append (by decide) (oneLine_intercalate (by decide) h)) (by decide)

theorem oneLine_name_primitive (p : Primitive) : GuardedLisp.OneLine p.name := by
  cases p <;> decide

theorem oneLine_name_call {call : BridgeCall} (h : ∀ name ∈ call.names, GuardedLisp.OneLine name) :
    GuardedLisp.OneLine call.name := by
  cases call with
  | function | member => decide
  | custom code name => exact h name List.mem_cons_self

theorem oneLine_builtinText {name : String} (h : GuardedLisp.OneLine name) :
    GuardedLisp.OneLine (builtinText name) := .append (.append (by decide) h) (by decide)

mutual

/-- A value whose names are one line is written on one line. -/
theorem OneLine.text {v : Value} (h : v.OneLine) : GuardedLisp.OneLine v.text := by
  match v with
  | .nil => decide
  | .bool b => cases b <;> decide
  | .number x => exact oneLine_text_number x
  | .string s => exact oneLine_quoted s
  | .symbol name => exact h.symbol
  | .list addr depth items =>
    exact .append (.append (by decide) (oneLine_itemsText h.item)) (by decide)
  | .builtin addr p => exact oneLine_builtinText (oneLine_name_primitive p)
  | .closure addr names body frame => exact oneLine_closureText h.params
  | .bridge addr call => exact oneLine_builtinText (oneLine_name_call h.call)

theorem oneLine_itemsText {vs : List Value} (h : ∀ v ∈ vs, v.OneLine) :
    GuardedLisp.OneLine (itemsText vs) := by
  match vs with
  | [] => decide
  | [v] => exact OneLine.text (h v List.mem_cons_self)
  | v :: w :: vs =>
    rw [List.forall_mem_cons] at h
    exact .append (.append (OneLine.text h.1) (by decide)) (oneLine_itemsText h.2)

end

theorem OneLine.typedText {v : Value} (h : v.OneLine) : GuardedLisp.OneLine v.typedText := by
  have htype : GuardedLisp.OneLine v.typeName := by
    cases v <;> (rw [typeName]; decide)
  exact .append (.append htype (by decide)) h.text

end Value

/-! ## Messages -/

/-- The value that has not the right shape. -/
def SyntaxFault.got? : SyntaxFault → Option Value
  | shape _ => none
  | name _ got | parameters got | parameter got | bindings got | binding got => some got

theorem oneLine_syntaxMessage {fault : SyntaxFault} (h : ∀ got ∈ fault.got?, got.OneLine) :
    OneLine fault.message := by
  have hname (form : Keyword) : OneLine form.name := by cases form <;> decide
  have hexpectation (form : Keyword) : OneLine form.expectation := by
    cases form <;> decide +kernel
  cases fault with
  | shape form => exact .append (.append (hname form) (by decide)) (hexpectation form)
  | name form got => exact .append (.append (hname form) (by decide +kernel)) (h got rfl).text
  | parameters got | parameter got | bindings got | binding got =>
    exact .append (by decide +kernel) (h got rfl).text

theorem oneLine_text_hostName (what : HostName) : OneLine what.text := by cases what <;> decide

/-- The names that the message shows as they are. -/
def ArityFault.names : ArityFault → List String
  | builtin .. | noArguments _ => []
  | closure params _ => params
  | hostName call _ => call.names

theorem oneLine_arityMessage {fault : ArityFault} (h : ∀ name ∈ fault.names, OneLine name) :
    OneLine fault.message := by
  have hcount {text : String} (htext : OneLine text) (expected got : Nat) :
      OneLine s!"{text} expects {expected} argument(s), got {got}" :=
    .append (.append (.append (.append htext (by decide)) (oneLine_toString expected))
      (by decide +kernel)) (oneLine_toString got)
  cases fault with
  | builtin callee expected got => exact hcount (Value.oneLine_name_primitive callee) expected got
  | noArguments callee =>
    exact .append (Value.oneLine_name_primitive callee) (by decide +kernel)
  | closure params got => exact hcount (Value.oneLine_closureText h) _ got
  | hostName call missing =>
    exact .append (.append (.append (Value.oneLine_name_call h) (by decide))
      (oneLine_text_hostName missing)) (by decide)

/-- The names that the message shows as they are, those in the value apart. -/
def TypeFault.names : TypeFault → List String
  | hostName call .. => call.names
  | _ => []

theorem oneLine_typeMessage {fault : TypeFault} (hnames : ∀ name ∈ fault.names, OneLine name)
    (h : fault.got.OneLine) : OneLine fault.message := by
  have hgot : OneLine fault.got.typedText := h.typedText
  cases fault with
  | number callee got | list callee got =>
    exact .append (.append (Value.oneLine_name_primitive callee) (by decide +kernel)) hgot
  | callable got => exact .append hgot (by decide +kernel)
  | hostName call expected got =>
    exact .append (.append (.append (.append (Value.oneLine_name_call hnames) (by decide))
      (oneLine_text_hostName expected)) (by decide)) hgot

theorem oneLine_parseMessage (e : Source.ParseError) : OneLine e.message := by
  have hfault : OneLine e.fault.message := by cases e.fault <;> decide +kernel
  exact .append (.append (.append (.append (.append (by decide +kernel) (oneLine_toString _))
    (by decide)) (oneLine_toString _)) (by decide)) hfault

theorem oneLine_limitMessage {what : String} (h : OneLine what) : OneLine (limitMessage what) :=
  .append (by decide +kernel) h

theorem oneLine_refusalMessage (why : Refusal) : OneLine why.message := by
  cases why with
  | operations | depth => exact oneLine_limitMessage (by decide +kernel)
  | time limit => exact .append (by decide +kernel) (oneLine_durationText limit)

namespace EvalError

/-- Names in the message are one line; so is what the host registered or allowed. -/
def Tidy : EvalError → Prop
  | undefinedVariable name => OneLine name
  | malformed fault => ∀ got ∈ fault.got?, got.OneLine
  | arity fault => ∀ name ∈ fault.names, OneLine name
  | type fault => (∀ name ∈ fault.names, OneLine name) ∧ fault.got.OneLine
  | bridge (.notRegistered name) | bridge (.unknownMember name _) |
    bridge (.hostFailure name _) => OneLine name
  | _ => True

/-- What the message quotes as it is, of a program's strings or of a host's complaints. -/
def raw? : EvalError → Option String
  | bridge (.notAllowed text) | bridge (.unknownModule text) | bridge (.unknownMember _ text) |
    bridge (.hostFailure _ text) | bridge (.raised ⟨_, text⟩) => some text
  | _ => none

theorem oneLine_message_of_raw?_eq_none {e : EvalError} (h : e.Tidy) (hraw : e.raw? = none) :
    OneLine e.message := by
  cases e with
  | parse e => exact oneLine_parseMessage e
  | undefinedVariable name => exact .append (by decide +kernel) h
  | malformed fault => exact .append (by decide +kernel) (oneLine_syntaxMessage h)
  | arity fault => exact .append (by decide +kernel) (oneLine_arityMessage h)
  | type fault => exact .append (by decide +kernel) (oneLine_typeMessage h.1 h.2)
  | listTooDeep =>
    exact oneLine_limitMessage
      (.append (.append (by decide +kernel) (oneLine_toString _)) (by decide))
  | refused why => exact oneLine_refusalMessage why
  | bridge e =>
    cases e with
    | notRegistered name => exact .append (.append (by decide +kernel) h) (by decide)
    | notAllowed | unknownModule | unknownMember | hostFailure | raised => cases hraw

/-- A tidy message is one line if what it quotes as it is is. -/
theorem Tidy.oneLine_message_iff {e : EvalError} (h : e.Tidy) :
    OneLine e.message ↔ ∀ text ∈ e.raw?, OneLine text := by
  cases hraw : e.raw? with
  | none => exact iff_of_true (oneLine_message_of_raw?_eq_none h hraw) nofun
  | some text =>
    refine Iff.trans ?_ ⟨fun htext _ h => Option.some.inj h ▸ htext, fun htext => htext text rfl⟩
    cases e with
    | bridge e =>
      cases e with
      | notRegistered => cases hraw
      | notAllowed name | unknownModule name =>
        cases hraw
        exact oneLine_enclosed (by decide +kernel) (by decide +kernel)
      | unknownMember owner name =>
        cases hraw
        exact oneLine_enclosed (.append (.append (by decide +kernel) h) (by decide +kernel))
          (by decide)
      | hostFailure callee message =>
        cases hraw
        have hfront : OneLine ("Bridge error: '" ++ callee ++ "' failed: ") :=
          .append (.append (by decide +kernel) h) (by decide)
        exact ⟨fun h => (oneLine_append_iff.1 h).2, hfront.append⟩
      | raised report =>
        cases hraw
        exact Iff.rfl
    | _ => cases hraw

end EvalError

end GuardedLisp
