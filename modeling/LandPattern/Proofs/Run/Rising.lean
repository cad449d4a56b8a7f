import LandPattern.Proofs.Run.Trails
import LandPattern.Run.Program

/-!
# Faults rise through homes

A fault of running code that passes out of an expression or a statement is placed where that stands,
or it has left a trail of functions that begins at a call there. What calls do is assumed of the
caller and proved of functions afterwards, by induction on how many calls may still be opened.
-/

namespace LandPattern

open Script (Argument AssignOp BinaryOp Block Branch Expr Extent Function Home Item Name Program Row
  Span Stmt argumentCalls argumentExtents branchCalls branchExtents itemCalls itemExtents
  otherwiseCalls otherwiseExtents statementCalls statementExtents)

/-- The places of a place in a value lie here. -/
def Place.Within (home : Home) (place : Place) : Prop :=
  place.rootSpan.Inside home.span ∧ ∀ step ∈ place.steps, step.span.Inside home.span

theorem Place.Within.step {home : Home} {place : Place} {step : Step} (h : place.Within home)
    (hs : step.span.Inside home.span) :
    Place.Within home { place with steps := place.steps ++ [step] } := by
  refine ⟨h.1, fun other hother => ?_⟩
  rcases List.mem_append.1 hother with hold | hnew
  · exact h.2 other hold
  · rw [List.mem_singleton.1 hnew]
    exact hs

namespace Evaluation

variable {context : Context} {named : String → Home → Prop} {depth : Nat} {home : Home} {α : Type}

theorem places_truth (what : String) {span : Span} (hs : span.Inside home.span) (v : Value) :
    Places context named depth home (truth what span v) fun _ => True := by
  cases v with
  | bool b => exact .pure trivial
  | _ => exact places_refuseAt hs _

theorem places_position {span : Span} (hs : span.Inside home.span) (v : Value) :
    Places context named depth home (position span v) fun _ => True := by
  cases v with
  | int n => exact .pure trivial
  | _ => exact places_refuseAt hs _

theorem places_iterated {span : Span} (hs : span.Inside home.span) (v : Value) :
    Places context named depth home (iterated span v) fun _ => True := by
  unfold iterated
  split
  · exact .pure trivial
  · exact places_refuseAt hs _

theorem rises_lookup (name : String) :
    Rises context named depth home (lookup name) fun _ => True :=
  rises_consult fun _ _ _ _ => trivial

theorem rises_collected (length : Nat) {items : Evaluation (List Value)}
    (h : Rises context named depth home items fun _ => True) :
    Rises context named depth home (collected length items) fun _ => True := by
  refine .bind (rises_ofMetered (.checkLength length)) fun _ _ => .bind h fun values _ => ?_
  exact rises_ofMetered (.bind (.sequence _) fun s => .bind (.checkSequence s) fun _ => .pure s)

theorem rises_updatePlace {place : Place} (hp : place.Within home)
    {write : Value → Metered (Value × α)}
    (hw : ∀ old, (write old).Made (Fault.Fresh home)) :
    Rises context named depth home (updatePlace place write) fun _ => True := by
  have hsteps : ∀ step ∈ place.steps, ∀ why : Refusal, why.Common →
      ((Fault.refusal why).locate step.span).Fresh home := fun step hstep why _ =>
    (Fault.fresh_of home _).locate (hp.2 step hstep)
  refine .bind (rises_consult fun _ _ _ _ => trivial) fun found _ => ?_
  cases found with
  | none =>
    exact .bind (rises_consult fun _ _ _ _ => trivial) fun why _ =>
      rises_of_places (places_refuseAt hp.1 why)
  | some root =>
    exact .bind (rises_ofMetered (.updateWithin hsteps hw)) fun _ _ =>
      .bind (rises_of_places (places_modifyLocals _)) fun _ _ => .pure trivial

theorem rises_store {place : Place} (hp : place.Within home) (op : AssignOp) (v : Value) :
    Rises context named depth home (store place op v) fun _ => True :=
  rises_updatePlace hp fun old => .bind (.assigned op old v) fun _ => .pure _

theorem places_rounds (each : Rounds) {body : Value → Evaluation Flow}
    (h : ∀ item, Places context named depth home (body item) fun _ => True) (items : List Value) :
    Places context named depth home (rounds each body items) fun _ => True := by
  have hcount : Places context named depth home (ofMetered (Metered.countRounds each))
      fun _ => True :=
    fun _ => ⟨fun _ _ => trivial, fun _ heq => (by cases heq)⟩
  induction items with
  | nil => exact .pure trivial
  | cons item rest ih =>
    refine .bind hcount fun _ _ => .bind (h item) fun flow _ => ?_
    cases flow with
    | giveBack v => exact .pure trivial
    | next => exact ih

/-- A call out of a home faults in the home, or behind a trail that leads there. -/
def CallsRise (context : Context) (named : String → Home → Prop) (depth : Nat) (caller : Caller) :
    Prop :=
  ∀ ⦃home : Home⦄ (name : String) (args : Arguments) (span : Span), span ∈ home.calls →
    span.Inside home.span → Rises context named depth home (caller name args span) fun _ => True

section Trees

variable {caller : Caller}

theorem rises_apply (hc : CallsRise context named depth caller) (callee : Value) {calleeSpan : Span}
    (hs : calleeSpan.Inside home.span) (args : Arguments) {callSpan : Span}
    (hcall : callSpan ∈ home.calls) (hin : callSpan.Inside home.span) :
    Rises context named depth home (apply caller callee calleeSpan args callSpan)
      fun _ => True := by
  cases callee with
  | builtin word => exact rises_ofMetered (.call word args)
  | function name => exact hc name args callSpan hcall hin
  | _ => exact rises_of_places (places_refuseAt hs _)

theorem inside_of_holds {e : Expr} (h : home.Holds [e.extent] e.calls) :
    e.span.Inside home.span := by
  have hinside := h.inside
  rwa [Script.Expr.span_extent] at hinside

mutual

/-- Faults of an expression are placed where the expression stands, or were left behind there. -/
theorem places_eval (hc : CallsRise context named depth caller) (e : Expr)
    (h : home.Holds [e.extent] e.calls) :
    Places context named depth home (eval caller e) fun _ => True := by
  have hspan := inside_of_holds h
  unfold eval
  refine ends_counted (places_locating (ends_noting
    (.bind (rises_ofMetered (.charge 1)) fun _ _ => ?_)) hspan)
  match e with
  | .int _ _ | .float _ _ | .text _ _ | .bool _ _ | .none _ => exact .pure trivial
  | .name _ name => exact rises_lookup name
  | .list _ items | .tuple _ items =>
    have hitems : home.Holds (itemExtents items) (itemCalls items) := h.parts
    exact .bind (rises_collected _ (rises_of_places (places_evalAll hc items hitems))) fun _ _ =>
      .pure trivial
  | .unary _ .neg operand =>
    have hoperand : home.Holds [operand.extent] operand.calls := h.parts
    exact .bind (rises_of_places (places_eval hc operand hoperand)) fun v _ =>
      rises_ofExcept v.negate
  | .unary _ .not operand =>
    have hoperand : home.Holds [operand.extent] operand.calls := h.parts
    have hinside := inside_of_holds hoperand
    exact .bind (rises_of_places (places_eval hc operand hoperand)) fun v _ =>
      .bind (rises_of_places (places_truth _ hinside v)) fun _ _ => .pure trivial
  | .binary _ op left right =>
    obtain ⟨hleft, hright⟩ : home.Holds [left.extent] left.calls ∧
        home.Holds [right.extent] right.calls := h.parts.both
    have hl := rises_of_places (places_eval hc left hleft)
    have hr := rises_of_places (places_eval hc right hright)
    have htruth : ∀ what v, Rises context named depth home (truth what left.span v) fun _ => True :=
      fun what v => rises_of_places (places_truth what (inside_of_holds hleft) v)
    have hother : ∀ what v, Rises context named depth home (truth what right.span v) fun _ => True :=
      fun what v => rises_of_places (places_truth what (inside_of_holds hright) v)
    cases op with
    | and =>
      refine .bind hl fun v _ => .bind (htruth _ v) fun b _ => ?_
      cases b with
      | true => exact .bind hr fun w _ => .bind (hother _ w) fun _ _ => .pure trivial
      | false => exact .pure trivial
    | or =>
      refine .bind hl fun v _ => .bind (htruth _ v) fun b _ => ?_
      cases b with
      | true => exact .pure trivial
      | false => exact .bind hr fun w _ => .bind (hother _ w) fun _ _ => .pure trivial
    | _ => exact .bind hl fun a _ => .bind hr fun b _ => rises_ofMetered (.combine _ a b)
  | .call span callee args =>
    have hcall : span ∈ home.calls := h.calls span List.mem_cons_self
    obtain ⟨hcallee, hargs⟩ : home.Holds [callee.extent] callee.calls ∧
        home.Holds (argumentExtents args) (argumentCalls args) := h.parts.afterCall.both
    exact .bind (rises_of_places (places_eval hc callee hcallee)) fun target _ =>
      .bind (rises_of_places (places_evalArgs hc .empty args hargs)) fun found _ =>
        rises_apply hc target (inside_of_holds hcallee) found hcall hspan
  | .method _ receiver method args =>
    obtain ⟨hreceiver, hrest⟩ : home.Holds [receiver.extent] receiver.calls ∧
        home.Holds (method.extent :: argumentExtents args) (argumentCalls args) := h.parts.both
    have hmethod : method.span.Inside home.span := hrest.first.inside
    have hargs : home.Holds (argumentExtents args) (argumentCalls args) := hrest.rest
    have hfound := fun done => rises_of_places (places_evalArgs hc done args hargs)
    refine rises_of_places (places_locating ?_ hmethod)
    split
    · exact .bind (rises_of_places (places_resolve hc receiver hreceiver)) fun place hplace =>
        .bind (hfound .empty) fun found _ => rises_updatePlace hplace fun old => .method old _ found
    · exact .bind (rises_of_places (places_eval hc receiver hreceiver)) fun object _ =>
        .bind (hfound .empty) fun found _ =>
          .bind (rises_ofMetered (.method object _ found)) fun _ _ => .pure trivial
  | .field _ object field =>
    have hparts : home.Holds [object.extent, field.extent] object.calls := h.parts
    have hfield : field.span.Inside home.span := hparts.rest.inside
    exact .bind (rises_of_places (places_eval hc object hparts.first)) fun v _ =>
      rises_of_places (places_locating (rises_ofMetered (.readField v _)) hfield)
  | .index _ object index =>
    obtain ⟨hobject, hindex⟩ : home.Holds [object.extent] object.calls ∧
        home.Holds [index.extent] index.calls := h.parts.both
    have hinside := inside_of_holds hindex
    exact .bind (rises_of_places (places_eval hc object hobject)) fun v _ =>
      .bind (rises_of_places (places_eval hc index hindex)) fun w _ =>
        .bind (rises_of_places (places_position hinside w)) fun p _ =>
          rises_of_places (places_locating (rises_ofExcept _) hinside)
termination_by structural e

theorem places_evalAll (hc : CallsRise context named depth caller) (items : List Expr)
    (h : home.Holds (itemExtents items) (itemCalls items)) :
    Places context named depth home (evalAll caller items) fun _ => True := by
  match items with
  | [] => exact .pure trivial
  | e :: rest =>
    obtain ⟨hfirst, hrest⟩ : home.Holds [e.extent] e.calls ∧
        home.Holds (itemExtents rest) (itemCalls rest) := h.both
    exact .bind (places_eval hc e hfirst) fun _ _ =>
      .bind (places_evalAll hc rest hrest) fun _ _ => .pure trivial
termination_by structural items

theorem places_evalArgs (hc : CallsRise context named depth caller) (done : Arguments)
    (args : List Argument) (h : home.Holds (argumentExtents args) (argumentCalls args)) :
    Places context named depth home (evalArgs caller done args) fun _ => True := by
  match args with
  | [] => exact .pure trivial
  | .positional e :: rest =>
    obtain ⟨hfirst, hrest⟩ : home.Holds [e.extent] e.calls ∧
        home.Holds (argumentExtents rest) (argumentCalls rest) := h.both
    exact .bind (places_eval hc e hfirst) fun v _ => places_evalArgs hc (done.add v) rest hrest
  | .keyword name e :: rest =>
    have hname : name.span.Inside home.span := h.first.inside
    obtain ⟨hfirst, hrest⟩ : home.Holds [e.extent] e.calls ∧
        home.Holds (argumentExtents rest) (argumentCalls rest) := h.rest.both
    exact .bind (places_eval hc e hfirst) fun v _ =>
      .bind (places_locating (rises_ofExcept _) hname) fun found _ =>
        places_evalArgs hc found rest hrest
termination_by structural args

/-- A place in a value keeps the places of the expression that names it. -/
theorem places_resolve (hc : CallsRise context named depth caller) (e : Expr)
    (h : home.Holds [e.extent] e.calls) :
    Places context named depth home (resolve caller e) fun place => place.Within home := by
  have hspan := inside_of_holds h
  match e with
  | .name _ name => exact .pure ⟨hspan, fun _ hstep => absurd hstep List.not_mem_nil⟩
  | .field _ object field =>
    have hparts : home.Holds [object.extent, field.extent] object.calls := h.parts
    have hfield : field.span.Inside home.span := hparts.rest.inside
    exact .bind (places_resolve hc object hparts.first) fun place hplace =>
      .pure (hplace.step hfield)
  | .index _ object index =>
    obtain ⟨hobject, hindex⟩ : home.Holds [object.extent] object.calls ∧
        home.Holds [index.extent] index.calls := h.parts.both
    have hinside := inside_of_holds hindex
    exact .bind (places_resolve hc object hobject) fun place hplace =>
      .bind (places_eval hc index hindex) fun w _ =>
        .bind (places_position hinside w) fun p _ => .pure (hplace.step hinside)
  | .int _ _ | .float _ _ | .text _ _ | .bool _ _ | .none _ | .list _ _ | .tuple _ _
  | .unary _ _ _ | .binary _ _ _ _ | .call _ _ _ | .method _ _ _ _ =>
    exact places_refuseAt hspan _
termination_by structural e

end

mutual

/-- Faults of a statement are placed where the statement stands, or were left behind there. -/
theorem places_exec (hc : CallsRise context named depth caller) (statement : Stmt)
    (h : home.Holds [statement.extent] statement.calls) :
    Places context named depth home (exec caller statement) fun _ => True := by
  have hspan := h.inside
  rw [Script.Stmt.span_extent] at hspan
  unfold exec
  refine ends_counted (.bind (places_locating (rises_ofMetered (.charge 1)) hspan) fun _ _ => ?_)
  match statement with
  | .bind _ name value =>
    have hvalue : home.Holds [value.extent] value.calls := h.parts.rest
    exact .bind (places_eval hc value hvalue) fun v _ =>
      .bind (places_modifyLocals _) fun _ _ => .pure trivial
  | .assign _ target op value =>
    obtain ⟨htarget, hvalue⟩ : home.Holds [target.extent] target.calls ∧
        home.Holds [value.extent] value.calls := h.parts.both
    exact .bind (places_eval hc value hvalue) fun v _ =>
      .bind (places_resolve hc target htarget) fun place hplace =>
        .bind (places_locating (rises_store hplace op v) (inside_of_holds htarget)) fun _ _ =>
          .pure trivial
  | .expr _ value =>
    have hvalue : home.Holds [value.extent] value.calls := h.parts
    exact .bind (places_eval hc value hvalue) fun _ _ => .pure trivial
  | .giveBack _ none => exact .pure trivial
  | .giveBack _ (some value) =>
    have hvalue : home.Holds [value.extent] value.calls := h.parts
    exact .bind (places_eval hc value hvalue) fun _ _ => .pure trivial
  | .choose _ branches otherwise =>
    obtain ⟨hbranches, hotherwise⟩ : home.Holds (branchExtents branches) (branchCalls branches) ∧
        home.Holds (otherwiseExtents otherwise) (otherwiseCalls otherwise) := h.parts.append
    refine .bind (places_execBranches hc branches hbranches) fun found _ => ?_
    cases found with
    | some flow => exact .pure trivial
    | none => exact places_execOtherwise hc otherwise hotherwise
  | .loop _ var iterable (.mk span body) =>
    obtain ⟨hiterable, hblock⟩ : home.Holds [iterable.extent] iterable.calls ∧
        home.Holds [(Block.mk span body).extent] (Block.mk span body).calls := h.parts.rest.both
    have hbody : home.Holds (statementExtents body) (statementCalls body) := hblock.parts
    exact .bind (places_eval hc iterable hiterable) fun v _ =>
      .bind (places_iterated (inside_of_holds hiterable) v) fun items _ =>
        places_rounds _ (fun item => places_inBlock
          (.bind (places_modifyLocals _) fun _ _ => places_execAll hc body hbody)) items
termination_by structural statement

theorem places_execBranches (hc : CallsRise context named depth caller) (branches : List Branch)
    (h : home.Holds (branchExtents branches) (branchCalls branches)) :
    Places context named depth home (execBranches caller branches) fun _ => True := by
  match branches with
  | [] => exact .pure trivial
  | .mk condition block :: rest =>
    rw [branchExtents, branchCalls, List.append_assoc] at h
    obtain ⟨hcondition, hguarded⟩ := h.both
    obtain ⟨hblock, hrest⟩ := hguarded.both
    refine .bind (places_eval hc condition hcondition) fun v _ =>
      .bind (places_truth _ (inside_of_holds hcondition) v) fun b _ => ?_
    cases b with
    | true => exact .bind (places_execBlock hc block hblock) fun _ _ => .pure trivial
    | false => exact places_execBranches hc rest hrest
termination_by structural branches

theorem places_execOtherwise (hc : CallsRise context named depth caller)
    (otherwise : Option Block)
    (h : home.Holds (otherwiseExtents otherwise) (otherwiseCalls otherwise)) :
    Places context named depth home (execOtherwise caller otherwise) fun _ => True := by
  match otherwise with
  | none => exact .pure trivial
  | some block => exact places_execBlock hc block h
termination_by structural otherwise

/-- Faults of a block are placed where the block stands, or were left behind there. -/
theorem places_execBlock (hc : CallsRise context named depth caller) (block : Block)
    (h : home.Holds [block.extent] block.calls) :
    Places context named depth home (execBlock caller block) fun _ => True := by
  match block with
  | .mk _ statements =>
    have hstatements : home.Holds (statementExtents statements) (statementCalls statements) :=
      h.parts
    exact places_inBlock (places_execAll hc statements hstatements)
termination_by structural block

theorem places_execAll (hc : CallsRise context named depth caller) (statements : List Stmt)
    (h : home.Holds (statementExtents statements) (statementCalls statements)) :
    Places context named depth home (execAll caller statements) fun _ => True := by
  match statements with
  | [] => exact .pure trivial
  | statement :: rest =>
    obtain ⟨hfirst, hrest⟩ : home.Holds [statement.extent] statement.calls ∧
        home.Holds (statementExtents rest) (statementCalls rest) := h.both
    refine .bind (places_exec hc statement hfirst) fun flow _ => ?_
    cases flow with
    | giveBack v => exact .pure trivial
    | next => exact places_execAll hc rest hrest
termination_by structural statements

end

end Trees

section Calls

/-- Every function is named, and its body stands in one place. -/
def Housed (context : Context) (named : String → Home → Prop) : Prop :=
  ∀ function ∈ context.functions, named function.name.text function.home ∧
    function.home.Holds [function.body.extent] function.body.calls

/-- The fault of a function leaves a frame that names it. -/
theorem ends_runBody (hh : Housed context named) {caller : Caller}
    (hc : CallsRise context named depth caller) {function : Function}
    (hf : function ∈ context.functions) (params : Scope) (span : Span) :
    Act.Ends context (runBody caller function params span) (fun _ => True) fun fault =>
      fault.OfRunning → fault.Left named (depth + 1) span ∧
        fault.frames.getLast?.map Fault.Frame.function = some function.name.text := by
  obtain ⟨hn, hbody⟩ := hh function hf
  refine Act.Ends.mapFault (show Places context named depth function.home _ fun _ => True from
    .bind (ends_inCall (places_execBlock hc function.body hbody)) fun flow _ => ?_)
      fun fault hfault hrunning => ?_
  · cases flow <;> exact .pure trivial
  · obtain ⟨hrising, hspan⟩ := hfault hrunning
    exact ⟨hrising.leave hspan hn, by simp [Fault.leave]⟩

/-- A way to enter functions that leaves trails of at most so many frames. -/
def EntrancesRise (context : Context) (named : String → Home → Prop) (depth : Nat)
    (enter : Entrance) : Prop :=
  ∀ ⦃home : Home⦄ (function : Function) (params : Scope) (span : Span),
    function ∈ context.functions → span ∈ home.calls → span.Inside home.span →
      Rises context named depth home (enter function params span) fun _ => True

theorem rises_callNamed {enter : Entrance} (he : EntrancesRise context named depth enter) :
    CallsRise context named depth (callNamed enter) := by
  intro home name args span hcall hin
  refine .bind (rises_consult fun _ _ function heq => ?_) fun function hf =>
    .bind (rises_ofExcept _) fun params _ => he function params span hf hcall hin
  cases hfound : context.function? name with
  | none =>
    rw [hfound] at heq
    cases heq
  | some found =>
    rw [hfound] at heq
    cases heq
    exact List.mem_of_find?_eq_some hfound

/-- However many calls may still be opened, a call leaves no longer a trail than that. -/
theorem rises_enter (hh : Housed context named) (remaining : Nat) :
    EntrancesRise context named remaining (enter remaining) := by
  induction remaining with
  | zero =>
    intro home function params span _ _ hin
    exact .bind .read fun _ _ => rises_of_places (places_refuseAt hin _)
  | succ rest ih =>
    intro home function params span hf hcall hin
    exact (ends_runBody hh (rises_callNamed ih) hf params span).weaken (fun _ hv => hv)
      fun _ hfault hrunning => .left (hfault hrunning).1 hcall hin

end Calls

end Evaluation

end LandPattern
