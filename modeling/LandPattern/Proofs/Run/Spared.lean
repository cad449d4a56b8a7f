import LandPattern.Proofs.Run.Leading
import LandPattern.Run.Program

/-!
# What a step leaves alone

Blocks and expressions are evaluated in the variables of the innermost call. They leave the
constants and the variables of all other calls as they are, and of the innermost call only the
variables that they write to themselves can have another value afterwards.
-/

namespace LandPattern

open Script (Argument Block Branch Expr Function Item Program Span Stmt)

namespace Evaluation

variable {context : Context} {α : Type} {promise : α → Prop} {before : Machine}
variable {written : String → Prop} {names : List String}

/-- Calls of functions leave every state alone. -/
def CallsLead (context : Context) (caller : Caller) : Prop :=
  ∀ name args span, ∀ written : String → Prop, ∀ machine : Machine, machine.HasBlocks →
    Leads context written machine (caller name args span) fun _ => True

section Trees

variable {caller : Caller}

theorem leads_apply (hc : CallsLead context caller) (hb : before.HasBlocks) (callee : Value)
    (calleeSpan : Span) (args : Arguments) (callSpan : Span) :
    Leads context written before (apply caller callee calleeSpan args callSpan) fun _ => True := by
  cases callee with
  | builtin word => exact leads_any _
  | function name => exact hc name args callSpan written before hb
  | _ => exact .fault _

mutual

/-- An expression changes what it writes to. -/
theorem leads_eval (hc : CallsLead context caller) (hb : before.HasBlocks) (e : Expr)
    (hw : ∀ name ∈ e.writes, written name) :
    Leads context written before (eval caller e) fun _ => True := by
  unfold eval
  refine leads_counted (.mapFault (leads_noting hb (.bind (leads_any _) fun _ _ => ?_)))
  match e with
  | .int _ _ | .float _ _ | .text _ _ | .bool _ _ | .none _ => exact .pure trivial
  | .name _ _ => exact ensures_consult fun _ _ _ _ => trivial
  | .list _ items | .tuple _ items =>
    exact .bind (leads_collected _ (leads_evalAll hc hb items hw)) fun _ _ => .pure trivial
  | .unary _ .neg operand =>
    exact .bind (leads_eval hc hb operand hw) fun _ _ => .ofExcept fun _ _ => trivial
  | .unary _ .not operand =>
    exact .bind (leads_eval hc hb operand hw) fun v _ => .bind (ensures_truth _ _ v) fun _ _ =>
      .pure trivial
  | .binary _ op left right =>
    have hl := leads_eval hc hb left fun name hname => hw name (List.mem_append_left _ hname)
    have hr := leads_eval hc hb right fun name hname => hw name (List.mem_append_right _ hname)
    cases op with
    | and =>
      refine .bind hl fun v _ => .bind (ensures_truth _ _ v) fun b _ => ?_
      cases b with
      | true => exact .bind hr fun w _ => .bind (ensures_truth _ _ w) fun _ _ => .pure trivial
      | false => exact .pure trivial
    | or =>
      refine .bind hl fun v _ => .bind (ensures_truth _ _ v) fun b _ => ?_
      cases b with
      | true => exact .pure trivial
      | false => exact .bind hr fun w _ => .bind (ensures_truth _ _ w) fun _ _ => .pure trivial
    | _ => exact .bind hl fun _ _ => .bind hr fun _ _ => leads_any _
  | .call span callee args =>
    have hcallee := leads_eval hc hb callee fun name hname =>
      hw name (List.mem_append_left _ hname)
    have hargs := leads_evalArgs hc hb .empty args fun name hname =>
      hw name (List.mem_append_right _ hname)
    exact .bind hcallee fun _ _ => .bind hargs fun _ _ => leads_apply hc hb _ _ _ _
  | .method _ receiver method args =>
    have hargs := leads_evalArgs hc hb .empty args fun name hname =>
      hw name (List.mem_append_right _ hname)
    have hreceiver : ∀ name ∈ receiver.writes, written name := fun name hname =>
      hw name (List.mem_append_left _ (List.mem_append_right _ hname))
    refine .mapFault (.ite (fun hplace => ?_) fun _ => ?_)
    · have hroot : ∀ name ∈ receiver.root, written name := fun name hname =>
        hw name (List.mem_append_left _ (List.mem_append_left _
          (by rwa [if_pos (Bool.and_eq_true_iff.1 hplace).1])))
      exact .bind (leads_resolve hc hb receiver hreceiver) fun place hmem =>
        .bind hargs fun _ _ => leads_updatePlace hb (hroot _ hmem) _
    · exact .bind (leads_eval hc hb receiver hreceiver) fun _ _ => .bind hargs fun _ _ =>
        .bind (leads_any _) fun _ _ => .pure trivial
  | .field _ object _ =>
    exact .bind (leads_eval hc hb object hw) fun _ _ => .mapFault (leads_any _)
  | .index _ object index =>
    have ho := leads_eval hc hb object fun name hname => hw name (List.mem_append_left _ hname)
    have hi := leads_eval hc hb index fun name hname => hw name (List.mem_append_right _ hname)
    exact .bind ho fun _ _ => .bind hi fun v _ => .bind (ensures_position _ v) fun _ _ =>
      .mapFault (.ofExcept fun _ _ => trivial)
termination_by structural e

theorem leads_evalAll (hc : CallsLead context caller) (hb : before.HasBlocks) (items : List Expr)
    (hw : ∀ name ∈ Script.itemWrites items, written name) :
    Leads context written before (evalAll caller items) fun _ => True := by
  match items with
  | [] => exact .pure trivial
  | e :: rest =>
    have hfirst := leads_eval hc hb e fun name hname => hw name (List.mem_append_left _ hname)
    have hrest := leads_evalAll hc hb rest fun name hname => hw name (List.mem_append_right _ hname)
    exact .bind hfirst fun _ _ => .bind hrest fun _ _ => .pure trivial
termination_by structural items

theorem leads_evalArgs (hc : CallsLead context caller) (hb : before.HasBlocks) (done : Arguments)
    (args : List Argument) (hw : ∀ name ∈ Script.argumentWrites args, written name) :
    Leads context written before (evalArgs caller done args) fun _ => True := by
  match args with
  | [] => exact .pure trivial
  | .positional e :: rest =>
    have hfirst := leads_eval hc hb e fun name hname => hw name (List.mem_append_left _ hname)
    exact .bind hfirst fun v _ => leads_evalArgs hc hb _ rest fun name hname =>
      hw name (List.mem_append_right _ hname)
  | .keyword _ e :: rest =>
    have hfirst := leads_eval hc hb e fun name hname => hw name (List.mem_append_left _ hname)
    exact .bind hfirst fun _ _ => .bind (.mapFault (.ofExcept fun _ _ => trivial)) fun _ _ =>
      leads_evalArgs hc hb _ rest fun name hname => hw name (List.mem_append_right _ hname)
termination_by structural args

/-- The variable of a place is the root of its expression. -/
theorem leads_resolve (hc : CallsLead context caller) (hb : before.HasBlocks) (e : Expr)
    (hw : ∀ name ∈ e.writes, written name) :
    Leads context written before (resolve caller e) fun place => place.root ∈ e.root := by
  match e with
  | .name _ _ => exact .pure (List.mem_singleton.2 rfl)
  | .field _ object _ => exact .bind (leads_resolve hc hb object hw) fun _ hmem => .pure hmem
  | .index _ object index =>
    have ho := leads_resolve hc hb object fun name hname => hw name (List.mem_append_left _ hname)
    have hi := leads_eval hc hb index fun name hname => hw name (List.mem_append_right _ hname)
    exact .bind ho fun _ hmem => .bind hi fun v _ => .bind (ensures_position _ v) fun _ _ =>
      .pure hmem
  | .int _ _ | .float _ _ | .text _ _ | .bool _ _ | .none _ | .list _ _ | .tuple _ _
  | .unary _ _ _ | .binary _ _ _ _ | .call _ _ _ | .method _ _ _ _ => exact .fault _
termination_by structural e

end

/-- A declaration that has been run has put its name into the innermost block. -/
theorem inside_of_bind (hc : CallsLead context caller) (hb : before.HasBlocks) {span : Span}
    {name : Script.Name} {value : Expr} {machine after : Machine} {flow : Flow}
    (hw : ∀ other ∈ value.writes, other ∈ names ∨ written other)
    (h : before.Inside names written machine)
    (hrun : (exec caller (.bind span name value)).outcome context machine = (.ok flow, after)) :
    before.Inside (name.text :: names) written after := by
  have hcharge : Inside context names written before
      (locating span (ofMetered (Metered.charge 1))) fun _ => True := .mapFault (inside_any _)
  have hvalue : Inside context names written before (eval caller value) fun _ => True :=
    inside_of_leads hb hw fun _ hm => leads_eval hc hm value fun _ => id
  unfold exec at hrun
  obtain ⟨ended, hbody, rfl⟩ := exists_of_counted_ok hrun
  obtain ⟨_, charged, hcharged, hrest⟩ := hcharge.exists_of_bind_ok (h.withMeter _) hbody
  obtain ⟨v, evaluated, hevaluated, hdeclare⟩ := hvalue.exists_of_bind_ok hcharged hrest
  obtain ⟨globals, frames, meter, history⟩ := evaluated
  cases frames with
  | nil => cases hdeclare
  | cons locals outer =>
    have hlast := hevaluated.declare hb rfl name.text v
    exact (Prod.mk.inj hdeclare).2 ▸ hlast.withMeter _

mutual

/-- A statement changes what it writes to outside of the block, and the variables of the block. -/
theorem inside_exec {before : Machine} {written : String → Prop} {names : List String}
    (hc : CallsLead context caller) (hb : before.HasBlocks) (s : Stmt)
    (hw : ∀ name ∈ s.writes, name ∈ names ∨ written name) :
    Inside context names written before (exec caller s) fun _ => True := by
  unfold exec
  refine inside_counted (.bind (.mapFault (inside_any _)) fun _ _ => ?_)
  match s with
  | .bind _ name value =>
    exact .bind (inside_of_leads hb hw fun _ hm => leads_eval hc hm value fun _ => id) fun v _ =>
      inside_declare hb name.text v (.pure trivial)
  | .assign _ target op value =>
    refine inside_of_leads hb hw fun machine hm => ?_
    refine .bind (leads_eval hc hm value fun name => List.mem_append_right _) fun v _ => ?_
    refine .bind (leads_resolve hc hm target fun name hname => List.mem_append_left _
      (List.mem_append_right _ hname)) fun place hmem => ?_
    have hroot : place.root ∈ target.root ++ target.writes ++ value.writes :=
      List.mem_append_left _ (List.mem_append_left _ hmem)
    exact .bind (.mapFault (leads_updatePlace hm hroot _)) fun _ _ => .pure trivial
  | .expr _ value =>
    exact .bind (inside_of_leads hb hw fun _ hm => leads_eval hc hm value fun _ => id) fun _ _ =>
      .pure trivial
  | .giveBack _ none => exact .pure trivial
  | .giveBack _ (some value) =>
    exact .bind (inside_of_leads hb hw fun _ hm => leads_eval hc hm value fun _ => id) fun _ _ =>
      .pure trivial
  | .choose _ branches otherwise =>
    refine inside_of_leads hb hw fun machine hm => ?_
    refine .bind (leads_execBranches hc hm branches fun name => List.mem_append_left _)
      fun found _ => ?_
    cases found with
    | some flow => exact .pure trivial
    | none => exact leads_execOtherwise hc hm otherwise fun name => List.mem_append_right _
  | .loop _ var iterable (.mk _ body) =>
    refine inside_of_leads hb hw fun machine hm => ?_
    refine .bind (leads_eval hc hm iterable fun name => List.mem_append_left _) fun v _ =>
      .bind (leads_iterated _ v) fun items _ => ensures_rounds (leads_any _) trivial
        fun item _ => leads_inBlock hm (inside_declare hm var.text item ?_)
    refine inside_execAll hc hm body fun name hname => ?_
    by_cases same : name = var.text
    · exact .inl (List.mem_singleton.2 same)
    · exact .inr (List.mem_append_right _ (List.mem_filter.2 ⟨hname, by simpa using same⟩))
termination_by structural s

theorem leads_execBranches {before : Machine} {written : String → Prop}
    (hc : CallsLead context caller) (hb : before.HasBlocks)
    (branches : List Branch) (hw : ∀ name ∈ Script.branchWrites branches, written name) :
    Leads context written before (execBranches caller branches) fun _ => True := by
  match branches with
  | [] => exact .pure trivial
  | .mk condition block :: rest =>
    have hcondition := leads_eval hc hb condition fun name hname =>
      hw name (List.mem_append_left _ (List.mem_append_left _ hname))
    have hblock := leads_execBlock hc hb block fun name hname =>
      hw name (List.mem_append_left _ (List.mem_append_right _ hname))
    refine .bind hcondition fun v _ => .bind (ensures_truth _ _ v) fun b _ => ?_
    cases b with
    | true => exact .bind hblock fun _ _ => .pure trivial
    | false =>
      exact leads_execBranches hc hb rest fun name hname => hw name (List.mem_append_right _ hname)
termination_by structural branches

theorem leads_execOtherwise {before : Machine} {written : String → Prop}
    (hc : CallsLead context caller) (hb : before.HasBlocks)
    (otherwise : Option Block) (hw : ∀ name ∈ Script.otherwiseWrites otherwise, written name) :
    Leads context written before (execOtherwise caller otherwise) fun _ => True := by
  match otherwise with
  | none => exact .pure trivial
  | some block => exact leads_execBlock hc hb block hw
termination_by structural otherwise

/-- A block changes what it writes to outside of itself. -/
theorem leads_execBlock {before : Machine} {written : String → Prop}
    (hc : CallsLead context caller) (hb : before.HasBlocks) (block : Block)
    (hw : ∀ name ∈ block.writes, written name) :
    Leads context written before (execBlock caller block) fun _ => True := by
  match block with
  | .mk _ statements =>
    exact leads_inBlock hb (inside_execAll hc hb statements fun name hname => .inr (hw name hname))
termination_by structural block

theorem inside_execAll {before : Machine} {written : String → Prop} {names : List String}
    (hc : CallsLead context caller) (hb : before.HasBlocks)
    (statements : List Stmt)
    (hw : ∀ name ∈ Script.statementWrites statements, name ∈ names ∨ written name) :
    Inside context names written before (execAll caller statements) fun _ => True := by
  match statements with
  | [] => exact .pure trivial
  | s :: rest =>
    have hfirst := inside_exec hc hb s fun name hname => hw name (List.mem_append_left _ hname)
    have hrest : Inside context (s.declares ++ names) written before (execAll caller rest)
        fun _ => True := by
      refine inside_execAll hc hb rest fun name hname => ?_
      by_cases hown : name ∈ s.declares
      · exact .inl (List.mem_append_left _ hown)
      · refine (hw name (List.mem_append_right _ (List.mem_filter.2 ⟨hname, ?_⟩))).imp_left
          (List.mem_append_right _)
        simpa using hown
    intro machine hmachine
    have hmiddle := (hfirst machine hmachine).1
    unfold execAll
    rcases hrun : (exec caller s).outcome context machine with ⟨result, middle⟩
    rw [hrun] at hmiddle
    cases result with
    | error fault =>
      rw [Act.outcome_bind_error _ _ hrun]
      exact ⟨hmiddle, fun _ _ => trivial⟩
    | ok flow =>
      rw [Act.outcome_bind_ok _ _ hrun]
      cases flow with
      | giveBack v => exact ⟨hmiddle, fun _ _ => trivial⟩
      | next =>
        have hdeclared : before.Inside (s.declares ++ names) written middle := by
          cases s with
          | bind span name value =>
            exact inside_of_bind hc hb (fun other hother => hw other
              (List.mem_append_left _ hother)) hmachine hrun
          | _ => exact hmiddle
        have hlast := hrest middle hdeclared
        exact ⟨hlast.1.forget fun _ => List.mem_append_right _, hlast.2⟩
termination_by structural statements

end

end Trees

/-- Functions that are entered so that every state is left alone can be called so. -/
theorem callsLead_of_entrance {enter : Entrance}
    (he : ∀ function params callSpan, ∀ written : String → Prop, ∀ machine : Machine,
      machine.HasBlocks → Leads context written machine (enter function params callSpan)
        fun _ => True) :
    CallsLead context (callNamed enter) :=
  fun _ _ _ _ _ hm => ensures_callNamed fun _ _ _ _ => he _ _ _ _ _ hm

/-- Entering a function leaves every state alone, however deep the calls in it go. -/
theorem leads_enter (remaining : Nat) (function : Function) (params : Scope) (callSpan : Span)
    (hb : before.HasBlocks) :
    Leads context written before (enter remaining function params callSpan) fun _ => True := by
  induction remaining generalizing function params callSpan before written with
  | zero => exact ensures_refuseCall callSpan
  | succ rest ih =>
    have hcalls : CallsLead context (callNamed (enter rest)) :=
      callsLead_of_entrance fun _ _ _ _ _ hm => ih _ _ _ hm
    have hcall : Leads context written before
        (inCall (Locals.ofParams params) (execBlock (callNamed (enter rest)) function.body))
        fun _ => True := by
      intro machine hmachine
      have hentered :
          (machine.withFrames (Locals.ofParams params :: machine.frames)).HasBlocks := by
        intro locals hlocals
        rcases List.mem_cons.1 hlocals with rfl | hold
        · exact List.cons_ne_nil _ _
        · exact hmachine.hasBlocks hb locals hold
      have hbody := leads_execBlock hcalls hentered function.body (fun _ hname => hname)
        _ (.refl _ _)
      exact ⟨hmachine.call hb hbody.1, fun _ _ => trivial⟩
    exact ensures_runBody hcall (fun _ _ => trivial) trivial

theorem callsLead_enter (remaining : Nat) : CallsLead context (callNamed (enter remaining)) :=
  callsLead_of_entrance fun _ _ _ _ _ hm => leads_enter remaining _ _ _ hm

/-- Every active call has a block for its parameters, now and at every moment so far. -/
def AlwaysBlocks (machine : Machine) : Prop :=
  machine.HasBlocks ∧ ∀ moment, machine.history moment → moment.HasBlocks

theorem always_of_leads {act : Evaluation α}
    (h : ∀ machine : Machine, machine.HasBlocks → Leads context written machine act promise) :
    Act.Ensures context AlwaysBlocks act promise := by
  intro machine hmachine
  have hact := h machine hmachine.1 machine (.refl written machine)
  refine ⟨⟨hact.1.hasBlocks hmachine.1, fun moment hmoment => ?_⟩, hact.2⟩
  exact (hact.1.history moment hmoment).elim (hmachine.2 moment) id

theorem always_loadConstants (remaining : Nat) (items : List Item) :
    Act.Ensures context AlwaysBlocks (loadConstants (callNamed (enter remaining)) items)
      fun _ => True := by
  have hvalue : ∀ value : Expr, Act.Ensures context AlwaysBlocks
      (eval (callNamed (enter remaining)) value) fun _ => True := fun value =>
    always_of_leads fun _ hm => leads_eval (callsLead_enter remaining) hm value fun _ => id
  refine ensures_loadConstants (fun _ value _ => hvalue value) fun machine _ _ hmachine _ =>
    ⟨hmachine.1, fun moment hmoment => ?_⟩
  rcases hmoment with rfl | hold
  · exact hmachine.1
  · exact hmachine.2 moment hold

theorem always_callEntryPoint (remaining : Nat) (program : Program) :
    Act.Ensures context AlwaysBlocks (callEntryPoint (enter remaining) program) fun _ => True := by
  refine ensures_callEntryPoint fun function _ => ?_
  have hleads : ∀ machine : Machine, machine.HasBlocks →
      Leads context (fun _ => False) machine (enter remaining function [] function.name.span)
        fun _ => True :=
    fun _ hm => leads_enter remaining function [] function.name.span hm
  exact always_of_leads hleads

theorem always_runProgram (remaining : Nat) (program : Program) :
    Act.Ensures context AlwaysBlocks (runProgram (enter remaining) program) fun _ => True := by
  exact .bind (always_loadConstants remaining program.items) fun _ _ =>
    .bind (always_callEntryPoint remaining program) fun v _ =>
      (ensures_collect v).weaken fun _ _ => trivial

end Evaluation

open Evaluation (callNamed enter eval execBlock)

namespace Script.Program

/-- The constants and variables of a state are those before a run or at one of its moments. -/
def Reaches (program : Program) (limits : Limits) (machine : Machine) : Prop :=
  ∃ value, machine.moment value = Machine.start.moment value ∨
    (program.run limits).2.history (machine.moment value)

theorem Reaches.hasBlocks {program : Program} {limits : Limits} {machine : Machine}
    (h : program.Reaches limits machine) : machine.HasBlocks := by
  obtain ⟨value, hstart | hmoment⟩ := h
  · intro locals hlocals
    have hframes : machine.frames = [] := congrArg Moment.frames hstart
    rw [hframes] at hlocals
    cases hlocals
  · have halways : Act.Ensures ⟨program.functions, limits⟩ Evaluation.AlwaysBlocks
        (Evaluation.runProgram (Evaluation.enter limits.callDepth) program) fun _ => True :=
      Evaluation.always_runProgram limits.callDepth program
    have hrun := halways Machine.start
      ⟨fun _ hlocals => absurd hlocals List.not_mem_nil, fun _ hmoment => hmoment.elim⟩
    exact hrun.1.2 _ hmoment

/-- In every state that a run reaches, blocks and expressions disturb nothing that is not theirs,
whether they complete, return or fault, and however many calls may still be opened: the constants
and the variables of all calls but the innermost one are as before, and so are the blocks of that
call, the names in them, and the values of all variables that the block or the expression does not
write to itself. -/
theorem run_spares {program : Program} {limits : Limits} {machine : Machine}
    (h : program.Reaches limits machine) (remaining : Nat) :
    (∀ block : Block, machine.Spares (· ∈ block.writes)
      ((execBlock (callNamed (enter remaining)) block).outcome
        ⟨program.functions, limits⟩ machine).2) ∧
    ∀ e : Expr, machine.Spares (· ∈ e.writes)
      ((eval (callNamed (enter remaining)) e).outcome ⟨program.functions, limits⟩ machine).2 := by
  have hcalls : Evaluation.CallsLead ⟨program.functions, limits⟩ (callNamed (enter remaining)) :=
    Evaluation.callsLead_enter remaining
  refine ⟨fun block => ?_, fun e => ?_⟩
  · have hblock := Evaluation.leads_execBlock hcalls h.hasBlocks block (fun _ hname => hname)
      machine (.refl _ machine)
    exact hblock.1.toSpares
  · have hvalue := Evaluation.leads_eval hcalls h.hasBlocks e (fun _ hname => hname)
      machine (.refl _ machine)
    exact hvalue.1.toSpares

/-- Limits that let one call be active. -/
def oneCall : Limits := ⟨0, 100, 1, 1, 1, 1, 1, 100⟩

/-- A script whose entry point declares one variable. -/
def declaring : Program :=
  ⟨[.function ⟨⟨"footprint", ⟨3, 12⟩⟩, [],
    .mk ⟨15, 29⟩ [.bind ⟨17, 27⟩ ⟨"x", ⟨21, 22⟩⟩ (.int ⟨25, 26⟩ 1)], ⟨0, 29⟩⟩]⟩

/-- A block that declares another variable and writes to both. -/
def overwriting : Block :=
  .mk ⟨0, 27⟩ [.bind ⟨2, 12⟩ ⟨"y", ⟨6, 7⟩⟩ (.int ⟨10, 11⟩ 1),
    .assign ⟨13, 19⟩ (.name ⟨13, 14⟩ "x") .set (.int ⟨17, 18⟩ 2),
    .assign ⟨20, 26⟩ (.name ⟨20, 21⟩ "y") .set (.int ⟨24, 25⟩ 3)]

/-- The block writes to `x` alone, for `y` is its own and gone afterwards. -/
theorem run_spares_overwriting :
    ∃ machine after, declaring.Reaches oneCall machine ∧ overwriting.writes = ["x"] ∧
      after = ((execBlock (callNamed (enter 0)) overwriting).outcome
        ⟨declaring.functions, oneCall⟩ machine).2 ∧
      machine.frames = [⟨[[("x", .int 1)], []]⟩] ∧ after.frames = [⟨[[("x", .int 2)], []]⟩] ∧
      machine.Spares (· ∈ overwriting.writes) after := by
  have hreached : declaring.Reaches oneCall
      ⟨[], [⟨[[("x", .int 1)], []]⟩], Meter.zero, fun _ => False⟩ :=
    ⟨none, Or.inr (Or.inr (Or.inr (Or.inl rfl)))⟩
  exact ⟨_, _, hreached, rfl, rfl, rfl, rfl, (run_spares hreached 0).1 overwriting⟩

end Script.Program

end LandPattern
