import LandPattern.Proofs.Run.Mirrors
import LandPattern.Run.Program

/-!
# Running without places

A script without its places is run as the script is: it ends with the same elements, or with the
same fault without its places, and it leaves the same machine. So scripts that differ in their
places alone are run alike.
-/

namespace LandPattern

open Script (Argument AssignOp BinaryOp Block Branch Expr Function Item Name Program Span Stmt)

namespace Evaluation

variable {context : Context} {α : Type}

/-- Two ways to call functions, of which the second one does without places. -/
def CallsMirror (context : Context) (caller another : Caller) : Prop :=
  ∀ name args span, Mirrors context id (caller name args span) (another name args .nowhere)

section Trees

variable {caller another : Caller}

theorem mirrors_apply (hc : CallsMirror context caller another) (callee : Value)
    (calleeSpan : Span) (args : Arguments) (callSpan : Span) :
    Mirrors context id (apply caller callee calleeSpan args callSpan)
      (apply another callee .nowhere args .nowhere) := by
  cases callee with
  | builtin word => exact mirrors_ofMetered (Metered.Made.call word args).mirrors
  | function name => exact hc name args callSpan
  | _ => exact mirrors_refuseAt _ _

/-- A place with one more step is the same, its places in the source apart. -/
theorem mirrors_stepped (place : Place) (step : Step) :
    Mirrors context Place.placeless (pure { place with steps := place.steps ++ [step] })
      (pure { place.placeless with steps := place.placeless.steps ++ [step.placeless] }) := by
  have hpure : Mirrors context Place.placeless (pure { place with steps := place.steps ++ [step] })
      (pure (Place.placeless { place with steps := place.steps ++ [step] })) := .pure _
  have hsteps : (place.steps ++ [step]).map Step.placeless =
      place.placeless.steps ++ [step.placeless] := List.map_append
  rw [Place.placeless, hsteps] at hpure
  exact hpure

mutual

/-- An expression without its places has the same value. -/
theorem mirrors_eval (hc : CallsMirror context caller another) (e : Expr) :
    Mirrors context id (eval caller e) (eval another e.bare) := by
  unfold eval
  rw [Script.Expr.span_bare]
  refine mirrors_counted (mirrors_locating _ (mirrors_noting
    (.bind (mirrors_ofMetered (Metered.Made.charge 1).mirrors) fun _ => ?_)))
  match e with
  | .int _ _ | .float _ _ | .text _ _ | .bool _ _ | .none _ =>
    simp only [Expr.bare]
    exact .pure _
  | .name _ name =>
    simp only [Expr.bare]
    exact mirrors_lookup name
  | .list _ items | .tuple _ items =>
    simp only [Expr.bare]
    have hlength : (Script.bareItems items).length = items.length := by
      rw [Script.bareItems_eq_map, List.length_map]
    rw [hlength]
    exact .bind (mirrors_collected _ (mirrors_evalAll hc items)) fun _ => .pure _
  | .unary _ .neg operand =>
    simp only [Expr.bare]
    exact .bind (mirrors_eval hc operand) fun v => .ofExcept _
  | .unary _ .not operand =>
    simp only [Expr.bare, Script.Expr.span_bare]
    exact .bind (mirrors_eval hc operand) fun v => .bind (mirrors_truth _ _ v) fun b => .pure _
  | .binary _ op left right =>
    simp only [Expr.bare]
    cases op with
    | and =>
      simp only [Script.Expr.span_bare]
      refine .bind (mirrors_eval hc left) fun v => .bind (mirrors_truth _ _ v) fun b => ?_
      cases b with
      | true =>
        exact .bind (mirrors_eval hc right) fun w => .bind (mirrors_truth _ _ w) fun c => .pure _
      | false => exact .pure _
    | or =>
      simp only [Script.Expr.span_bare]
      refine .bind (mirrors_eval hc left) fun v => .bind (mirrors_truth _ _ v) fun b => ?_
      cases b with
      | true => exact .pure _
      | false =>
        exact .bind (mirrors_eval hc right) fun w => .bind (mirrors_truth _ _ w) fun c => .pure _
    | _ =>
      exact .bind (mirrors_eval hc left) fun a => .bind (mirrors_eval hc right) fun b =>
        mirrors_ofMetered (Metered.Made.combine _ a b).mirrors
  | .call span callee args =>
    simp only [Expr.bare, Script.Expr.span_bare]
    exact .bind (mirrors_eval hc callee) fun target => .bind (mirrors_evalArgs hc .empty args)
      fun args => mirrors_apply hc target callee.span args span
  | .method _ receiver method args =>
    simp only [Expr.bare, Name.bare, Script.Expr.isPlace_bare]
    refine mirrors_locating _ ?_
    split
    · exact .bind (mirrors_resolve hc receiver) fun place =>
        .bind (mirrors_evalArgs hc .empty args) fun args =>
          mirrors_updatePlace place fun old => (Metered.Made.method old _ args).mirrors
    · exact .bind (mirrors_eval hc receiver) fun object =>
        .bind (mirrors_evalArgs hc .empty args) fun args =>
          .bind (mirrors_ofMetered (Metered.Made.method object _ args).mirrors) fun found => .pure _
  | .field _ object field =>
    simp only [Expr.bare]
    exact .bind (mirrors_eval hc object) fun v => mirrors_locating _
      (mirrors_ofMetered (Metered.Made.readField v _).mirrors)
  | .index _ object index =>
    simp only [Expr.bare, Script.Expr.span_bare]
    exact .bind (mirrors_eval hc object) fun v => .bind (mirrors_eval hc index) fun w =>
      .bind (mirrors_position _ w) fun p => mirrors_locating _ (.ofExcept _)
termination_by structural e

theorem mirrors_evalAll (hc : CallsMirror context caller another) (items : List Expr) :
    Mirrors context id (evalAll caller items) (evalAll another (Script.bareItems items)) := by
  match items with
  | [] => exact .pure _
  | e :: rest =>
    exact .bind (mirrors_eval hc e) fun v => .bind (mirrors_evalAll hc rest) fun vs => .pure _
termination_by structural items

theorem mirrors_evalArgs (hc : CallsMirror context caller another) (done : Arguments)
    (args : List Argument) :
    Mirrors context id (evalArgs caller done args)
      (evalArgs another done (Script.bareArguments args)) := by
  match args with
  | [] => exact .pure _
  | .positional e :: rest =>
    exact .bind (mirrors_eval hc e) fun v => mirrors_evalArgs hc (done.add v) rest
  | .keyword name e :: rest =>
    exact .bind (mirrors_eval hc e) fun v => .bind (mirrors_locating _ (.ofExcept _)) fun found =>
      mirrors_evalArgs hc found rest
termination_by structural args

/-- The place that an expression names is the same, its places in the source apart. -/
theorem mirrors_resolve (hc : CallsMirror context caller another) (e : Expr) :
    Mirrors context Place.placeless (resolve caller e) (resolve another e.bare) := by
  match e with
  | .name span name => exact .pure (Place.mk name span [])
  | .field _ object field =>
    exact .bind (mirrors_resolve hc object) fun place => mirrors_stepped place (Step.field field)
  | .index _ object index =>
    simp only [Expr.bare, resolve, Script.Expr.span_bare]
    exact .bind (mirrors_resolve hc object) fun place => .bind (mirrors_eval hc index) fun w =>
      .bind (mirrors_position _ w) fun p => mirrors_stepped place (Step.index p index.span)
  | .int _ _ | .float _ _ | .text _ _ | .bool _ _ | .none _ | .list _ _ | .tuple _ _
  | .unary _ _ _ | .binary _ _ _ _ | .call _ _ _ | .method _ _ _ _ =>
    exact mirrors_refuseAt _ _
termination_by structural e

end

mutual

/-- A statement without its places does what the statement does. -/
theorem mirrors_exec (hc : CallsMirror context caller another) (statement : Stmt) :
    Mirrors context id (exec caller statement) (exec another statement.bare) := by
  unfold exec
  rw [Script.Stmt.span_bare]
  refine mirrors_counted (.bind (mirrors_locating _ (mirrors_ofMetered
    (Metered.Made.charge 1).mirrors)) fun _ => ?_)
  match statement with
  | .bind _ name value =>
    simp only [Stmt.bare, Script.Name.text_bare]
    exact .bind (mirrors_eval hc value) fun v => .bind (mirrors_modifyLocals _) fun _ => .pure _
  | .assign _ target op value =>
    simp only [Stmt.bare, Script.Expr.span_bare]
    exact .bind (mirrors_eval hc value) fun v => .bind (mirrors_resolve hc target) fun place =>
      .bind (mirrors_locating _ (mirrors_store place op v)) fun _ => .pure _
  | .expr _ value =>
    simp only [Stmt.bare]
    exact .bind (mirrors_eval hc value) fun v => .pure _
  | .giveBack _ none => exact .pure _
  | .giveBack _ (some value) =>
    simp only [Stmt.bare, Option.map_some]
    exact .bind (mirrors_eval hc value) fun v => .pure _
  | .choose _ branches otherwise =>
    simp only [Stmt.bare]
    refine .bind (mirrors_execBranches hc branches) fun found => ?_
    cases found with
    | some flow => exact .pure flow
    | none => exact mirrors_execOtherwise hc otherwise
  | .loop _ var iterable (.mk _ body) =>
    simp only [Stmt.bare, Block.bare, Script.Name.text_bare, Script.Expr.span_bare]
    have hlength : (Script.bareStatements body).length = body.length := by
      rw [Script.bareStatements_eq_map, List.length_map]
    rw [hlength]
    have hbody : ∀ item, Mirrors context id
        (inBlock do
          modifyLocals fun locals => locals.declare var.text item
          execAll caller body)
        (inBlock do
          modifyLocals fun locals => locals.declare var.text item
          execAll another (Script.bareStatements body)) := fun item =>
      mirrors_inBlock (.bind (mirrors_modifyLocals _) fun _ => mirrors_execAll hc body)
    exact .bind (mirrors_eval hc iterable) fun v => .bind (mirrors_iterated _ v) fun items =>
      mirrors_rounds _ hbody items
termination_by structural statement

theorem mirrors_execBranches (hc : CallsMirror context caller another) (branches : List Branch) :
    Mirrors context id (execBranches caller branches)
      (execBranches another (Script.bareBranches branches)) := by
  match branches with
  | [] => exact .pure _
  | .mk condition block :: rest =>
    simp only [Script.bareBranches, Branch.bare, execBranches, Script.Expr.span_bare]
    refine .bind (mirrors_eval hc condition) fun v => .bind (mirrors_truth _ _ v) fun b => ?_
    cases b with
    | true => exact .bind (mirrors_execBlock hc block) fun flow => .pure _
    | false => exact mirrors_execBranches hc rest
termination_by structural branches

theorem mirrors_execOtherwise (hc : CallsMirror context caller another)
    (otherwise : Option Block) :
    Mirrors context id (execOtherwise caller otherwise)
      (execOtherwise another (Script.bareOtherwise otherwise)) := by
  match otherwise with
  | none => exact .pure _
  | some block => exact mirrors_execBlock hc block
termination_by structural otherwise

/-- A block without its places does what the block does. -/
theorem mirrors_execBlock (hc : CallsMirror context caller another) (block : Block) :
    Mirrors context id (execBlock caller block) (execBlock another block.bare) := by
  match block with
  | .mk _ statements => exact mirrors_inBlock (mirrors_execAll hc statements)
termination_by structural block

theorem mirrors_execAll (hc : CallsMirror context caller another) (statements : List Stmt) :
    Mirrors context id (execAll caller statements)
      (execAll another (Script.bareStatements statements)) := by
  match statements with
  | [] => exact .pure _
  | statement :: rest =>
    refine .bind (mirrors_exec hc statement) fun flow => ?_
    cases flow with
    | giveBack v => exact .pure _
    | next => exact mirrors_execAll hc rest
termination_by structural statements

end

end Trees

section Calls

variable {enter entered : Entrance}

/-- Two ways to enter functions, of which the second one does without places. -/
def EntrancesMirror (context : Context) (enter entered : Entrance) : Prop :=
  ∀ function params span,
    Mirrors context id (enter function params span) (entered function.bare params .nowhere)

theorem bindParams_bare (function : Function) (args : Arguments) :
    bindParams function.bare args = bindParams function args := by
  have hparams : function.bare.params.map Name.text = function.params.map Name.text := by
    rw [Function.bare, List.map_map]
    rfl
  unfold bindParams
  rw [hparams]
  rfl

theorem mirrors_callNamed (he : EntrancesMirror context enter entered) :
    CallsMirror context (callNamed enter) (callNamed entered) := by
  intro name args span
  refine .bind (mirrors_consult (show ∀ globals locals, _ = Except.map Function.bare _ from
    fun globals locals => ?_)) fun function => ?_
  · rw [function?_placeless]
    cases context.function? name <;> rfl
  · rw [bindParams_bare]
    exact .bind (.ofExcept _) fun params => he function params span

theorem mirrors_runBody {caller another : Caller} (hc : CallsMirror context caller another)
    (function : Function) (params : Scope) (span : Span) :
    Mirrors context id (runBody caller function params span)
      (runBody another function.bare params .nowhere) := by
  refine .mapFault (fun fault => fault.placeless_leave _ span) ?_
  refine .bind (mirrors_inCall _ (mirrors_execBlock hc function.body)) fun flow => ?_
  cases flow <;> exact .pure _

/-- However many calls may still be opened, a function without its places does what the function
does. -/
theorem mirrors_enter (remaining : Nat) :
    EntrancesMirror context (Evaluation.enter remaining) (Evaluation.enter remaining) := by
  induction remaining with
  | zero =>
    intro function params span
    have hrefused : Mirrors context (id : Value → Value)
        (refuseAt span (.callDepth context.limits.callDepth))
        (refuseAt .nowhere (.callDepth context.limits.callDepth)) := mirrors_refuseAt span _
    exact fun machine => hrefused machine
  | succ rest ih =>
    intro function params span
    exact mirrors_runBody (mirrors_callNamed ih) function params span

theorem mirrors_loadConstants {caller another : Caller}
    (hc : CallsMirror context caller another) (items : List Item) :
    Mirrors context id (loadConstants caller items)
      (loadConstants another (items.map Item.bare)) := by
  induction items with
  | nil => exact .pure _
  | cons item rest ih =>
    cases item with
    | function f => exact ih
    | constant name value =>
      refine .bind (.mapFault (fun fault => fault.placeless_leave _ name.span)
        (mirrors_eval hc value)) fun v => ?_
      exact .bind (.modify _) fun _ => ih

theorem mirrors_locate (fault : Fault) (span : Span) :
    Mirrors context (id : α → α) (throw (fault.locate span))
      (throw (fault.placeless.locate .nowhere)) := by
  have hfault : Mirrors context (id : α → α) (throw (fault.locate span))
      (throw (fault.locate span).placeless) := .fault _
  rwa [fault.placeless_locate] at hfault

theorem mirrors_callEntryPoint (he : EntrancesMirror context enter entered) (program : Program) :
    Mirrors context id (callEntryPoint enter program) (callEntryPoint entered program.bare) := by
  have hfunction : Mirrors context (Option.map Function.bare)
      (consult fun function? _ _ => .ok (function? entryPoint))
      (consult fun function? _ _ => .ok (function? entryPoint)) :=
    mirrors_consult fun _ _ => by rw [function?_placeless]; rfl
  refine .bind hfunction fun found => ?_
  cases found with
  | some function =>
    simp only [Option.map_some, Function.bare]
    cases hparams : function.params with
    | nil =>
      have hentered := he function [] function.name.span
      rw [Function.bare, hparams] at hentered
      exact hentered
    | cons first others =>
      simp only [List.map_cons, List.length_cons, List.length_map]
      exact mirrors_locate _ first.span
  | none =>
    refine .bind (mirrors_consult_same fun _ _ => rfl) fun value => ?_
    cases value with
    | none => exact .fault (Fault.of .noEntryPoint)
    | some v =>
      have hnames : (program.bare.items.map Item.name).find? (fun name => name.text == entryPoint) =
          ((program.items.map Item.name).find? fun name => name.text == entryPoint).map
            Name.bare := by
        have hmap :
            program.bare.items.map Item.name = (program.items.map Item.name).map Name.bare := by
          rw [Program.bare, List.map_map, List.map_map]
          exact List.map_congr_left fun item _ => item.name_bare
        rw [hmap, List.find?_map]
        rfl
      simp only [id, hnames]
      cases (program.items.map Item.name).find? fun name => name.text == entryPoint with
      | some name => exact mirrors_locate _ name.span
      | none => exact .fault (Fault.of (.entryPointNotFunction v.type))

theorem outcome_collect (bounded : Context) (v : Value) (machine : Machine) :
    (collect v).outcome bounded machine = (v.elements bounded.limits.collection, machine) := by
  cases helements : v.elements bounded.limits.collection with
  | ok elements => simp [collect, Act.outcome_bind, helements]
  | error fault => simp [collect, Act.outcome_bind, helements]

theorem mirrors_collect (v : Value) : Mirrors context id (collect v) (collect v) := by
  intro machine
  rw [outcome_collect, outcome_collect, show context.placeless.limits = context.limits from rfl]
  cases helements : v.elements context.limits.collection with
  | ok elements => rfl
  | error fault =>
    obtain ⟨cause, hkind, rfl⟩ := Value.elements_error helements
    have hbare : (Fault.of cause).Unplaced := by
      cases cause with
      | problem d => cases hkind
      | _ => rfl
    exact congrArg (fun found => (Except.error found, _)) hbare.symm

theorem mirrors_runProgram (he : EntrancesMirror context enter entered) (program : Program) :
    Mirrors context id (runProgram enter program) (runProgram entered program.bare) :=
  .bind (mirrors_loadConstants (mirrors_callNamed he) program.items) fun _ =>
    .bind (mirrors_callEntryPoint he program) fun v => mirrors_collect v

end Calls

end Evaluation

/-- A script without its places is run as the script is. -/
theorem Script.Program.run_bare (program : Program) (limits : Limits) :
    program.bare.run limits =
      ((program.run limits).1.mapError Fault.placeless, (program.run limits).2) := by
  have hmirrors : Evaluation.Mirrors ⟨program.functions, limits⟩ id
      (Evaluation.runProgram (Evaluation.enter limits.callDepth) program)
      (Evaluation.runProgram (Evaluation.enter limits.callDepth) program.bare) :=
    Evaluation.mirrors_runProgram (Evaluation.mirrors_enter limits.callDepth) program
  have hrun := hmirrors Machine.start
  have hcontext : Context.placeless ⟨program.functions, limits⟩ =
      ⟨program.bare.functions, limits⟩ := by
    rw [Script.Program.functions_bare]
    rfl
  rw [hcontext, Except.map_id] at hrun
  exact hrun

end LandPattern
