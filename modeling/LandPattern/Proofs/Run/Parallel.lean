import LandPattern.Proofs.Run.Regular
import LandPattern.Run.Program

/-!
# Evaluations step by step

Two evaluations of the same tree take the same steps, except where they call functions of the
script. What relates single steps, and the calls, therefore relates whole evaluations: this is the
one induction over the tree that all such statements share.
-/

namespace LandPattern

open Script (Argument Block Branch Expr Item Program Span Stmt)

/-- Evaluations that take the same steps, apart from calls that are related by `Calls`. -/
inductive Evaluation.Parallel (Calls : Evaluation Value → Evaluation Value → Prop) :
    {α : Type} → Evaluation α → Evaluation α → Prop where
  | pure {α : Type} (value : α) : Parallel Calls (pure value) (pure value)
  | bind {α β : Type} {act other : Evaluation α} {next more : α → Evaluation β}
    (h : Parallel Calls act other) (hn : ∀ value, Parallel Calls (next value) (more value)) :
    Parallel Calls (act >>= next) (other >>= more)
  | fault {α : Type} (fault : Fault) (h : fault.cause.kind ≠ .timeout) :
    Parallel Calls (throw fault : Evaluation α) (throw fault)
  | metered {α : Type} {act : Metered α} (h : act.Regular) :
    Parallel Calls (Evaluation.ofMetered act) (Evaluation.ofMetered act)
  | countRounds (rounds : Rounds) :
    Parallel Calls (Evaluation.ofMetered (Metered.countRounds rounds))
      (Evaluation.ofMetered (Metered.countRounds rounds))
  | consult {α : Type}
    (look : (String → Option Script.Function) → Scope → Option Locals → Except Refusal α) :
    Parallel Calls (Evaluation.consult look) (Evaluation.consult look)
  | modifyLocals (change : Locals → Locals) :
    Parallel Calls (Evaluation.modifyLocals change) (Evaluation.modifyLocals change)
  | counted {α : Type} {act other : Evaluation α} (h : Parallel Calls act other) :
    Parallel Calls (Evaluation.counted act) (Evaluation.counted other)
  | mapFault {α : Type} {change : Fault → Fault} {act other : Evaluation α}
    (hc : ∀ fault, (change fault).cause = fault.cause) (h : Parallel Calls act other) :
    Parallel Calls (Act.mapFault change act) (Act.mapFault change other)
  | noting {act other : Evaluation Value} (h : Parallel Calls act other) :
    Parallel Calls (Evaluation.noting act) (Evaluation.noting other)
  | inBlock {α : Type} {act other : Evaluation α} (h : Parallel Calls act other) :
    Parallel Calls (Evaluation.inBlock act) (Evaluation.inBlock other)
  | declare (name : String) (v : Value) :
    Parallel Calls (modify fun machine => machine.withGlobals (machine.globals.declare name v))
      (modify fun machine => machine.withGlobals (machine.globals.declare name v))
  | collect (v : Value) : Parallel Calls (Evaluation.collect v) (Evaluation.collect v)
  | call {act other : Evaluation Value} (h : Calls act other) : Parallel Calls act other

namespace Evaluation.Parallel

variable {Calls : Evaluation Value → Evaluation Value → Prop} {α : Type}

theorem refuseAt (span : Span) (why : Refusal) :
    Parallel Calls (Evaluation.refuseAt span why : Evaluation α) (Evaluation.refuseAt span why) :=
  .fault _ (by simp [Fault.refusal, Fault.of, Fault.Cause.kind])

theorem ofExcept (result : Except Refusal α) :
    Parallel Calls (Act.ofExcept result : Evaluation α) (Act.ofExcept result) := by
  cases result with
  | ok value => exact .pure value
  | error why => exact .fault _ (by simp [Fault.refusal, Fault.of, Fault.Cause.kind])

theorem locating {act other : Evaluation α} (span : Span) (h : Parallel Calls act other) :
    Parallel Calls (Evaluation.locating span act) (Evaluation.locating span other) :=
  .mapFault (fun fault => fault.cause_locate span) h

theorem truth (what : String) (span : Span) (v : Value) :
    Parallel Calls (Evaluation.truth what span v) (Evaluation.truth what span v) := by
  cases v with
  | bool b => exact .pure b
  | _ => exact refuseAt _ _

theorem position (span : Span) (v : Value) :
    Parallel Calls (Evaluation.position span v) (Evaluation.position span v) := by
  cases v with
  | int n => exact .pure n
  | _ => exact refuseAt _ _

theorem iterated (span : Span) (v : Value) :
    Parallel Calls (Evaluation.iterated span v) (Evaluation.iterated span v) := by
  unfold Evaluation.iterated
  split
  · exact .pure _
  · exact refuseAt _ _

theorem collected (length : Nat) {items others : Evaluation (List Value)}
    (h : Parallel Calls items others) :
    Parallel Calls (Evaluation.collected length items) (Evaluation.collected length others) := by
  refine .bind (.metered (.checkLength _)) fun _ => .bind h fun values => .metered ?_
  exact .bind (.sequence _) fun s => .bind (.checkSequence s) fun _ => .pure s

theorem updatePlace (place : Place) {write : Value → Metered (Value × α)}
    (hw : ∀ old, (write old).Regular) :
    Parallel Calls (Evaluation.updatePlace place write) (Evaluation.updatePlace place write) := by
  refine .bind (.consult _) fun found => ?_
  cases found with
  | none => exact .bind (.consult _) fun why => refuseAt _ why
  | some root =>
    have hwritten : Metered.Regular (root.updateWithin place.steps write) :=
      .updateWithin (fun _ _ why _ => Fault.untimed_locate why _) hw
    exact .bind (.metered hwritten) fun written => .bind (.modifyLocals _) fun _ => .pure _

theorem store (place : Place) (op : Script.AssignOp) (v : Value) :
    Parallel Calls (Evaluation.store place op v) (Evaluation.store place op v) :=
  updatePlace place fun old => .bind (.assigned op old v) fun _ => .pure _

theorem rounds (each : Rounds) {body other : Value → Evaluation Flow}
    (h : ∀ item, Parallel Calls (body item) (other item)) (items : List Value) :
    Parallel Calls (Evaluation.rounds each body items) (Evaluation.rounds each other items) := by
  induction items with
  | nil => exact .pure _
  | cons item rest ih =>
    refine .bind (.countRounds each) fun _ => .bind (h item) fun flow => ?_
    cases flow with
    | giveBack v => exact .pure _
    | next => exact ih

/-- Two ways to call functions that are related wherever a function is called. -/
def Callers (Calls : Evaluation Value → Evaluation Value → Prop) (caller another : Caller) : Prop :=
  ∀ name args span, Parallel Calls (caller name args span) (another name args span)

variable {caller another : Caller}

theorem apply (hc : Callers Calls caller another) (callee : Value) (calleeSpan : Span)
    (args : Arguments) (callSpan : Span) :
    Parallel Calls (Evaluation.apply caller callee calleeSpan args callSpan)
      (Evaluation.apply another callee calleeSpan args callSpan) := by
  cases callee with
  | builtin word => exact .metered (.call word args)
  | function name => exact hc name args callSpan
  | _ => exact refuseAt _ _

mutual

/-- Expressions are evaluated in the same steps, however functions are called. -/
theorem eval (hc : Callers Calls caller another) (e : Expr) :
    Parallel Calls (Evaluation.eval caller e) (Evaluation.eval another e) := by
  unfold Evaluation.eval
  refine .counted (locating _ (.noting (.bind (.metered (.charge 1)) fun _ => ?_)))
  match e with
  | .int _ n => exact .pure _
  | .float _ x => exact .pure _
  | .text _ s => exact .pure _
  | .bool _ b => exact .pure _
  | .none _ => exact .pure _
  | .name _ name => exact .consult _
  | .list _ items => exact .bind (collected _ (evalAll hc items)) fun _ => .pure _
  | .tuple _ items => exact .bind (collected _ (evalAll hc items)) fun _ => .pure _
  | .unary _ .neg operand => exact .bind (eval hc operand) fun v => ofExcept _
  | .unary _ .not operand =>
    exact .bind (eval hc operand) fun v => .bind (truth _ _ v) fun b => .pure _
  | .binary _ op left right =>
    cases op with
    | and =>
      refine .bind (eval hc left) fun v => .bind (truth _ _ v) fun b => ?_
      cases b with
      | true => exact .bind (eval hc right) fun w => .bind (truth _ _ w) fun c => .pure _
      | false => exact .pure _
    | or =>
      refine .bind (eval hc left) fun v => .bind (truth _ _ v) fun b => ?_
      cases b with
      | true => exact .pure _
      | false => exact .bind (eval hc right) fun w => .bind (truth _ _ w) fun c => .pure _
    | _ =>
      exact .bind (eval hc left) fun a => .bind (eval hc right) fun b => .metered (.combine _ a b)
  | .call span callee args =>
    exact .bind (eval hc callee) fun target => .bind (evalArgs hc .empty args) fun args =>
      apply hc target callee.span args span
  | .method _ receiver method args =>
    refine locating _ ?_
    split
    · exact .bind (resolve hc receiver) fun place => .bind (evalArgs hc .empty args) fun args =>
        updatePlace place fun old => .method old _ args
    · exact .bind (eval hc receiver) fun object => .bind (evalArgs hc .empty args) fun args =>
        .bind (.metered (.method object _ args)) fun found => .pure _
  | .field _ object field =>
    exact .bind (eval hc object) fun v => locating _ (.metered (.readField v _))
  | .index _ object index =>
    exact .bind (eval hc object) fun v => .bind (eval hc index) fun w =>
      .bind (position _ w) fun p => locating _ (ofExcept _)
termination_by structural e

theorem evalAll (hc : Callers Calls caller another) (items : List Expr) :
    Parallel Calls (Evaluation.evalAll caller items) (Evaluation.evalAll another items) := by
  match items with
  | [] => exact .pure _
  | e :: rest => exact .bind (eval hc e) fun v => .bind (evalAll hc rest) fun vs => .pure _
termination_by structural items

theorem evalArgs (hc : Callers Calls caller another) (done : Arguments) (args : List Argument) :
    Parallel Calls (Evaluation.evalArgs caller done args)
      (Evaluation.evalArgs another done args) := by
  match args with
  | [] => exact .pure _
  | .positional e :: rest => exact .bind (eval hc e) fun v => evalArgs hc (done.add v) rest
  | .keyword name e :: rest =>
    exact .bind (eval hc e) fun v => .bind (locating _ (ofExcept _)) fun found =>
      evalArgs hc found rest
termination_by structural args

theorem resolve (hc : Callers Calls caller another) (e : Expr) :
    Parallel Calls (Evaluation.resolve caller e) (Evaluation.resolve another e) := by
  match e with
  | .name span name => exact .pure _
  | .field _ object field => exact .bind (resolve hc object) fun place => .pure _
  | .index _ object index =>
    exact .bind (resolve hc object) fun place => .bind (eval hc index) fun v =>
      .bind (position _ v) fun p => .pure _
  | .int _ _ | .float _ _ | .text _ _ | .bool _ _ | .none _ | .list _ _ | .tuple _ _
  | .unary _ _ _ | .binary _ _ _ _ | .call _ _ _ | .method _ _ _ _ => exact refuseAt _ _
termination_by structural e

end

mutual

/-- Statements are run in the same steps, however functions are called. -/
theorem exec (hc : Callers Calls caller another) (s : Stmt) :
    Parallel Calls (Evaluation.exec caller s) (Evaluation.exec another s) := by
  unfold Evaluation.exec
  refine .counted (.bind (locating _ (.metered (.charge 1))) fun _ => ?_)
  match s with
  | .bind _ name value =>
    exact .bind (eval hc value) fun v => .bind (.modifyLocals _) fun _ => .pure _
  | .assign _ target op value =>
    exact .bind (eval hc value) fun v => .bind (resolve hc target) fun place =>
      .bind (locating _ (store place op v)) fun _ => .pure _
  | .expr _ value => exact .bind (eval hc value) fun v => .pure _
  | .giveBack _ none => exact .pure _
  | .giveBack _ (some value) => exact .bind (eval hc value) fun v => .pure _
  | .choose _ branches otherwise =>
    refine .bind (execBranches hc branches) fun found => ?_
    cases found with
    | some flow => exact .pure _
    | none => exact execOtherwise hc otherwise
  | .loop _ var iterable (.mk _ body) =>
    refine .bind (eval hc iterable) fun v => .bind (iterated _ v) fun items => ?_
    exact rounds _ (fun item => .inBlock (.bind (.modifyLocals _) fun _ => execAll hc body)) items
termination_by structural s

theorem execBranches (hc : Callers Calls caller another) (branches : List Branch) :
    Parallel Calls (Evaluation.execBranches caller branches)
      (Evaluation.execBranches another branches) := by
  match branches with
  | [] => exact .pure _
  | .mk condition block :: rest =>
    refine .bind (eval hc condition) fun v => .bind (truth _ _ v) fun b => ?_
    cases b with
    | true => exact .bind (execBlock hc block) fun flow => .pure _
    | false => exact execBranches hc rest
termination_by structural branches

theorem execOtherwise (hc : Callers Calls caller another) (otherwise : Option Block) :
    Parallel Calls (Evaluation.execOtherwise caller otherwise)
      (Evaluation.execOtherwise another otherwise) := by
  match otherwise with
  | none => exact .pure _
  | some block => exact execBlock hc block
termination_by structural otherwise

theorem execBlock (hc : Callers Calls caller another) (block : Block) :
    Parallel Calls (Evaluation.execBlock caller block) (Evaluation.execBlock another block) := by
  match block with
  | .mk _ statements => exact .inBlock (execAll hc statements)
termination_by structural block

theorem execAll (hc : Callers Calls caller another) (statements : List Stmt) :
    Parallel Calls (Evaluation.execAll caller statements)
      (Evaluation.execAll another statements) := by
  match statements with
  | [] => exact .pure _
  | s :: rest =>
    refine .bind (exec hc s) fun flow => ?_
    cases flow with
    | giveBack v => exact .pure _
    | next => exact execAll hc rest
termination_by structural statements

end

/-- Functions are called by name in the same steps, given that they are entered alike. -/
theorem callNamed {enter other : Entrance}
    (he : ∀ function params span, Calls (enter function params span) (other function params span)) :
    Callers Calls (Evaluation.callNamed enter) (Evaluation.callNamed other) :=
  fun _ _ _ => .bind (.consult _) fun function => .bind (ofExcept _) fun params =>
    .call (he function params _)

theorem callEntryPoint {enter other : Entrance}
    (he : ∀ function params span, Calls (enter function params span) (other function params span))
    (program : Program) :
    Parallel Calls (Evaluation.callEntryPoint enter program)
      (Evaluation.callEntryPoint other program) := by
  refine .bind (.consult _) fun found => ?_
  cases found with
  | some function =>
    obtain ⟨name, params, body, span⟩ := function
    cases params with
    | nil => exact .call (he _ _ _)
    | cons first rest => exact .fault _ (by simp [Fault.of, Fault.Cause.kind])
  | none =>
    refine .bind (.consult _) fun found => ?_
    cases found with
    | none => exact .fault _ (by simp [Fault.of, Fault.Cause.kind])
    | some v =>
      dsimp only
      split
      · exact .fault _ (by simp [Fault.of, Fault.Cause.kind])
      · exact .fault _ (by simp [Fault.of, Fault.Cause.kind])

theorem loadConstants (hc : Callers Calls caller another) (items : List Item) :
    Parallel Calls (Evaluation.loadConstants caller items)
      (Evaluation.loadConstants another items) := by
  induction items with
  | nil => exact .pure _
  | cons item rest ih =>
    cases item with
    | function definition => exact ih
    | constant name value =>
      have hvalue := Parallel.mapFault (fun fault => fault.cause_leave topLevel name.span)
        (eval hc value)
      exact .bind hvalue fun v => .bind (.declare _ v) fun _ => ih

/-- A whole script is run in the same steps, given that functions are entered alike. -/
theorem runProgram {enter other : Entrance}
    (he : ∀ function params span, Calls (enter function params span) (other function params span))
    (program : Program) :
    Parallel Calls (Evaluation.runProgram enter program) (Evaluation.runProgram other program) :=
  .bind (loadConstants (callNamed he) program.items) fun _ =>
    .bind (callEntryPoint he program) fun v => .collect v

end Evaluation.Parallel

end LandPattern
