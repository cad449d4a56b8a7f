import LandPattern.Proofs.Run.Ensures
import LandPattern.Proofs.Run.Regular
import LandPattern.Proofs.Script.Breaches
import LandPattern.Proofs.Script.Nesting
import LandPattern.Run.Program
import LandPattern.Script.Compile

/-!
# The peak of a run

How many statements and expressions are evaluated at one moment. Inside one function this is bounded
by the heights of its trees, and every call adds as much again, as far as calls may be nested.
-/

namespace LandPattern

open Script (Argument Block Branch Depths Expr Function Item Program Span Stmt)

/-- So many statements and expressions are being evaluated, and never were there more than `most`. -/
structure Meter.AtLevel (most level : Nat) (meter : Meter) : Prop where
  active : meter.active = level
  peak : meter.peak ≤ most

theorem Meter.AtLevel.begin {most level : Nat} {meter : Meter} (h : meter.AtLevel most level)
    (hl : level + 1 ≤ most) : meter.begin.AtLevel most (level + 1) := by
  have hactive := h.active
  have hpeak := h.peak
  refine ⟨congrArg (· + 1) hactive, ?_⟩
  simp only [Meter.begin]
  omega

theorem Meter.AtLevel.finish {most level : Nat} {meter : Meter}
    (h : meter.AtLevel most (level + 1)) : meter.finish.AtLevel most level := by
  have hactive := h.active
  refine ⟨?_, h.peak⟩
  simp only [Meter.finish]
  omega

/-- What the vocabulary does begins and ends no statement and no expression. -/
theorem Metered.Regular.ensures_atLevel {α : Type} {act : Metered α} (h : act.Regular)
    (limits : Limits) (most level : Nat) :
    Act.Ensures limits (Meter.AtLevel most level) act fun _ => True := by
  have hcheck : ∀ (bound : Limits → Nat) (size : Nat) (why : Nat → Refusal),
      Act.Ensures limits (Meter.AtLevel most level) (do
        let limit := bound (← read)
        if limit < size then Metered.refuse (why limit) : Metered Unit) fun _ => True :=
    fun _ _ _ => .bind .read fun _ _ => .ite (fun _ => .fault _) fun _ => .pure trivial
  have hcharge : ∀ cost, Act.Ensures limits (Meter.AtLevel most level) (Metered.charge cost)
      fun _ => True := fun cost =>
    .bind (.modify fun meter hmeter => ⟨hmeter.active, hmeter.peak⟩) fun _ _ =>
      .bind .read fun found _ => .bind .get fun _ _ => .ite (fun _ => .fault _) fun _ => .pure trivial
  induction h with
  | pure value => exact .pure trivial
  | bind _ _ ih ihn => exact .bind ih fun value _ => ihn value
  | fault fault _ => exact .fault fault
  | charge cost => exact hcharge cost
  | chargeRepetition length times =>
    exact .bind (hcharge _) fun _ _ => .modify fun meter hmeter => ⟨hmeter.active, hmeter.peak⟩
  | freshStamp => exact fun meter hmeter => ⟨⟨hmeter.active, hmeter.peak⟩, fun _ _ => trivial⟩
  | checkLength length => exact hcheck Limits.collection length fun limit => .tooLong length limit
  | checkRepetition length times =>
    exact hcheck Limits.collection (length * times) fun limit =>
      .tooLong (saturatingProduct length times) limit
  | checkDepth depth => exact hcheck Limits.valueDepth depth fun limit => .tooDeep limit
  | literalOf v =>
    refine .bind .read fun found _ => ?_
    dsimp only
    split
    · exact .pure trivial
    · exact .fault _

/-- The same of a machine, read off its meter. -/
def Machine.AtLevel (most level : Nat) (machine : Machine) : Prop :=
  machine.meter.AtLevel most level

namespace Evaluation

variable {context : Context} {most level : Nat} {α β : Type}

/-- The step ends at the level where it begins, also when it ends with a fault, and stays below
`most` on its way. -/
abbrev Stays (context : Context) (most level : Nat) (act : Evaluation α) : Prop :=
  Act.Ensures context (Machine.AtLevel most level) act fun _ => True

theorem stays_pure (value : α) : Stays context most level (pure value) := .pure trivial

theorem stays_bind {act : Evaluation α} {next : α → Evaluation β}
    (h : Stays context most level act) (hn : ∀ value, Stays context most level (next value)) :
    Stays context most level (act >>= next) :=
  .bind h fun value _ => hn value

theorem stays_ofMetered {act : Metered α} (h : act.Regular) :
    Stays context most level (ofMetered act) := by
  intro machine hmachine
  have hact := h.ensures_atLevel context.limits most level machine.meter hmachine
  exact hact

theorem stays_consult
    (look : (String → Option Function) → Scope → Option Locals → Except Refusal α) :
    Stays context most level (consult look) :=
  ensures_consult fun _ _ _ _ => trivial

theorem stays_ofExcept (result : Except Refusal α) :
    Stays context most level (Act.ofExcept result) := .ofExcept fun _ _ => trivial

theorem stays_modifyLocals (change : Locals → Locals) :
    Stays context most level (modifyLocals change) :=
  ensures_modifyLocals fun _ _ _ _ hmachine => hmachine

theorem stays_noting {act : Evaluation Value} (h : Stays context most level act) :
    Stays context most level (noting act) :=
  stays_bind h fun v => .bind (.modify fun _ hmachine => hmachine) fun _ _ => stays_pure v

/-- What a statement or an expression evaluates stands one level above it. -/
theorem stays_counted {act : Evaluation α} (hl : level + 1 ≤ most)
    (h : Stays context most (level + 1) act) : Stays context most level (counted act) := by
  intro machine hmachine
  have hafter := (h (machine.withMeter machine.meter.begin) (hmachine.begin hl)).1
  exact ⟨hafter.finish, fun _ _ => trivial⟩

theorem stays_inBlock {act : Evaluation α} (h : Stays context most level act) :
    Stays context most level (inBlock act) :=
  ensures_inBlock (fun _ _ _ _ hmachine => hmachine) (fun _ _ _ _ hmachine => hmachine) h

theorem stays_inCall (locals : Locals) {act : Evaluation α} (h : Stays context most level act) :
    Stays context most level (inCall locals act) :=
  stays_bind (.modify fun _ hmachine => hmachine) fun _ => .closing (fun _ hmachine => hmachine) h

theorem stays_iterated (span : Span) (v : Value) : Stays context most level (iterated span v) :=
  (ensures_iterated span v).weaken fun _ _ => trivial

theorem stays_collected (length : Nat) {items : Evaluation (List Value)}
    (h : Stays context most level items) : Stays context most level (collected length items) := by
  refine stays_bind (stays_ofMetered (.checkLength _)) fun _ => stays_bind h fun values => ?_
  exact stays_ofMetered (.bind (.sequence _) fun s => .bind (.checkSequence s) fun _ => .pure s)

theorem stays_updatePlace (place : Place) {write : Value → Metered (Value × α)}
    (hw : ∀ old, (write old).Regular) : Stays context most level (updatePlace place write) := by
  refine stays_bind (stays_consult _) fun found => ?_
  cases found with
  | none => exact stays_bind (stays_consult _) fun _ => .fault _
  | some root =>
    have hwritten : Metered.Regular (root.updateWithin place.steps write) :=
      .updateWithin (fun _ _ why _ => Fault.untimed_locate why _) hw
    exact stays_bind (stays_ofMetered hwritten) fun _ =>
      stays_bind (stays_modifyLocals _) fun _ => stays_pure _

theorem stays_store (place : Place) (op : Script.AssignOp) (v : Value) :
    Stays context most level (store place op v) :=
  stays_updatePlace place fun old => .bind (.assigned op old v) fun _ => .pure _

theorem stays_rounds (each : Rounds) {body : Value → Evaluation Flow}
    (h : ∀ item, Stays context most level (body item)) (items : List Value) :
    Stays context most level (rounds each body items) := by
  have hcount : Stays context most level (ofMetered (Metered.countRounds each)) :=
    fun machine hmachine => ⟨⟨hmachine.active, hmachine.peak⟩, fun _ _ => trivial⟩
  exact ensures_rounds hcount trivial fun item _ => h item

section Trees

variable {caller : Caller} {calls limit : Nat}

/-- Calls rise by so much at most, wherever there is room for it. -/
def CallsStay (context : Context) (most calls : Nat) (caller : Caller) : Prop :=
  ∀ level, level + calls ≤ most → ∀ name args span,
    Stays context most level (caller name args span)

theorem stays_apply (hc : CallsStay context most calls caller) (hl : level + calls ≤ most)
    (callee : Value) (calleeSpan : Span) (args : Arguments) (callSpan : Span) :
    Stays context most level (apply caller callee calleeSpan args callSpan) := by
  cases callee with
  | builtin word => exact stays_ofMetered (.call word args)
  | function name => exact hc level hl name args callSpan
  | _ => exact .fault _

mutual

/-- An expression rises by its height, and by what its calls rise. -/
theorem stays_eval (hc : CallsStay context most calls caller) (level : Nat) (e : Expr)
    (hl : level + (e.height + calls) ≤ most) : Stays context most level (eval caller e) := by
  have hpos := e.height_pos
  unfold eval
  refine stays_counted (by omega) (.mapFault (stays_noting (stays_bind ?_ fun _ => ?_)))
  · exact stays_ofMetered (.charge 1)
  match e with
  | .int _ n => exact stays_pure _
  | .float _ x => exact stays_pure _
  | .text _ s => exact stays_pure _
  | .bool _ b => exact stays_pure _
  | .none _ => exact stays_pure _
  | .name _ name => exact stays_consult _
  | .list _ items | .tuple _ items =>
    rw [Expr.height] at hl
    have hitems := stays_evalAll hc (level + 1) items (by omega)
    exact stays_bind (stays_collected _ hitems) fun _ => stays_pure _
  | .unary _ op operand =>
    rw [Expr.height] at hl
    have hoperand := stays_eval hc (level + 1) operand (by omega)
    cases op with
    | neg => exact stays_bind hoperand fun v => stays_ofExcept _
    | not =>
      exact stays_bind hoperand fun v => stays_bind (ensures_truth _ _ v) fun _ => stays_pure _
  | .binary _ op left right =>
    rw [Expr.height] at hl
    have hleft := stays_eval hc (level + 1) left (by omega)
    have hright := stays_eval hc (level + 1) right (by omega)
    cases op with
    | and =>
      refine stays_bind hleft fun v => stays_bind (ensures_truth _ _ v) fun b => ?_
      cases b with
      | true =>
        exact stays_bind hright fun w => stays_bind (ensures_truth _ _ w) fun _ => stays_pure _
      | false => exact stays_pure _
    | or =>
      refine stays_bind hleft fun v => stays_bind (ensures_truth _ _ v) fun b => ?_
      cases b with
      | true => exact stays_pure _
      | false =>
        exact stays_bind hright fun w => stays_bind (ensures_truth _ _ w) fun _ => stays_pure _
    | _ =>
      exact stays_bind hleft fun a => stays_bind hright fun b => stays_ofMetered (.combine _ a b)
  | .call _ callee args =>
    rw [Expr.height] at hl
    have hcallee := stays_eval hc (level + 1) callee (by omega)
    have hargs := stays_evalArgs hc (level + 1) .empty args (by omega)
    exact stays_bind hcallee fun target => stays_bind hargs fun found =>
      stays_apply hc (by omega) target _ found _
  | .method _ receiver method args =>
    rw [Expr.height] at hl
    have hargs := stays_evalArgs hc (level + 1) .empty args (by omega)
    refine .mapFault ?_
    split
    · have hplace := stays_resolve hc (level + 1) receiver (by omega)
      exact stays_bind hplace fun place => stays_bind hargs fun found =>
        stays_updatePlace place fun old => .method old _ found
    · have hreceiver := stays_eval hc (level + 1) receiver (by omega)
      exact stays_bind hreceiver fun object => stays_bind hargs fun found =>
        stays_bind (stays_ofMetered (.method object _ found)) fun _ => stays_pure _
  | .field _ object field =>
    rw [Expr.height] at hl
    have hobject := stays_eval hc (level + 1) object (by omega)
    exact stays_bind hobject fun v => .mapFault (stays_ofMetered (.readField v _))
  | .index _ object position =>
    rw [Expr.height] at hl
    have hobject := stays_eval hc (level + 1) object (by omega)
    have hposition := stays_eval hc (level + 1) position (by omega)
    exact stays_bind hobject fun v => stays_bind hposition fun w =>
      stays_bind (ensures_position _ w) fun _ => .mapFault (stays_ofExcept _)
termination_by structural e

theorem stays_evalAll (hc : CallsStay context most calls caller) (level : Nat) (items : List Expr)
    (hl : level + (Script.itemHeight items + calls) ≤ most) :
    Stays context most level (evalAll caller items) := by
  match items with
  | [] => exact stays_pure _
  | e :: rest =>
    rw [Script.itemHeight] at hl
    have hfirst := stays_eval hc level e (by omega)
    have hrest := stays_evalAll hc level rest (by omega)
    exact stays_bind hfirst fun v => stays_bind hrest fun _ => stays_pure _
termination_by structural items

theorem stays_evalArgs (hc : CallsStay context most calls caller) (level : Nat) (done : Arguments)
    (args : List Argument) (hl : level + (Script.argumentHeight args + calls) ≤ most) :
    Stays context most level (evalArgs caller done args) := by
  match args with
  | [] => exact stays_pure _
  | .positional e :: rest =>
    rw [Script.argumentHeight] at hl
    have hfirst := stays_eval hc level e (by omega)
    exact stays_bind hfirst fun v => stays_evalArgs hc level (done.add v) rest (by omega)
  | .keyword name e :: rest =>
    rw [Script.argumentHeight] at hl
    have hfirst := stays_eval hc level e (by omega)
    exact stays_bind hfirst fun v => stays_bind (.mapFault (stays_ofExcept _)) fun found =>
      stays_evalArgs hc level found rest (by omega)
termination_by structural args

/-- A place rises no higher than the same expression would, since it evaluates its indices alone. -/
theorem stays_resolve (hc : CallsStay context most calls caller) (level : Nat) (e : Expr)
    (hl : level + (e.height + calls) ≤ most) : Stays context most level (resolve caller e) := by
  match e with
  | .name span name => exact stays_pure _
  | .field _ object field =>
    rw [Expr.height] at hl
    have hobject := stays_resolve hc level object (by omega)
    exact stays_bind hobject fun place => stays_pure _
  | .index _ object position =>
    rw [Expr.height] at hl
    have hobject := stays_resolve hc level object (by omega)
    have hposition := stays_eval hc level position (by omega)
    exact stays_bind hobject fun place => stays_bind hposition fun v =>
      stays_bind (ensures_position _ v) fun _ => stays_pure _
  | .int _ _ | .float _ _ | .text _ _ | .bool _ _ | .none _ | .list _ _ | .tuple _ _
  | .unary _ _ _ | .binary _ _ _ _ | .call _ _ _ | .method _ _ _ _ => exact .fault _
termination_by structural e

end

mutual

/-- A statement rises by one level for every block around a part of it, and then as its expressions
do. -/
theorem stays_exec (hc : CallsStay context most calls caller) (level : Nat) (s : Stmt)
    (hp : s.problems limit = []) (hl : level + 1 + (s.height + limit + calls) ≤ most) :
    Stays context most level (exec caller s) := by
  have hvalue : ∀ e : Expr, e.problems limit = [] →
      Stays context most (level + 1) (eval caller e) := by
    intro e he
    have hheight := Expr.height_le_of_problems he
    exact stays_eval hc (level + 1) e (by omega)
  unfold exec
  refine stays_counted (by omega) (stays_bind ?_ fun _ => ?_)
  · exact .mapFault (stays_ofMetered (.charge 1))
  match s with
  | .bind _ name value =>
    exact stays_bind (hvalue value hp) fun v => stays_bind (stays_modifyLocals _) fun _ =>
      stays_pure _
  | .assign _ target op value =>
    rw [Stmt.problems, List.append_eq_nil_iff, List.append_eq_nil_iff] at hp
    have htarget := Expr.height_le_of_problems hp.1.2
    have hplace := stays_resolve hc (level + 1) target (by omega)
    exact stays_bind (hvalue value hp.2) fun v => stays_bind hplace fun place =>
      stays_bind (.mapFault (stays_store place op v)) fun _ => stays_pure _
  | .expr _ value => exact stays_bind (hvalue value hp) fun v => stays_pure _
  | .giveBack _ none => exact stays_pure _
  | .giveBack _ (some value) => exact stays_bind (hvalue value hp) fun v => stays_pure _
  | .choose _ branches otherwise =>
    rw [Stmt.problems, List.append_eq_nil_iff] at hp
    rw [Stmt.height] at hl
    have hbranches := stays_execBranches hc (level + 1) branches hp.1 (by omega)
    have hotherwise := stays_execOtherwise hc (level + 1) otherwise hp.2 (by omega)
    refine stays_bind hbranches fun found => ?_
    cases found with
    | some flow => exact stays_pure _
    | none => exact hotherwise
  | .loop _ var iterable (.mk _ body) =>
    rw [Stmt.problems, List.append_eq_nil_iff, Block.problems] at hp
    rw [Stmt.height, Block.height] at hl
    have hbody := stays_execAll hc (level + 1) body hp.2 (by omega)
    have hround : ∀ item, Stays context most (level + 1) (inBlock do
        modifyLocals fun locals => locals.declare var.text item
        execAll caller body) :=
      fun item => stays_inBlock (stays_bind (stays_modifyLocals _) fun _ => hbody)
    exact stays_bind (hvalue iterable hp.1) fun v => stays_bind (stays_iterated _ v) fun items =>
      stays_rounds _ hround items
termination_by structural s

theorem stays_execBranches (hc : CallsStay context most calls caller) (level : Nat)
    (branches : List Branch) (hp : Script.branchProblems limit branches = [])
    (hl : level + (Script.branchHeight branches + limit + calls) ≤ most) :
    Stays context most level (execBranches caller branches) := by
  match branches with
  | [] => exact stays_pure _
  | .mk condition block :: rest =>
    rw [Script.branchProblems, List.append_eq_nil_iff, Branch.problems, List.append_eq_nil_iff]
      at hp
    rw [Script.branchHeight] at hl
    have hheight := Expr.height_le_of_problems hp.1.1
    have hcondition := stays_eval hc level condition (by omega)
    have hblock := stays_execBlock hc level block hp.1.2 (by omega)
    have hrest := stays_execBranches hc level rest hp.2 (by omega)
    refine stays_bind hcondition fun v => stays_bind (ensures_truth _ _ v) fun b => ?_
    cases b with
    | true => exact stays_bind hblock fun flow => stays_pure _
    | false => exact hrest
termination_by structural branches

theorem stays_execOtherwise (hc : CallsStay context most calls caller) (level : Nat)
    (otherwise : Option Block) (hp : Script.elseProblems limit otherwise = [])
    (hl : level + (Script.otherwiseHeight otherwise + limit + calls) ≤ most) :
    Stays context most level (execOtherwise caller otherwise) := by
  match otherwise with
  | none => exact stays_pure _
  | some block => exact stays_execBlock hc level block hp hl
termination_by structural otherwise

theorem stays_execBlock (hc : CallsStay context most calls caller) (level : Nat) (block : Block)
    (hp : block.problems limit = []) (hl : level + (block.height + limit + calls) ≤ most) :
    Stays context most level (execBlock caller block) := by
  match block with
  | .mk _ statements =>
    rw [Block.problems] at hp
    rw [Block.height] at hl
    exact stays_inBlock (stays_execAll hc level statements hp (by omega))
termination_by structural block

theorem stays_execAll (hc : CallsStay context most calls caller) (level : Nat)
    (statements : List Stmt) (hp : Script.statementProblems limit statements = [])
    (hl : level + 1 + (Script.statementHeight statements + limit + calls) ≤ most) :
    Stays context most level (execAll caller statements) := by
  match statements with
  | [] => exact stays_pure _
  | s :: rest =>
    rw [Script.statementProblems, List.append_eq_nil_iff] at hp
    rw [Script.statementHeight] at hl
    have hfirst := stays_exec hc level s hp.1 (by omega)
    have hrest := stays_execAll hc level rest hp.2 (by omega)
    refine stays_bind hfirst fun flow => ?_
    cases flow with
    | giveBack v => exact stays_pure _
    | next => exact hrest
termination_by structural statements

end

end Trees

section Programs

variable {nesting limit : Nat}

/-- Every function of the context rises by so much at most. -/
def EntersStay (context : Context) (most calls : Nat) (enter : Entrance) : Prop :=
  ∀ level, level + calls ≤ most → ∀ function ∈ context.functions, ∀ params span,
    Stays context most level (enter function params span)

theorem stays_callNamed {calls : Nat} {enter : Entrance}
    (he : EntersStay context most calls enter) : CallsStay context most calls (callNamed enter) := by
  intro level hl name args span
  exact ensures_callNamed fun function hmem params _ => he level hl function hmem params span

/-- The functions are as an accepted script has them: their blocks lie inside one another only so
often, and their expressions are no higher than the limit. -/
def Bounded (context : Context) (nesting limit : Nat) : Prop :=
  ∀ function ∈ context.functions,
    function.body.height ≤ nesting ∧ function.body.problems limit = []

/-- Every call that may still be opened rises by the heights of one function. -/
theorem stays_enter (hb : Bounded context nesting limit) (remaining : Nat) :
    EntersStay context most (remaining * (nesting + limit)) (enter remaining) := by
  induction remaining with
  | zero => exact fun _ _ _ _ _ span => ensures_refuseCall span
  | succ rest ih =>
    intro level hl function hmem params span
    obtain ⟨hheight, hproblems⟩ := hb function hmem
    rw [Nat.succ_mul] at hl
    have hbody := stays_execBlock (stays_callNamed ih) level function.body hproblems (by omega)
    exact ensures_runBody (stays_inCall _ hbody) (fun _ _ => trivial) trivial

theorem stays_loadConstants {calls : Nat} {caller : Caller}
    (hc : CallsStay context most calls caller) (items : List Item)
    (hp : ∀ item ∈ items, item.valueProblems limit = []) (hl : level + (limit + calls) ≤ most) :
    Stays context most level (loadConstants caller items) := by
  have hvalue : ∀ name value, .constant name value ∈ items →
      Stays context most level (eval caller value) := by
    intro name value hmem
    have hheight : value.height ≤ limit := Expr.height_le_of_problems (hp _ hmem)
    exact stays_eval hc level value (by omega)
  exact ensures_loadConstants hvalue fun _ _ _ hmachine _ => hmachine

theorem stays_callEntryPoint {calls : Nat} {enter : Entrance}
    (he : EntersStay context most calls enter) (hl : level + calls ≤ most) (program : Program) :
    Stays context most level (callEntryPoint enter program) :=
  ensures_callEntryPoint fun function hmem => he level hl function hmem [] function.name.span

end Programs

end Evaluation

/-- The statements and expressions that are evaluated at one moment are bounded by the depths under
which a script was read, once for every call that may be open and once for the outside. -/
theorem Script.Program.peak_le_of_ofText {depths : Depths} {source : String} {program : Program}
    (h : Program.ofText depths source = .ok program) (limits : Limits) :
    (program.run limits).2.meter.peak ≤
      (limits.callDepth + 1) * (depths.nesting + depths.expression) := by
  obtain ⟨tokens, -, hbrackets, hprogram, hproblems⟩ := Program.stages_of_ofText h
  rw [Program.problems, List.append_eq_nil_iff, List.append_eq_nil_iff] at hproblems
  obtain ⟨⟨-, hfunctions⟩, hconstants⟩ := hproblems
  have hbounded : Evaluation.Bounded ⟨program.functions, limits⟩ depths.nesting
      depths.expression := by
    intro function hmem
    refine ⟨Program.height_le_of_tooDeepBracket? hprogram hbrackets function hmem, ?_⟩
    have hfunction := List.flatMap_eq_nil_iff.1 hfunctions function hmem
    exact (List.append_eq_nil_iff.1 hfunction).2
  have henter : Evaluation.EntersStay ⟨program.functions, limits⟩
      ((limits.callDepth + 1) * (depths.nesting + depths.expression))
      (limits.callDepth * (depths.nesting + depths.expression))
      (Evaluation.enter limits.callDepth) := Evaluation.stays_enter hbounded limits.callDepth
  have hroom : 0 + (depths.expression + limits.callDepth * (depths.nesting + depths.expression)) ≤
      (limits.callDepth + 1) * (depths.nesting + depths.expression) := by
    rw [Nat.succ_mul]
    omega
  have hrun : Evaluation.Stays ⟨program.functions, limits⟩
      ((limits.callDepth + 1) * (depths.nesting + depths.expression)) 0
      (Evaluation.runProgram (Evaluation.enter limits.callDepth) program) := by
    refine Evaluation.stays_bind ?_ fun _ => Evaluation.stays_bind ?_ fun v => ?_
    · exact Evaluation.stays_loadConstants (Evaluation.stays_callNamed henter) program.items
        (List.flatMap_eq_nil_iff.1 hconstants) hroom
    · exact Evaluation.stays_callEntryPoint henter (by omega) program
    · exact (Evaluation.ensures_collect v).weaken fun _ _ => trivial
  exact (hrun Machine.start ⟨rfl, Nat.zero_le _⟩).1.peak

end LandPattern
