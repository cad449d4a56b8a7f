import LandPattern.Footprint
import LandPattern.Proofs.Run.Endings
import LandPattern.Proofs.Run.Parallel
import LandPattern.Proofs.Values.Writing

/-!
# The budget is a threshold

How many operations an evaluation charges does not depend on how many it may charge. Under a budget
that covers them it ends in one way, and under a smaller budget with the fault of that budget.
-/

namespace LandPattern

section

variable {ρ σ α β : Type} (budgeted : ρ → Nat → ρ) (spent : σ → Nat)

/-- Every budget that covers what is spent leads to the same outcome, which is no timeout, and every
smaller one, as far as it covers what was spent before, to its own fault. -/
def Threshold (start : Nat) (run : Nat → Except Fault α × σ) : Prop :=
  ∃ result after, start ≤ spent after ∧
    (∀ fault, result = .error fault → fault.cause.kind ≠ .timeout) ∧
    (∀ budget, spent after ≤ budget → run budget = (result, after)) ∧
    ∀ budget, start ≤ budget → budget < spent after →
      ∃ fault state, run budget = (.error fault, state) ∧ fault.cause = .budget budget

/-- Wherever the act begins, the budget is a threshold for it. -/
def Act.Sharp (act : Act ρ σ α) : Prop :=
  ∀ context state, Threshold spent (spent state) fun budget =>
    act.outcome (budgeted context budget) state

namespace Act.Sharp

variable {budgeted spent}

/-- Nothing is spent, and the budget does not matter. -/
theorem steady {act : Act ρ σ α}
    (h : ∀ context state, ∃ result after, spent after = spent state ∧
      (∀ fault, result = .error fault → fault.cause.kind ≠ .timeout) ∧
      ∀ budget, act.outcome (budgeted context budget) state = (result, after)) :
    Sharp budgeted spent act := by
  intro context state
  obtain ⟨result, after, hspent, hresult, hrun⟩ := h context state
  refine ⟨result, after, Nat.le_of_eq hspent.symm, hresult, fun budget _ => hrun budget, ?_⟩
  intro budget hstart hlt
  rw [hspent] at hlt
  exact absurd hlt (Nat.not_lt.mpr hstart)

theorem pure (value : α) : Sharp budgeted spent (pure value) :=
  .steady fun _ state => ⟨.ok value, state, rfl, fun _ h => (by cases h), fun _ => rfl⟩

theorem fault {fault : Fault} (h : fault.cause.kind ≠ .timeout) :
    Sharp budgeted spent (throw fault : Act ρ σ α) :=
  .steady fun _ state => ⟨.error fault, state, rfl, fun _ heq => (by cases heq; exact h),
    fun _ => rfl⟩

/-- The second act has its threshold behind that of the first one. -/
theorem bind {act : Act ρ σ α} {next : α → Act ρ σ β} (h : Sharp budgeted spent act)
    (hn : ∀ value, Sharp budgeted spent (next value)) : Sharp budgeted spent (act >>= next) := by
  intro context state
  obtain ⟨result, after, hstart, hresult, henough, hshort⟩ := h context state
  cases result with
  | error fault =>
    refine ⟨.error fault, after, hstart, ?_, ?_, ?_⟩
    · rintro _ ⟨⟩
      exact hresult fault rfl
    · intro budget hle
      exact outcome_bind_error _ _ (henough budget hle) next
    · intro budget hle hlt
      obtain ⟨found, left, hrun, hcause⟩ := hshort budget hle hlt
      exact ⟨found, left, outcome_bind_error _ _ hrun next, hcause⟩
  | ok value =>
    obtain ⟨final, last, hafter, hfinal, hall, hsmall⟩ := hn value context after
    refine ⟨final, last, Nat.le_trans hstart hafter, hfinal, ?_, ?_⟩
    · intro budget hle
      dsimp only
      rw [outcome_bind_ok _ _ (henough budget (Nat.le_trans hafter hle)) next]
      exact hall budget hle
    · intro budget hle hlt
      by_cases hcovers : spent after ≤ budget
      · obtain ⟨found, left, hrun, hcause⟩ := hsmall budget hcovers hlt
        refine ⟨found, left, ?_, hcause⟩
        dsimp only
        rw [outcome_bind_ok _ _ (henough budget hcovers) next]
        exact hrun
      · obtain ⟨found, left, hrun, hcause⟩ := hshort budget hle (Nat.lt_of_not_le hcovers)
        exact ⟨found, left, outcome_bind_error _ _ hrun next, hcause⟩

theorem modify {change : σ → σ} (h : ∀ state, spent (change state) = spent state) :
    Sharp budgeted spent (modify change) :=
  .steady fun _ state => ⟨.ok ⟨⟩, change state, h state, fun _ heq => (by cases heq), fun _ => rfl⟩

/-- A fault that is changed keeps its cause, so it tells the same budget. -/
theorem mapFault {change : Fault → Fault} {act : Act ρ σ α}
    (hc : ∀ fault, (change fault).cause = fault.cause) (h : Sharp budgeted spent act) :
    Sharp budgeted spent (Act.mapFault change act) := by
  intro context state
  obtain ⟨result, after, hstart, hresult, henough, hshort⟩ := h context state
  refine ⟨result.mapError change, after, hstart, ?_, ?_, ?_⟩
  · intro fault heq
    cases result with
    | ok value => cases heq
    | error found =>
      cases heq
      rw [hc]
      exact hresult found rfl
  · intro budget hle
    have hrun := henough budget hle
    dsimp only at hrun ⊢
    rw [outcome_mapFault, hrun]
  · intro budget hle hlt
    obtain ⟨found, left, hrun, hcause⟩ := hshort budget hle hlt
    refine ⟨change found, left, ?_, by rw [hc, hcause]⟩
    dsimp only at hrun ⊢
    rw [outcome_mapFault, hrun]
    rfl

/-- What is closed behind an act costs nothing. -/
theorem closing {close : σ → σ} {act : Act ρ σ α} (hc : ∀ state, spent (close state) = spent state)
    (h : Sharp budgeted spent act) : Sharp budgeted spent (Act.closing close act) := by
  intro context state
  obtain ⟨result, after, hstart, hresult, henough, hshort⟩ := h context state
  refine ⟨result, close after, by rw [hc]; exact hstart, hresult, ?_, ?_⟩
  · intro budget hle
    rw [hc] at hle
    have hrun := henough budget hle
    dsimp only at hrun ⊢
    rw [outcome_closing, hrun]
  · intro budget hle hlt
    rw [hc] at hlt
    obtain ⟨found, left, hrun, hcause⟩ := hshort budget hle hlt
    refine ⟨found, close left, ?_, hcause⟩
    dsimp only at hrun ⊢
    rw [outcome_closing, hrun]

end Act.Sharp

end

/-- The limits with another budget. -/
def Limits.withBudget (limits : Limits) (budget : Nat) : Limits :=
  { limits with operations := budget }

/-- The context with another budget. -/
def Context.withBudget (context : Context) (budget : Nat) : Context :=
  { context with limits := context.limits.withBudget budget }

/-- The operations that a machine has charged. -/
def Machine.spent (machine : Machine) : Nat := machine.meter.operations

/-- The budget is a threshold for what the act charges. -/
abbrev Metered.Sharp {α : Type} (act : Metered α) : Prop :=
  Act.Sharp Limits.withBudget Meter.operations act

/-- The budget is a threshold for what the evaluation charges. -/
abbrev Evaluation.Sharp {α : Type} (act : Evaluation α) : Prop :=
  Act.Sharp Context.withBudget Machine.spent act

/-- Operations are charged first, and the budget is looked at afterwards. -/
theorem Metered.outcome_charge (cost : Nat) (limits : Limits) (meter : Meter) :
    (Metered.charge cost).outcome limits meter =
      (if limits.operations < meter.operations + cost then
        .error (Fault.of (.budget limits.operations)) else .ok (),
        { meter with operations := meter.operations + cost }) := by
  by_cases h : limits.operations < meter.operations + cost
  · simp [Metered.charge, Act.outcome_bind, h]
  · simp [Metered.charge, Act.outcome_bind, h]

/-- A charge has its threshold where the operations with it are covered. -/
theorem Metered.sharp_charge (cost : Nat) : Metered.Sharp (Metered.charge cost) := by
  intro limits meter
  refine ⟨.ok (), { meter with operations := meter.operations + cost }, Nat.le_add_right _ _,
    fun _ h => (by cases h), fun budget hle => ?_, fun budget _ hlt => ?_⟩
  · have hcovered : ¬ (limits.withBudget budget).operations < meter.operations + cost :=
      Nat.not_lt.mpr hle
    dsimp only
    rw [outcome_charge, if_neg hcovered]
  · have hexceeded : (limits.withBudget budget).operations < meter.operations + cost := hlt
    refine ⟨Fault.of (.budget budget), { meter with operations := meter.operations + cost }, ?_, rfl⟩
    dsimp only
    rw [outcome_charge, if_pos hexceeded]
    rfl

/-- No check of a size looks at the budget. -/
theorem Metered.sharp_check (bound : Limits → Nat) (size : Nat) (why : Nat → Refusal)
    (hb : ∀ limits budget, bound (limits.withBudget budget) = bound limits) :
    Metered.Sharp (do
      let limit := bound (← read)
      if limit < size then Metered.refuse (why limit) : Metered Unit) := by
  refine .steady fun limits meter => ?_
  by_cases h : bound limits < size
  · refine ⟨.error (Fault.refusal (why (bound limits))), meter, rfl, ?_, fun budget => ?_⟩
    · rintro _ ⟨⟩
      simp [Fault.refusal, Fault.of, Fault.Cause.kind]
    · simp [Act.outcome_bind, hb, h, Metered.refuse]
  · refine ⟨.ok (), meter, rfl, fun _ heq => (by cases heq), fun budget => ?_⟩
    simp [Act.outcome_bind, hb, h]

/-- The vocabulary charges what it charges, whatever the budget is. -/
theorem Metered.Regular.sharp {α : Type} {act : Metered α} (h : act.Regular) :
    Metered.Sharp act := by
  induction h with
  | pure value => exact .pure value
  | bind _ _ ih ihn => exact .bind ih ihn
  | fault fault h => exact .fault h
  | charge cost => exact sharp_charge cost
  | chargeRepetition length times => exact .bind (sharp_charge _) fun _ => .modify fun _ => rfl
  | freshStamp =>
    exact .steady fun _ meter => ⟨.ok meter.nextStamp, { meter with nextStamp := meter.nextStamp + 1 },
      rfl, fun _ h => (by cases h), fun _ => rfl⟩
  | checkLength length => exact sharp_check Limits.collection _ _ fun _ _ => rfl
  | checkRepetition length times => exact sharp_check Limits.collection _ _ fun _ _ => rfl
  | checkDepth depth => exact sharp_check Limits.valueDepth _ _ fun _ _ => rfl
  | literalOf v =>
    refine .steady fun limits meter =>
      ⟨((Builtin.literalOf v).outcome limits meter).1, meter, rfl, ?_, fun budget => ?_⟩
    · rw [Builtin.outcome_literalOf]
      intro fault heq
      split at heq <;> cases heq
      simp [Fault.refusal, Fault.of, Fault.Cause.kind]
    · rw [Builtin.outcome_literalOf, Builtin.outcome_literalOf]
      rfl

namespace Evaluation

/-- What is charged through the machine has the threshold that it has on its own. -/
theorem sharp_ofMetered {α : Type} {act : Metered α} (h : act.Sharp) :
    Sharp (Evaluation.ofMetered act) := by
  intro context machine
  obtain ⟨result, meter, hstart, hresult, henough, hshort⟩ := h context.limits machine.meter
  refine ⟨result, machine.withMeter meter, hstart, hresult, fun budget hle => ?_,
    fun budget hle hlt => ?_⟩
  · have hrun := henough budget hle
    dsimp only at hrun
    simp only [ofMetered, Act.outcome_ofOutcome, Context.withBudget, hrun]
  · obtain ⟨fault, left, hrun, hcause⟩ := hshort budget hle hlt
    refine ⟨fault, machine.withMeter left, ?_, hcause⟩
    dsimp only at hrun
    simp only [ofMetered, Act.outcome_ofOutcome, Context.withBudget, hrun]

/-- Looking something up charges nothing. -/
theorem sharp_consult {α : Type}
    (look : (String → Option Script.Function) → Scope → Option Locals → Except Refusal α) :
    Sharp (consult look) := by
  refine .steady fun context machine => ?_
  cases hlook : look context.function? machine.globals machine.frames.head? with
  | ok value =>
    refine ⟨.ok value, machine, rfl, fun _ heq => (by cases heq), fun budget => ?_⟩
    have hbudget : (context.withBudget budget).function? = context.function? := rfl
    simp [consult, Act.outcome_bind, hbudget, hlook, Act.ofExcept]
  | error why =>
    refine ⟨.error (Fault.refusal why), machine, rfl, ?_, fun budget => ?_⟩
    · rintro _ ⟨⟩
      simp [Fault.refusal, Fault.of, Fault.Cause.kind]
    · have hbudget : (context.withBudget budget).function? = context.function? := rfl
      simp [consult, Act.outcome_bind, hbudget, hlook, Act.ofExcept]

/-- Changing variables charges nothing. -/
theorem sharp_modifyLocals (change : Locals → Locals) : Sharp (modifyLocals change) := by
  refine .steady fun context machine => ?_
  cases hframes : machine.frames with
  | nil =>
    refine ⟨.error (Fault.of .noActiveFunction), machine, rfl, ?_, fun budget => ?_⟩
    · rintro _ ⟨⟩
      simp [Fault.of, Fault.Cause.kind]
    · simp [modifyLocals, Act.outcome_bind, hframes]
  | cons locals outer =>
    refine ⟨.ok (), machine.withFrames (change locals :: outer), rfl,
      fun _ heq => (by cases heq), fun budget => ?_⟩
    simp [modifyLocals, Act.outcome_bind, hframes]

theorem spent_closeBlock (machine : Machine) : (closeBlock machine).spent = machine.spent := by
  unfold closeBlock
  split <;> rfl

/-- Taking the elements out of a result charges nothing. -/
theorem sharp_collect (v : Value) : Sharp (collect v) := by
  refine .steady fun context machine => ?_
  cases helements : v.elements context.limits.collection with
  | ok elements =>
    refine ⟨.ok elements, machine, rfl, fun _ heq => (by cases heq), fun budget => ?_⟩
    simp [collect, Act.outcome_bind, Context.withBudget, Limits.withBudget, helements]
  | error fault =>
    refine ⟨.error fault, machine, rfl, ?_, fun budget => ?_⟩
    · rintro _ ⟨⟩
      obtain ⟨cause, hkind, rfl⟩ := Value.elements_error helements
      change cause.kind ≠ .timeout
      rw [hkind]
      decide
    · simp [collect, Act.outcome_bind, Context.withBudget, Limits.withBudget, helements]

/-- Steps that are sharp make up sharp evaluations, whatever tree they belong to. -/
theorem Parallel.sharp {α : Type} {act other : Evaluation α}
    (h : Parallel (fun call _ => Sharp call) act other) : Sharp act := by
  induction h with
  | pure value => exact .pure value
  | bind _ _ ih ihn => exact .bind ih ihn
  | fault fault h => exact .fault h
  | metered h => exact sharp_ofMetered h.sharp
  | countRounds rounds => exact sharp_ofMetered (.modify fun _ => rfl)
  | consult look => exact sharp_consult look
  | modifyLocals change => exact sharp_modifyLocals change
  | counted _ ih => exact .bind (.modify fun _ => rfl) fun _ => .closing (fun _ => rfl) ih
  | mapFault hc _ ih => exact .mapFault hc ih
  | noting _ ih => exact .bind ih fun v => .bind (.modify fun _ => rfl) fun _ => .pure v
  | inBlock _ ih => exact .bind (sharp_modifyLocals _) fun _ => .closing spent_closeBlock ih
  | declare name v => exact .modify fun _ => rfl
  | collect v => exact sharp_collect v
  | call h => exact h

/-- Entering a function has a threshold, however many calls may still be opened. -/
theorem sharp_enter (remaining : Nat) (function : Script.Function) (params : Scope)
    (callSpan : Script.Span) : Sharp (enter remaining function params callSpan) := by
  induction remaining generalizing function params callSpan with
  | zero =>
    refine .steady fun context machine => ⟨.error ((Fault.refusal
      (.callDepth context.limits.callDepth)).locate callSpan), machine, rfl, ?_, fun budget => rfl⟩
    rintro _ ⟨⟩
    simp [Fault.refusal, Fault.of, Fault.Cause.kind]
  | succ rest ih =>
    have hcallers : Parallel.Callers (fun call _ => Sharp call) (callNamed (enter rest))
        (callNamed (enter rest)) := Parallel.callNamed ih
    have hbody := (Parallel.execBlock hcallers function.body).sharp
    have hcall : Sharp (inCall (Locals.ofParams params)
        (execBlock (callNamed (enter rest)) function.body)) :=
      .bind (.modify fun _ => rfl) fun _ => .closing (fun _ => rfl) hbody
    refine .mapFault (fun fault => fault.cause_leave _ _) (.bind hcall fun flow => ?_)
    cases flow with
    | giveBack v => exact .pure v
    | next => exact .pure _

/-- A whole script has a threshold. -/
theorem sharp_runProgram (remaining : Nat) (program : Script.Program) :
    Sharp (runProgram (enter remaining) program) := by
  have hrun : Parallel (fun call _ => Sharp call) (runProgram (enter remaining) program)
      (runProgram (enter remaining) program) :=
    Parallel.runProgram (sharp_enter remaining) program
  exact hrun.sharp

end Evaluation

namespace Footprint

/-- A text is evaluated up to a threshold; a text that is no script has the threshold zero. -/
theorem ofText_threshold (limits : Limits) (text : String) :
    ∃ footprint : Footprint,
      (∀ fault, footprint.result = .error fault → fault.cause.kind ≠ .timeout) ∧
      (∀ budget, footprint.meter.operations ≤ budget →
        ofText (limits.withBudget budget) text = footprint) ∧
      ∀ budget, budget < footprint.meter.operations →
        ∃ fault, (ofText (limits.withBudget budget) text).result = .error fault ∧
          fault.cause = .budget budget := by
  cases hprogram : Script.Program.ofText limits.depths text with
  | error problems =>
    refine ⟨⟨.error (Fault.ofDiagnostics problems), Meter.zero⟩, ?_, fun budget _ => ?_,
      fun budget hlt => absurd hlt (Nat.not_lt_zero budget)⟩
    · rintro _ ⟨⟩
      cases problems <;> simp [Fault.ofDiagnostics, Fault.of, Fault.Cause.kind]
    · have hdepths : (limits.withBudget budget).depths = limits.depths := rfl
      rw [ofText, hdepths, hprogram]
  | ok program =>
    have hrun : ∀ budget, ofText (limits.withBudget budget) text =
        ⟨(program.run (limits.withBudget budget)).1,
          (program.run (limits.withBudget budget)).2.meter⟩ := fun budget => by
      have hdepths : (limits.withBudget budget).depths = limits.depths := rfl
      rw [ofText, hdepths, hprogram]
    obtain ⟨result, machine, -, hresult, henough, hshort⟩ :=
      Evaluation.sharp_runProgram limits.callDepth program ⟨program.functions, limits⟩ Machine.start
    refine ⟨⟨result, machine.meter⟩, hresult, fun budget hle => ?_, fun budget hlt => ?_⟩
    · have hall : program.run (limits.withBudget budget) = (result, machine) := henough budget hle
      rw [hrun, hall]
    · obtain ⟨fault, left, hfault, hcause⟩ := hshort budget (Nat.zero_le budget) hlt
      have hall : program.run (limits.withBudget budget) = (.error fault, left) := hfault
      exact ⟨fault, by rw [hrun, hall], hcause⟩

/-- A text that is not too large keeps its outcome, and its fault gets the text. -/
theorem evaluate_of_not_oversized (limits : Limits) (name text : String)
    (hsize : ¬ limits.sourceBytes < text.utf8ByteSize) :
    evaluate limits name text =
      ⟨(ofText limits text).result.mapError (·.withSource name text), (ofText limits text).meter⟩ := by
  unfold evaluate
  dsimp only
  rw [if_neg hsize]
  rcases ofText limits text with ⟨found, used⟩
  cases found with
  | ok elements => rfl
  | error fault => rfl

/-- The budget is a sharp threshold. Whatever the text and the other limits are, there is one outcome
and it is no timeout: every budget that covers the operations it charges leads to it, and every
smaller budget to the timeout that names this budget. -/
theorem evaluate_budget_threshold (limits : Limits) (name text : String) :
    ∃ footprint : Footprint,
      (∀ fault, footprint.result = .error fault → fault.kind ≠ .timeout) ∧
      (∀ budget, footprint.meter.operations ≤ budget →
        evaluate { limits with operations := budget } name text = footprint) ∧
      ∀ budget, budget < footprint.meter.operations →
        ∃ fault, (evaluate { limits with operations := budget } name text).result = .error fault ∧
          fault.kind = .timeout ∧
          fault.message = s!"evaluation exceeded the budget of {budget} operations" := by
  by_cases hsize : limits.sourceBytes < text.utf8ByteSize
  · refine ⟨evaluate limits name text, ?_, fun budget _ => ?_, fun budget hlt => ?_⟩
    · intro fault hfault
      simp only [evaluate, hsize, if_true] at hfault
      cases hfault
      simp [Fault.kind, Fault.withSource, Fault.of, Fault.Cause.kind]
    · simp only [evaluate, hsize, if_true]
    · simp only [evaluate, hsize, if_true] at hlt
      exact absurd hlt (Nat.not_lt_zero budget)
  · obtain ⟨⟨result, meter⟩, hresult, henough, hshort⟩ := ofText_threshold limits text
    have hevaluate : ∀ budget, evaluate { limits with operations := budget } name text =
        ⟨(ofText (limits.withBudget budget) text).result.mapError (·.withSource name text),
          (ofText (limits.withBudget budget) text).meter⟩ :=
      fun budget => evaluate_of_not_oversized (limits.withBudget budget) name text hsize
    refine ⟨⟨result.mapError (·.withSource name text), meter⟩, ?_, fun budget hle => ?_,
      fun budget hlt => ?_⟩
    · intro fault hfault
      cases result with
      | ok elements => cases hfault
      | error found =>
        cases hfault
        exact hresult found rfl
    · rw [hevaluate, henough budget hle]
    · obtain ⟨fault, hfault, hcause⟩ := hshort budget hlt
      refine ⟨fault.withSource name text, ?_, ?_, ?_⟩
      · rw [hevaluate, hfault]
        rfl
      · rw [Fault.kind, Fault.withSource, hcause]
        rfl
      · rw [Fault.message, Fault.withSource, hcause]
        rfl

end Footprint

end LandPattern
