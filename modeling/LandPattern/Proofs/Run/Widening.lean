import LandPattern.Proofs.Run.Budget
import LandPattern.Proofs.Script.Widening
import LandPattern.Proofs.Values.Writing
import Mathlib

/-!
# Runs under wider limits

A limit is looked at only to refuse, so an evaluation that ends with a result has met none of its
limits. Under wider ones it takes the same steps, and ends in the same state with the same result.
-/

namespace LandPattern

section

variable {ρ σ α β : Type}

/-- Every result of the first act under some context is the result of the second under every context
that is wider, with the same state afterwards. Nothing is said of faults. -/
def Act.Endures (Wider : ρ → ρ → Prop) (act other : Act ρ σ α) : Prop :=
  ∀ context wider, Wider context wider → ∀ state value after,
    act.outcome context state = (.ok value, after) →
      other.outcome wider state = (.ok value, after)

namespace Act.Endures

variable {Wider : ρ → ρ → Prop} {act other : Act ρ σ α}

/-- What does not look at the context at all. -/
theorem blind (h : ∀ context wider state, act.outcome context state = act.outcome wider state) :
    Endures Wider act act :=
  fun context wider _ state _ _ hrun => (h context wider state).symm.trans hrun

theorem pure (value : α) : Endures Wider (pure value) (pure value : Act ρ σ α) :=
  .blind fun _ _ _ => rfl

theorem fault (fault : Fault) : Endures Wider (throw fault) other := by
  intro context wider _ state value after hrun
  cases hrun

theorem modify (change : σ → σ) : Endures Wider (modify change : Act ρ σ PUnit) (modify change) :=
  .blind fun _ _ _ => rfl

theorem bind {next more : α → Act ρ σ β} (h : Endures Wider act other)
    (hn : ∀ value, Endures Wider (next value) (more value)) :
    Endures Wider (act >>= next) (other >>= more) := by
  intro context wider hwider state value after hrun
  rcases hfirst : act.outcome context state with ⟨result, middle⟩
  cases result with
  | error fault =>
    rw [outcome_bind_error _ _ hfirst] at hrun
    cases hrun
  | ok found =>
    have hother := h context wider hwider state found middle hfirst
    rw [outcome_bind_ok _ _ hfirst] at hrun
    rw [outcome_bind_ok _ _ hother]
    exact hn found context wider hwider middle value after hrun

/-- Faults are no results, so changing them changes nothing. -/
theorem mapFault {change : Fault → Fault} (h : Endures Wider act other) :
    Endures Wider (Act.mapFault change act) (Act.mapFault change other) := by
  intro context wider hwider state value after hrun
  rw [outcome_mapFault] at hrun ⊢
  rcases hact : act.outcome context state with ⟨result, middle⟩
  rw [hact] at hrun
  cases result with
  | error fault => cases hrun
  | ok found =>
    cases hrun
    rw [h context wider hwider state value middle hact]
    rfl

theorem closing {close : σ → σ} (h : Endures Wider act other) :
    Endures Wider (Act.closing close act) (Act.closing close other) := by
  intro context wider hwider state value after hrun
  rw [outcome_closing] at hrun ⊢
  rcases hact : act.outcome context state with ⟨result, middle⟩
  rw [hact] at hrun
  cases hrun
  rw [h context wider hwider state value middle hact]

end Act.Endures

end

/-- No limit is less than it was; the clock does not count. -/
structure Limits.Widened (limits wider : Limits) : Prop where
  operations : limits.operations ≤ wider.operations
  callDepth : limits.callDepth ≤ wider.callDepth
  collection : limits.collection ≤ wider.collection
  valueDepth : limits.valueDepth ≤ wider.valueDepth
  nesting : limits.nesting ≤ wider.nesting
  expression : limits.expression ≤ wider.expression
  sourceBytes : limits.sourceBytes ≤ wider.sourceBytes

/-- The same functions, under limits of which none is less. -/
structure Context.Widened (context wider : Context) : Prop where
  functions : context.functions = wider.functions
  limits : context.limits.Widened wider.limits

/-! ## Results within a limit -/

namespace Value

variable {limit wider : Nat}

mutual

/-- A result that is accepted under a limit on elements is accepted under every greater one. -/
theorem toNested_widened (h : limit ≤ wider) (v : Value) {path : List Nat} {count : Nat}
    {found : Nested Element × Nat} (hf : toNested limit path count v = .ok found) :
    toNested wider path count v = .ok found := by
  unfold toNested at hf ⊢
  match v with
  | .element e =>
    dsimp only at hf ⊢
    split at hf
    · cases hf
    · rename_i hfits
      have hroom : ¬ wider < count + 1 := by omega
      rw [if_neg hroom]
      exact hf
  | .list s | .tuple s =>
    obtain ⟨nested, hnested, hlast⟩ := exists_of_bind_ok hf
    dsimp only
    rw [toNestedItems_widened h s.items hnested]
    exact hlast
  | .nothing | .bool _ | .int _ | .float _ | .text _ | .function _ | .builtin _ => cases hf
termination_by structural v

theorem toNestedItems_widened (h : limit ≤ wider) (items : List Value) {path : List Nat}
    {position count : Nat} {found : List (Nested Element) × Nat}
    (hf : toNestedItems limit path position count items = .ok found) :
    toNestedItems wider path position count items = .ok found := by
  unfold toNestedItems at hf ⊢
  match items with
  | [] => exact hf
  | v :: rest =>
    obtain ⟨first, hfirst, hmore⟩ := exists_of_bind_ok hf
    obtain ⟨others, hothers, hlast⟩ := exists_of_bind_ok hmore
    dsimp only
    rw [toNested_widened h v hfirst]
    simp only [bind, Except.bind]
    rw [toNestedItems_widened h rest hothers]
    exact hlast
termination_by structural items

end

theorem elements_widened (h : limit ≤ wider) {v : Value} {elements : List Element}
    (he : v.elements limit = .ok elements) : v.elements wider = .ok elements := by
  obtain ⟨nested, hnested, hlast⟩ := exists_of_bind_ok he
  rw [Value.elements, toNested_widened h v hnested]
  exact hlast

end Value

/-! ## The vocabulary -/

namespace Metered

/-- What passes the check of a size passes it under wider limits. -/
theorem endures_check (bound : Limits → Nat) (size : Nat) (why : Nat → Refusal)
    (hb : ∀ limits wider, Limits.Widened limits wider → bound limits ≤ bound wider) :
    Act.Endures Limits.Widened
      (do
        let limit := bound (← read)
        if limit < size then refuse (why limit) : Metered Unit)
      (do
        let limit := bound (← read)
        if limit < size then refuse (why limit) : Metered Unit) := by
  intro limits wider hwider meter value after hrun
  have hle := hb limits wider hwider
  simp only [Act.outcome_bind, Act.outcome_read] at hrun ⊢
  split at hrun
  · cases hrun
  · rename_i hfits
    have hroom : ¬ bound wider < size := by omega
    rw [if_neg hroom]
    exact hrun

/-- A charge that is covered by a budget is covered by every greater one. -/
theorem endures_charge (cost : Nat) :
    Act.Endures Limits.Widened (Metered.charge cost) (Metered.charge cost) := by
  intro limits wider hwider meter value after hrun
  have hle := hwider.operations
  simp only [Metered.charge, Act.outcome_bind, Act.outcome_modify, Act.outcome_read,
    Act.outcome_get] at hrun ⊢
  split at hrun
  · cases hrun
  · rename_i hfits
    have hroom : ¬ wider.operations < meter.operations + cost := by omega
    rw [if_neg hroom]
    exact hrun

theorem endures_literalOf (v : Value) :
    Act.Endures Limits.Widened (Builtin.literalOf v) (Builtin.literalOf v) := by
  intro limits wider hwider meter value after hrun
  rw [Builtin.outcome_literalOf] at hrun ⊢
  split at hrun
  · rename_i hfits
    rw [if_pos (Nat.le_trans hfits hwider.collection)]
    exact hrun
  · cases hrun

/-- Whatever the vocabulary gives under some limits it gives under wider ones. -/
theorem Made.endures {Throws : Fault → Prop} {α : Type} {act : Metered α} (h : Made Throws act) :
    Act.Endures Limits.Widened act act := by
  induction h with
  | pure value => exact .pure value
  | bind _ _ ih ihn => exact .bind ih ihn
  | fault fault _ => exact .fault fault
  | charge cost => exact endures_charge cost
  | chargeRepetition length times => exact .bind (endures_charge _) fun _ => .modify _
  | freshStamp => exact .blind fun _ _ _ => rfl
  | checkLength length => exact endures_check Limits.collection _ _ fun _ _ h => h.collection
  | checkRepetition length times =>
    exact endures_check Limits.collection _ _ fun _ _ h => h.collection
  | checkDepth depth => exact endures_check Limits.valueDepth _ _ fun _ _ h => h.valueDepth
  | literalOf v => exact endures_literalOf v

end Metered

/-! ## Runs -/

namespace Evaluation

variable {α : Type}

theorem endures_ofMetered {act : Metered α} (h : Act.Endures Limits.Widened act act) :
    Act.Endures Context.Widened (ofMetered act) (ofMetered act) := by
  intro context wider hwider machine value after hrun
  simp only [ofMetered, Act.outcome_ofOutcome] at hrun ⊢
  rcases hact : act.outcome context.limits machine.meter with ⟨result, meter⟩
  rw [hact] at hrun
  cases hrun
  rw [h _ _ hwider.limits machine.meter value meter hact]

/-- Looking something up depends on the functions alone. -/
theorem endures_consult
    (look : (String → Option Script.Function) → Scope → Option Locals → Except Refusal α) :
    Act.Endures Context.Widened (consult look) (consult look) := by
  intro context wider hwider machine value after hrun
  have hsame : wider.function? = context.function? := by
    unfold Context.function?
    rw [hwider.functions]
  simp only [consult, Act.outcome_bind, Act.outcome_read, Act.outcome_get] at hrun ⊢
  rw [hsame]
  cases hlook : look context.function? machine.globals machine.frames.head? with
  | ok found =>
    rw [hlook] at hrun
    exact hrun
  | error why =>
    rw [hlook] at hrun
    cases hrun

theorem endures_modifyLocals (change : Locals → Locals) :
    Act.Endures Context.Widened (modifyLocals change) (modifyLocals change) := by
  refine .blind fun context wider machine => ?_
  simp only [modifyLocals, Act.outcome_bind, Act.outcome_get]
  cases machine.frames with
  | nil => rfl
  | cons locals outer => rfl

theorem endures_collect (v : Value) : Act.Endures Context.Widened (collect v) (collect v) := by
  intro context wider hwider machine elements after hrun
  simp only [collect, Act.outcome_bind, Act.outcome_read] at hrun ⊢
  cases hv : v.elements context.limits.collection with
  | error fault =>
    rw [hv] at hrun
    cases hrun
  | ok found =>
    rw [hv] at hrun
    rw [Value.elements_widened hwider.limits.collection hv]
    exact hrun

/-- Steps whose results endure make up evaluations whose results do. -/
theorem Parallel.endures {act other : Evaluation α}
    (h : Parallel (Act.Endures Context.Widened) act other) :
    Act.Endures Context.Widened act other := by
  induction h with
  | pure value => exact .pure value
  | bind _ _ ih ihn => exact .bind ih ihn
  | fault fault _ => exact .fault fault
  | metered h => exact endures_ofMetered h.endures
  | countRounds rounds => exact endures_ofMetered (.modify _)
  | consult look => exact endures_consult look
  | modifyLocals change => exact endures_modifyLocals change
  | counted _ ih => exact .bind (.modify _) fun _ => .closing ih
  | mapFault _ _ ih => exact .mapFault ih
  | noting _ ih => exact .bind ih fun v => .bind (.modify _) fun _ => .pure v
  | inBlock _ ih => exact .bind (endures_modifyLocals _) fun _ => .closing ih
  | declare name v => exact .modify _
  | collect v => exact endures_collect v
  | call h => exact h

/-- What a function gives back while some calls may still be opened, it gives back while more may:
a refused call gives nothing back. -/
theorem endures_enter {remaining more : Nat} (h : remaining ≤ more) (function : Script.Function)
    (params : Scope) (callSpan : Script.Span) :
    Act.Endures Context.Widened (enter remaining function params callSpan)
      (enter more function params callSpan) := by
  induction remaining generalizing more function params callSpan with
  | zero =>
    intro context wider _ machine value after hrun
    cases hrun
  | succ rest ih =>
    obtain ⟨others, rfl⟩ : ∃ others, more = others + 1 := ⟨more - 1, by omega⟩
    have hcallers : Parallel.Callers (Act.Endures Context.Widened) (callNamed (enter rest))
        (callNamed (enter others)) := Parallel.callNamed (ih (by omega))
    have hbody := (Parallel.execBlock hcallers function.body).endures
    have hcall : Act.Endures Context.Widened
        (inCall (Locals.ofParams params) (execBlock (callNamed (enter rest)) function.body))
        (inCall (Locals.ofParams params) (execBlock (callNamed (enter others)) function.body)) :=
      .bind (.modify _) fun _ => .closing hbody
    refine .mapFault (.bind hcall fun flow => ?_)
    cases flow with
    | giveBack v => exact .pure v
    | next => exact .pure _

end Evaluation

/-- A script that gives elements under some limits gives them under wider ones, and the machine ends
in the same state. -/
theorem Script.Program.run_widened {limits wider : Limits} (h : limits.Widened wider)
    {program : Program} {elements : List Element} {machine : Machine}
    (hr : program.run limits = (.ok elements, machine)) :
    program.run wider = (.ok elements, machine) := by
  have hrun := (Evaluation.Parallel.runProgram (Evaluation.endures_enter h.callDepth)
    program).endures
  exact hrun ⟨program.functions, limits⟩ ⟨program.functions, wider⟩ ⟨rfl, h⟩ _ _ _ hr

namespace Footprint

/-- A text gives elements when it is no larger than the limit, is a script, and the run of the script
gives them; what it used is what the run used. -/
theorem evaluate_eq_ok_iff {limits : Limits} {name text : String} {elements : List Element}
    {meter : Meter} :
    evaluate limits name text = ⟨.ok elements, meter⟩ ↔
      text.utf8ByteSize ≤ limits.sourceBytes ∧
        ∃ program machine, Script.Program.ofText limits.depths text = .ok program ∧
          program.run limits = (.ok elements, machine) ∧ machine.meter = meter := by
  by_cases hsize : limits.sourceBytes < text.utf8ByteSize
  · have hrefused : ¬ text.utf8ByteSize ≤ limits.sourceBytes := Nat.not_le.2 hsize
    simp [evaluate, hsize, hrefused]
  · have hfits : text.utf8ByteSize ≤ limits.sourceBytes := Nat.le_of_not_lt hsize
    rw [evaluate_of_not_oversized limits name text hsize]
    cases hprogram : Script.Program.ofText limits.depths text with
    | error problems => simp [ofText, hprogram, Except.mapError]
    | ok program =>
      rcases hrun : program.run limits with ⟨result, machine⟩
      cases result with
      | error fault => simp [ofText, hprogram, hrun, Except.mapError]
      | ok found => simp [ofText, hprogram, hrun, hfits, Except.mapError, and_assoc]

/-- Raising limits never changes a success. When a text gives elements under some limits, it gives
the same elements under any limits of which none is less, and all that the evaluation used, the
operations among it, is the same. -/
theorem evaluate_widened {limits wider : Limits} (h : limits.Widened wider) (name text : String)
    {elements : List Element} (he : (evaluate limits name text).result = .ok elements) :
    (evaluate wider name text).result = .ok elements ∧
      (evaluate wider name text).meter = (evaluate limits name text).meter := by
  have hmade : evaluate limits name text = ⟨.ok elements, (evaluate limits name text).meter⟩ := by
    rw [← he]
  obtain ⟨hsize, program, machine, hprogram, hrun, hmeter⟩ := evaluate_eq_ok_iff.1 hmade
  have hdepths : limits.depths.Widened wider.depths := ⟨h.nesting, h.expression⟩
  have hread := Script.Program.ofText_widened hdepths hprogram
  have hwide := Script.Program.run_widened h hrun
  have hfits : text.utf8ByteSize ≤ wider.sourceBytes := Nat.le_trans hsize h.sourceBytes
  have hsame : evaluate wider name text = ⟨.ok elements, (evaluate limits name text).meter⟩ :=
    evaluate_eq_ok_iff.2 ⟨hfits, program, machine, hread, hwide, hmeter⟩
  rw [hsame]
  exact ⟨rfl, rfl⟩

/-- Limits that a footprint of one model uses up: one call, one item, three brackets, three expressions
inside one another, five operations and every byte of the text. -/
def exactLimits : Limits := ⟨0, 5, 1, 1, 1, 3, 3, 39⟩

/-- A footprint of one model, under limits that it uses up and under the standard ones. -/
theorem evaluate_widened_model :
    exactLimits.Widened .standard ∧
      (evaluate exactLimits "a" "fn footprint() \x7b return [Model(\"m\")]; \x7d").result =
        .ok [.model ⟨"m"⟩] ∧
      (evaluate .standard "a" "fn footprint() \x7b return [Model(\"m\")]; \x7d").result =
        .ok [.model ⟨"m"⟩] := by
  have hwider : exactLimits.Widened .standard := by
    constructor <;> decide
  have helements : (evaluate exactLimits "a"
      "fn footprint() \x7b return [Model(\"m\")]; \x7d").result = .ok [.model ⟨"m"⟩] := by
    cbv
  exact ⟨hwider, helements, (evaluate_widened hwider "a" _ helements).1⟩

end Footprint

end LandPattern
