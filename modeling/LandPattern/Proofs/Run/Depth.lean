import LandPattern.Proofs.Run.Parallel
import LandPattern.Proofs.Run.Peak

/-!
# The depth of a run

A call is refused when as many calls are active as may be. Looked at from outside, calls then cannot
go on inside one another for ever: below the limit nothing is entered, whatever stands there. From
inside, a run that is not stopped by the limit never knew of it.
-/

namespace LandPattern

open Script (Depths Function Program Span)

namespace Evaluation

/-- Enters a function unless too many calls are active; `next` stands for the same inside it. -/
def guarded (next : Entrance) : Entrance := fun function params callSpan => do
  let context ← read
  let machine ← get
  if context.limits.callDepth ≤ machine.frames.length then refuseCall callSpan
  else runBody (callNamed next) function params callSpan

/-- The first calls inside one another are guarded; any further one is what stands at the bottom. -/
def unrolled (bottom : Entrance) : Nat → Entrance
  | 0 => bottom
  | calls + 1 => guarded (unrolled bottom calls)

/-- The first calls inside one another are made without a guard. -/
def descending (bottom : Entrance) : Nat → Entrance
  | 0 => bottom
  | calls + 1 => runBody (callNamed (descending bottom calls))

section Guarded

variable {context : Context} {calls : Nat} {α β : Type}

/-- So many calls are active. -/
def Active (calls : Nat) (machine : Machine) : Prop := machine.frames.length = calls

theorem active_changeLocals {change : Locals → Locals} {machine : Machine} {locals : Locals}
    {outer : List Locals} (hf : machine.frames = locals :: outer) (h : Active calls machine) :
    Active calls (machine.withFrames (change locals :: outer)) := by
  rw [Active, hf] at h
  exact h

/-- Two steps have one outcome wherever so many calls are active, and leave as many active. -/
structure AgreeAt (context : Context) (calls : Nat) (act other : Evaluation α) : Prop where
  same : ∀ machine, Active calls machine →
    act.outcome context machine = other.outcome context machine
  leaves : Act.Ensures context (Active calls) act fun _ => True

namespace AgreeAt

variable {act other : Evaluation α}

theorem refl (h : Act.Ensures context (Active calls) act fun _ => True) :
    AgreeAt context calls act act := ⟨fun _ _ => rfl, h⟩

theorem bind {next more : α → Evaluation β} (h : AgreeAt context calls act other)
    (hn : ∀ value, AgreeAt context calls (next value) (more value)) :
    AgreeAt context calls (act >>= next) (other >>= more) := by
  refine ⟨fun machine hactive => ?_, .bind h.leaves fun value _ => (hn value).leaves⟩
  have hfirst := h.same machine hactive
  have hmiddle := (h.leaves machine hactive).1
  rcases hrun : act.outcome context machine with ⟨result, middle⟩
  rw [hrun] at hfirst hmiddle
  cases result with
  | ok value =>
    rw [Act.outcome_bind_ok _ _ hrun, Act.outcome_bind_ok _ _ hfirst.symm]
    exact (hn value).same middle hmiddle
  | error fault => rw [Act.outcome_bind_error _ _ hrun, Act.outcome_bind_error _ _ hfirst.symm]

theorem mapFault {change : Fault → Fault} (h : AgreeAt context calls act other) :
    AgreeAt context calls (Act.mapFault change act) (Act.mapFault change other) := by
  refine ⟨fun machine hactive => ?_, .mapFault h.leaves⟩
  rw [Act.outcome_mapFault, Act.outcome_mapFault, h.same machine hactive]

theorem closing {close : Machine → Machine}
    (hc : ∀ machine, Active calls machine → Active calls (close machine))
    (h : AgreeAt context calls act other) :
    AgreeAt context calls (Act.closing close act) (Act.closing close other) := by
  refine ⟨fun machine hactive => ?_, .closing hc h.leaves⟩
  rw [Act.outcome_closing, Act.outcome_closing, h.same machine hactive]

theorem modifyLocals (change : Locals → Locals) :
    AgreeAt context calls (modifyLocals change) (modifyLocals change) :=
  refl (ensures_modifyLocals fun _ _ _ hf hactive => active_changeLocals hf hactive)

theorem inBlock (h : AgreeAt context calls act other) :
    AgreeAt context calls (inBlock act) (inBlock other) :=
  (modifyLocals Locals.push).bind fun _ =>
    h.closing fun _ hactive =>
      fine_closeBlock (fun _ _ _ hf hm => active_changeLocals hf hm) hactive

/-- Inside a call one more is active. -/
theorem inCall {locals : Locals} (h : AgreeAt context (calls + 1) act other) :
    AgreeAt context calls (inCall locals act) (inCall locals other) := by
  have hinner : ∀ machine : Machine, Active calls machine →
      Active (calls + 1) (machine.withFrames (locals :: machine.frames)) :=
    fun machine hactive => congrArg (· + 1) hactive
  refine ⟨fun machine hactive => ?_, fun machine hactive => ⟨?_, fun _ _ => trivial⟩⟩
  · rw [outcome_inCall, outcome_inCall, h.same _ (hinner machine hactive)]
  · have hleft : _ = calls + 1 := (h.leaves _ (hinner machine hactive)).1
    rw [outcome_inCall]
    simp only [Active, Machine.withFrames, Machine.noted, List.length_tail] at hleft ⊢
    omega

end AgreeAt

/-- Steps that agree make up evaluations that agree. -/
theorem Parallel.agreeAt {act other : Evaluation α}
    (h : Parallel (AgreeAt context calls) act other) : AgreeAt context calls act other := by
  induction h with
  | pure value => exact .refl (.pure trivial)
  | bind _ _ ih ihn => exact .bind ih ihn
  | fault fault _ => exact .refl (.fault fault)
  | @metered _ act _ =>
    exact .refl (ensures_ofMetered (fun _ _ hactive => hactive) (Metered.yields_any act))
  | countRounds rounds =>
    exact .refl (ensures_ofMetered (fun _ _ hactive => hactive) (Metered.yields_any _))
  | consult look => exact .refl (ensures_consult fun _ _ _ _ => trivial)
  | modifyLocals change => exact .modifyLocals change
  | counted _ ih =>
    exact .bind (.refl (.modify fun _ hactive => hactive)) fun _ =>
      .closing (fun _ hactive => hactive) ih
  | mapFault _ _ ih => exact .mapFault ih
  | noting _ ih =>
    exact .bind ih fun v => .bind (.refl (.modify fun _ hactive => hactive)) fun _ =>
      .refl (.pure trivial)
  | inBlock _ ih => exact .inBlock ih
  | declare name v => exact .refl (.modify fun _ hactive => hactive)
  | collect v =>
    refine .refl (.bind .read fun _ _ => ?_)
    split
    · exact .pure trivial
    · exact .fault _
  | call h => exact h

/-- A call that counts what is left agrees with one that looks at what is active. -/
theorem agreeAt_enter (bottom : Entrance) {remaining : Nat}
    (h : calls + remaining = context.limits.callDepth) (function : Function) (params : Scope)
    (callSpan : Span) :
    AgreeAt context calls (enter remaining function params callSpan)
      (unrolled bottom (remaining + 1) function params callSpan) := by
  induction remaining generalizing calls function params callSpan with
  | zero =>
    refine ⟨fun machine hactive => ?_, .bind .read fun _ _ => .fault _⟩
    have hfull : context.limits.callDepth ≤ machine.frames.length := by
      have hlength : machine.frames.length = calls := hactive
      omega
    simp only [unrolled, guarded, Act.outcome_bind, Act.outcome_read, Act.outcome_get, hfull,
      if_true]
    rfl
  | succ rest ih =>
    have hcallers : Parallel.Callers (AgreeAt context (calls + 1)) (callNamed (enter rest))
        (callNamed (unrolled bottom (rest + 1))) := Parallel.callNamed (ih (by omega))
    have hbody := (Parallel.execBlock hcallers function.body).agreeAt
    have hrun : AgreeAt context calls (enter (rest + 1) function params callSpan)
        (runBody (callNamed (unrolled bottom (rest + 1))) function params callSpan) := by
      refine .mapFault (.bind (.inCall hbody) fun flow => ?_)
      cases flow with
      | giveBack v => exact .refl (.pure trivial)
      | next => exact .refl (.pure trivial)
    refine ⟨fun machine hactive => ?_, hrun.leaves⟩
    have hroom : ¬ context.limits.callDepth ≤ machine.frames.length := by
      have hlength : machine.frames.length = calls := hactive
      omega
    rw [hrun.same machine hactive]
    simp only [unrolled, guarded, Act.outcome_bind, Act.outcome_read, Act.outcome_get, hroom,
      if_false]

end Guarded

section Descending

variable {context : Context} {limit : Nat} {α β : Type}

/-- The outcome is a fault that names the limit on calls. -/
def Overrun (limit : Nat) (result : Except Fault α) : Prop :=
  ∃ fault, result = .error fault ∧ fault.cause = .refusal (.callDepth limit)

/-- Two steps have one outcome, unless the first one meets the limit on calls. -/
def AgreeUnless (context : Context) (limit : Nat) (act other : Evaluation α) : Prop :=
  ∀ machine, Overrun limit (act.outcome context machine).1 ∨
    act.outcome context machine = other.outcome context machine

namespace AgreeUnless

variable {act other : Evaluation α}

theorem refl (act : Evaluation α) : AgreeUnless context limit act act := fun _ => .inr rfl

theorem bind {next more : α → Evaluation β} (h : AgreeUnless context limit act other)
    (hn : ∀ value, AgreeUnless context limit (next value) (more value)) :
    AgreeUnless context limit (act >>= next) (other >>= more) := by
  intro machine
  rcases hrun : act.outcome context machine with ⟨result, middle⟩
  have hfirst := h machine
  rw [hrun] at hfirst
  cases result with
  | ok value =>
    rcases hfirst with ⟨fault, hfault, -⟩ | hsame
    · cases hfault
    · rw [Act.outcome_bind_ok _ _ hrun, Act.outcome_bind_ok _ _ hsame.symm]
      exact hn value middle
  | error fault =>
    rw [Act.outcome_bind_error _ _ hrun]
    rcases hfirst with ⟨found, hfault, hcause⟩ | hsame
    · cases hfault
      exact .inl ⟨fault, rfl, hcause⟩
    · exact .inr (Act.outcome_bind_error _ _ hsame.symm _).symm

/-- A fault that is changed keeps its cause. -/
theorem mapFault {change : Fault → Fault} (hc : ∀ fault, (change fault).cause = fault.cause)
    (h : AgreeUnless context limit act other) :
    AgreeUnless context limit (Act.mapFault change act) (Act.mapFault change other) := by
  intro machine
  rw [Act.outcome_mapFault, Act.outcome_mapFault]
  rcases h machine with ⟨fault, hfault, hcause⟩ | hsame
  · exact .inl ⟨change fault, by rw [hfault]; rfl, (hc fault).trans hcause⟩
  · exact .inr (by rw [hsame])

theorem closing {close : Machine → Machine} (h : AgreeUnless context limit act other) :
    AgreeUnless context limit (Act.closing close act) (Act.closing close other) := by
  intro machine
  rw [Act.outcome_closing, Act.outcome_closing]
  rcases h machine with hover | hsame
  · exact .inl hover
  · exact .inr (by rw [hsame])

end AgreeUnless

/-- Steps that agree up to the limit make up evaluations that do. -/
theorem Parallel.agreeUnless {act other : Evaluation α}
    (h : Parallel (AgreeUnless context limit) act other) : AgreeUnless context limit act other := by
  induction h with
  | bind _ _ ih ihn => exact .bind ih ihn
  | counted _ ih => exact .bind (.refl _) fun _ => .closing ih
  | mapFault hc _ ih => exact .mapFault hc ih
  | noting _ ih => exact .bind ih fun v => .refl _
  | inBlock _ ih => exact .bind (.refl _) fun _ => .closing ih
  | call h => exact h
  | pure | fault | metered | countRounds | consult | modifyLocals | declare | collect => exact .refl _

/-- A call that may still open some calls agrees with one that does not count them. -/
theorem agreeUnless_enter (bottom : Entrance) (remaining : Nat) (function : Function)
    (params : Scope) (callSpan : Span) :
    AgreeUnless context context.limits.callDepth (enter remaining function params callSpan)
      (descending bottom remaining function params callSpan) := by
  induction remaining generalizing function params callSpan with
  | zero => exact fun machine => .inl ⟨_, rfl, Fault.cause_locate _ _⟩
  | succ rest ih =>
    have hcallers : Parallel.Callers (AgreeUnless context context.limits.callDepth)
        (callNamed (enter rest)) (callNamed (descending bottom rest)) := Parallel.callNamed ih
    have hbody := (Parallel.execBlock hcallers function.body).agreeUnless
    have hcall : AgreeUnless context context.limits.callDepth
        (inCall (Locals.ofParams params) (execBlock (callNamed (enter rest)) function.body))
        (inCall (Locals.ofParams params)
          (execBlock (callNamed (descending bottom rest)) function.body)) :=
      .bind (.refl _) fun _ => .closing hbody
    exact .mapFault (fun fault => fault.cause_leave _ _) (.bind hcall fun flow => .refl _)

end Descending

end Evaluation

open Evaluation (Overrun descending runProgram unrolled)

namespace Script.Program

/-- A run is the same as with calls that look at what is active, one level below the limit
included. What stands below that is never entered. -/
theorem run_eq_unrolled (program : Program) (limits : Limits) (bottom : Evaluation.Entrance) :
    (runProgram (unrolled bottom (limits.callDepth + 1)) program).outcome
      ⟨program.functions, limits⟩ Machine.start = program.run limits := by
  have hrun : Evaluation.AgreeAt ⟨program.functions, limits⟩ 0
      (runProgram (Evaluation.enter limits.callDepth) program)
      (runProgram (unrolled bottom (limits.callDepth + 1)) program) :=
    (Evaluation.Parallel.runProgram (Evaluation.agreeAt_enter bottom (Nat.zero_add _))
      program).agreeAt
  exact (hrun.same Machine.start rfl).symm

/-- Unless a run ends with the fault of the limit on calls, it is the same without the limit. -/
theorem overrun_or_run_eq (program : Program) (limits : Limits) :
    Overrun limits.callDepth (program.run limits).1 ∨
      ∀ bottom, (runProgram (descending bottom limits.callDepth) program).outcome
        ⟨program.functions, limits⟩ Machine.start = program.run limits := by
  by_cases hover : Overrun limits.callDepth (program.run limits).1
  · exact .inl hover
  · refine .inr fun bottom => ?_
    have hrun : Evaluation.AgreeUnless ⟨program.functions, limits⟩ limits.callDepth
        (runProgram (Evaluation.enter limits.callDepth) program)
        (runProgram (descending bottom limits.callDepth) program) :=
      (Evaluation.Parallel.runProgram (Evaluation.agreeUnless_enter bottom _) program).agreeUnless
    rcases hrun Machine.start with hfault | hsame
    · exact absurd hfault hover
    · exact hsame.symm

/-- Every run of an accepted script ends, whatever the other limits are, and its recursion is
bounded. With calls that are refused by looking at what is active, no call is entered further down
than the limit allows, so nothing that could stand there is ever reached. Statements and expressions
that are evaluated at one moment are bounded by the limits on nesting, once for every call that may be
active and once more. And a script whose calls would go on beyond the limit ends with the fault that
names it: when a run does not, no call of its functions below the limit matters to it. -/
theorem run_bounded {depths : Depths} {source : String} {program : Program}
    (h : Program.ofText depths source = .ok program) (limits : Limits) :
    (∀ bottom, (runProgram (unrolled bottom (limits.callDepth + 1)) program).outcome
        ⟨program.functions, limits⟩ Machine.start = program.run limits) ∧
      (program.run limits).2.meter.peak ≤
        (limits.callDepth + 1) * (depths.nesting + depths.expression) ∧
      (Overrun limits.callDepth (program.run limits).1 ∨
        ∀ bottom, (runProgram (descending bottom limits.callDepth) program).outcome
          ⟨program.functions, limits⟩ Machine.start = program.run limits) :=
  ⟨program.run_eq_unrolled limits, peak_le_of_ofText h limits, program.overrun_or_run_eq limits⟩

/-- Limits that let two calls be active. -/
def twoCalls : Limits := ⟨0, 100, 2, 1, 1, 2, 2, 100⟩

set_option maxRecDepth 4000 in
/-- A function that does nothing but call itself ends with the fault of the limit on calls. -/
theorem run_bounded_endless :
    ∃ program, Program.ofText ⟨2, 2⟩ "fn footprint() \x7b footprint(); \x7d" = .ok program ∧
      (program.run twoCalls).2.meter.peak ≤ 12 ∧ (program.run twoCalls).2.meter.peak = 5 ∧
      Overrun 2 (program.run twoCalls).1 := by
  have hread : readLexemes 0 0 [] [] "fn footprint() \x7b footprint(); \x7d".toList =
      ([⟨.wordFn, ⟨0, 2⟩⟩, ⟨.blank, ⟨2, 3⟩⟩, ⟨.name "footprint", ⟨3, 12⟩⟩, ⟨.leftParen, ⟨12, 13⟩⟩,
        ⟨.rightParen, ⟨13, 14⟩⟩, ⟨.blank, ⟨14, 15⟩⟩, ⟨.leftBrace, ⟨15, 16⟩⟩, ⟨.blank, ⟨16, 17⟩⟩,
        ⟨.name "footprint", ⟨17, 26⟩⟩, ⟨.leftParen, ⟨26, 27⟩⟩, ⟨.rightParen, ⟨27, 28⟩⟩,
        ⟨.semicolon, ⟨28, 29⟩⟩, ⟨.blank, ⟨29, 30⟩⟩, ⟨.rightBrace, ⟨30, 31⟩⟩], []) := by
    decide +kernel
  have hprogram : Program.ofText ⟨2, 2⟩ "fn footprint() \x7b footprint(); \x7d" =
      .ok ⟨[.function ⟨⟨"footprint", ⟨3, 12⟩⟩, [], .mk ⟨15, 31⟩ [.expr ⟨17, 29⟩
        (.call ⟨17, 28⟩ (.name ⟨17, 26⟩ "footprint") [])], ⟨0, 31⟩⟩]⟩ := by
    rw [Program.ofText, tokenize, hread]
    rfl
  exact ⟨_, hprogram, (run_bounded hprogram twoCalls).2.1, rfl, _, rfl, rfl⟩

end Script.Program

end LandPattern
