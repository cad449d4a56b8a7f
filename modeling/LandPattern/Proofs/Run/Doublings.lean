import LandPattern.Proofs.Run.Walks
import LandPattern.Proofs.Script.Bare

/-!
# Doublings

A script that doubles a list so many times, with four operations for each doubling, and gives it
back. What it gives back has few lists but many places where they stand, so that no polynomial in
the operations bounds the walk over it.
-/

namespace LandPattern

-- Powers are those of the core library, whatever else stands before this in a file.
attribute [local instance] Number.corePow

open Script (AssignOp Block Expr Function Item Name Program Span Stmt)

/-- What a doubling depends on: the variables of the active calls, the operations that are charged
and the next stamp. -/
structure Sight where
  /-- The variables of the active calls, innermost first. -/
  frames : List Locals
  /-- Operations charged. -/
  spent : Nat
  /-- The next stamp. -/
  stamp : Nat

/-- The machine looks like this, and has no constants. -/
structure Machine.Looks (machine : Machine) (sight : Sight) : Prop where
  globals : machine.globals = []
  frames : machine.frames = sight.frames
  spent : machine.meter.operations = sight.spent
  stamp : machine.meter.nextStamp = sight.stamp

namespace Evaluation

variable {α β : Type} {context : Context} {before middle after : Sight}

/-- From whatever machine looks like this, the step ends with this value and a machine that looks
like that. -/
def Gives (context : Context) (before : Sight) (act : Evaluation α) (value : α) (after : Sight) :
    Prop :=
  ∀ machine : Machine, machine.Looks before →
    ∃ next : Machine, act.outcome context machine = (.ok value, next) ∧ next.Looks after

namespace Gives

theorem pure (value : α) : Gives context before (pure value) value before :=
  fun machine h => ⟨machine, rfl, h⟩

theorem bind {act : Evaluation α} {next : α → Evaluation β} {value : α} {result : β}
    (h : Gives context before act value middle)
    (hn : Gives context middle (next value) result after) :
    Gives context before (act >>= next) result after := by
  intro machine hmachine
  obtain ⟨between, hact, hbetween⟩ := h machine hmachine
  obtain ⟨last, hnext, hlast⟩ := hn between hbetween
  exact ⟨last, by rw [Act.outcome_bind_ok _ _ hact, hnext], hlast⟩

theorem mapFault {act : Evaluation α} {value : α} {change : Fault → Fault}
    (h : Gives context before act value after) :
    Gives context before (Act.mapFault change act) value after := by
  intro machine hmachine
  obtain ⟨next, hact, hnext⟩ := h machine hmachine
  exact ⟨next, by rw [Act.outcome_mapFault, hact]; rfl, hnext⟩

theorem locating {act : Evaluation α} {value : α} {span : Span}
    (h : Gives context before act value after) :
    Gives context before (locating span act) value after := h.mapFault

/-- The count of what is active shows in nothing. -/
theorem counted {act : Evaluation α} {value : α} (h : Gives context before act value after) :
    Gives context before (counted act) value after := by
  intro machine hmachine
  have hbegun : (machine.withMeter machine.meter.begin).Looks before :=
    ⟨hmachine.globals, hmachine.frames, hmachine.spent, hmachine.stamp⟩
  obtain ⟨next, hact, hnext⟩ := h _ hbegun
  refine ⟨next.withMeter next.meter.finish, ?_,
    ⟨hnext.globals, hnext.frames, hnext.spent, hnext.stamp⟩⟩
  rw [Evaluation.counted, Act.outcome_bind_ok _ _ (Act.outcome_modify _ _ _),
    Act.outcome_closing, hact]

theorem noting {act : Evaluation Value} {value : Value} (h : Gives context before act value after) :
    Gives context before (noting act) value after := by
  intro machine hmachine
  obtain ⟨next, hact, hnext⟩ := h machine hmachine
  refine ⟨next.noted (some value), ?_, ⟨hnext.globals, hnext.frames, hnext.spent, hnext.stamp⟩⟩
  rw [Evaluation.noting, Act.outcome_bind_ok _ _ hact,
    Act.outcome_bind_ok _ _ (Act.outcome_modify _ _ _)]
  rfl

/-- What is charged, as a step of the machine. -/
theorem ofMetered {frames : List Locals} {spent stamp paid taken : Nat} {act : Metered α}
    {value : α}
    (h : ∀ meter : Meter, meter.operations = spent → meter.nextStamp = stamp →
      ∃ next : Meter, act.outcome context.limits meter = (.ok value, next) ∧
        next.operations = paid ∧ next.nextStamp = taken) :
    Gives context ⟨frames, spent, stamp⟩ (ofMetered act) value ⟨frames, paid, taken⟩ := by
  intro machine hmachine
  obtain ⟨next, hact, hpaid, htaken⟩ := h machine.meter hmachine.spent hmachine.stamp
  refine ⟨machine.withMeter next, ?_, ⟨hmachine.globals, hmachine.frames, hpaid, htaken⟩⟩
  rw [Evaluation.ofMetered, Act.outcome_ofOutcome, hact]

/-- One operation is charged, if the budget has room for it. -/
theorem charge {frames : List Locals} {spent stamp : Nat}
    (h : spent + 1 ≤ context.limits.operations) :
    Gives context ⟨frames, spent, stamp⟩ (Evaluation.ofMetered (Metered.charge 1)) ()
      ⟨frames, spent + 1, stamp⟩ := by
  refine ofMetered fun meter hspent hstamp => ?_
  subst hspent
  refine ⟨{ meter with operations := meter.operations + 1 }, ?_, rfl, hstamp⟩
  simp only [Metered.charge, Act.outcome_bind, Act.outcome_modify, Act.outcome_read,
    Act.outcome_get, if_neg (Nat.not_lt.2 h), Act.outcome_pure]

theorem checkLength {sight : Sight} {length : Nat} (h : length ≤ context.limits.collection) :
    Gives context sight (Evaluation.ofMetered (Metered.checkLength length)) () sight := by
  obtain ⟨frames, spent, stamp⟩ := sight
  refine ofMetered fun meter hspent hstamp => ⟨meter, ?_, hspent, hstamp⟩
  simp only [Metered.checkLength, Act.outcome_bind, Act.outcome_read, if_neg (Nat.not_lt.2 h),
    Act.outcome_pure]

/-- A sequence takes the next stamp. -/
theorem sequence {frames : List Locals} {spent stamp : Nat} {items : List Value}
    (hl : items.length ≤ context.limits.collection)
    (hd : Sequence.depthOf items ≤ context.limits.valueDepth) :
    Gives context ⟨frames, spent, stamp⟩
      (Evaluation.ofMetered do
        let s ← Metered.sequence items
        Metered.checkSequence s
        return s)
      (Sequence.ofItems items stamp) ⟨frames, spent, stamp + 1⟩ := by
  refine ofMetered fun meter hspent hstamp =>
    ⟨{ meter with nextStamp := stamp + 1 }, ?_, hspent, rfl⟩
  have hlength : ¬ context.limits.collection < (Sequence.ofItems items stamp).length :=
    Nat.not_lt.2 hl
  have hdepth : ¬ context.limits.valueDepth < (Sequence.ofItems items stamp).depth :=
    Nat.not_lt.2 hd
  simp only [Metered.sequence, Metered.freshStamp, Metered.checkSequence, Metered.checkLength,
    Metered.checkDepth, Act.outcome_bind, Act.outcome_modifyGet, Act.outcome_read,
    Act.outcome_pure, hstamp, if_neg hlength, if_neg hdepth]

/-- The variables of the innermost call are replaced. -/
theorem modifyLocals {change : Locals → Locals} {locals : Locals} {outer : List Locals}
    {spent stamp : Nat} :
    Gives context ⟨locals :: outer, spent, stamp⟩ (Evaluation.modifyLocals change) ()
      ⟨change locals :: outer, spent, stamp⟩ := by
  intro machine hmachine
  have hframes := hmachine.frames
  refine ⟨machine.withFrames (change locals :: outer), ?_,
    ⟨hmachine.globals, rfl, hmachine.spent, hmachine.stamp⟩⟩
  simp only [Evaluation.modifyLocals, Act.outcome_bind, Act.outcome_get, hframes, Act.outcome_set]

/-- A variable of the innermost call is looked up. -/
theorem consult {look : (String → Option Function) → Scope → Option Locals → Except Refusal α}
    {value : α} (h : look context.function? [] before.frames.head? = .ok value) :
    Gives context before (Evaluation.consult look) value before := by
  intro machine hmachine
  refine ⟨machine, ?_, hmachine⟩
  simp only [Evaluation.consult, Act.outcome_bind, Act.outcome_read, Act.outcome_get,
    hmachine.globals, hmachine.frames, h]
  rfl

/-! ## Expressions and statements -/

section

variable {caller : Caller} {locals : Locals} {outer : List Locals} {spent stamp : Nat}

theorem name {span : Span} {text : String} {v : Value} (h : locals.get? text = some v)
    (hroom : spent + 1 ≤ context.limits.operations) :
    Gives context ⟨locals :: outer, spent, stamp⟩ (eval caller (.name span text)) v
      ⟨locals :: outer, spent + 1, stamp⟩ := by
  unfold eval
  refine counted (locating (noting (.bind (charge hroom) (consult ?_))))
  simp only [List.head?_cons, Option.bind_some, h]

/-- A list of evaluated items, which is not too long and not nested too deep. -/
theorem list {span : Span} {items : List Expr} {values : List Value} {paid taken : Nat}
    (hroom : spent + 1 ≤ context.limits.operations)
    (hl : items.length ≤ context.limits.collection)
    (hv : values.length ≤ context.limits.collection)
    (hd : Sequence.depthOf values ≤ context.limits.valueDepth)
    (h : Gives context ⟨locals :: outer, spent + 1, stamp⟩ (evalAll caller items) values
      ⟨locals :: outer, paid, taken⟩) :
    Gives context ⟨locals :: outer, spent, stamp⟩ (eval caller (.list span items))
      (.list (Sequence.ofItems values taken)) ⟨locals :: outer, paid, taken + 1⟩ := by
  unfold eval
  refine counted (locating (noting (.bind (charge hroom) (.bind ?_ (.pure _)))))
  exact .bind (checkLength hl) (.bind h (sequence hv hd))

theorem evalAll_nil : Gives context before (evalAll caller []) [] before := .pure []

theorem evalAll_cons {e : Expr} {rest : List Expr} {v : Value} {values : List Value}
    (h : Gives context before (eval caller e) v middle)
    (hrest : Gives context middle (evalAll caller rest) values after) :
    Gives context before (evalAll caller (e :: rest)) (v :: values) after :=
  .bind h (.bind hrest (.pure _))

/-- A variable is declared. -/
theorem declare {span : Span} {target : Name} {e : Expr} {v : Value} {paid taken : Nat}
    (hroom : spent + 1 ≤ context.limits.operations)
    (h : Gives context ⟨locals :: outer, spent + 1, stamp⟩ (eval caller e) v
      ⟨locals :: outer, paid, taken⟩) :
    Gives context ⟨locals :: outer, spent, stamp⟩ (exec caller (.bind span target e)) .next
      ⟨locals.declare target.text v :: outer, paid, taken⟩ := by
  unfold exec
  exact counted (.bind (locating (charge hroom)) (.bind h (.bind modifyLocals (.pure _))))

/-- A variable is assigned a list that is not too long and not nested too deep. -/
theorem assign {span place : Span} {text : String} {e : Expr} {old : Value} {s : Sequence Value}
    {paid taken : Nat} (hroom : spent + 1 ≤ context.limits.operations)
    (hold : locals.get? text = some old) (hl : s.length ≤ context.limits.collection)
    (hd : s.depth ≤ context.limits.valueDepth)
    (h : Gives context ⟨locals :: outer, spent + 1, stamp⟩ (eval caller e) (.list s)
      ⟨locals :: outer, paid, taken⟩) :
    Gives context ⟨locals :: outer, spent, stamp⟩
      (exec caller (.assign span (.name place text) .set e)) .next
      ⟨locals.set text (.list s) :: outer, paid, taken⟩ := by
  have hlocal : Gives context ⟨locals :: outer, paid, taken⟩ (local? text) (some old)
      ⟨locals :: outer, paid, taken⟩ := by
    refine consult ?_
    simp only [List.head?_cons, Option.bind_some, hold]
  have hwritten : Gives context ⟨locals :: outer, paid, taken⟩
      (Evaluation.ofMetered (old.updateWithin [] fun old => do
        return (← old.assigned .set (.list s), ()))) (.list s, ())
      ⟨locals :: outer, paid, taken⟩ := by
    refine ofMetered fun meter hpaid htaken => ⟨meter, ?_, hpaid, htaken⟩
    simp only [Value.updateWithin, Value.update, Value.assigned, AssignOp.operator?,
      Metered.checkValue, Metered.checkSequence, Metered.checkLength, Metered.checkDepth,
      Act.outcome_bind, Act.outcome_pure, Act.outcome_read, if_neg (Nat.not_lt.2 hl),
      if_neg (Nat.not_lt.2 hd)]
  have hstored : Gives context ⟨locals :: outer, paid, taken⟩
      (store ⟨text, place, []⟩ .set (.list s)) ()
      ⟨locals.set text (.list s) :: outer, paid, taken⟩ :=
    .bind hlocal (.bind hwritten (.bind modifyLocals (.pure _)))
  unfold exec
  refine counted (.bind (locating (charge hroom)) (.bind h (.bind ?_ (.bind (locating hstored)
    (.pure _)))))
  exact .pure _

theorem giveBack {span : Span} {e : Expr} {v : Value} {paid taken : Nat}
    (hroom : spent + 1 ≤ context.limits.operations)
    (h : Gives context ⟨locals :: outer, spent + 1, stamp⟩ (eval caller e) v
      ⟨locals :: outer, paid, taken⟩) :
    Gives context ⟨locals :: outer, spent, stamp⟩ (exec caller (.giveBack span (some e)))
      (.giveBack v) ⟨locals :: outer, paid, taken⟩ := by
  unfold exec
  exact counted (.bind (locating (charge hroom)) (.bind h (.pure _)))

theorem execAll_next {statement : Stmt} {rest : List Stmt} {flow : Flow}
    (h : Gives context before (exec caller statement) .next middle)
    (hrest : Gives context middle (execAll caller rest) flow after) :
    Gives context before (execAll caller (statement :: rest)) flow after :=
  .bind h hrest

theorem execAll_giveBack {statement : Stmt} {rest : List Stmt} {v : Value}
    (h : Gives context before (exec caller statement) (.giveBack v) after) :
    Gives context before (execAll caller (statement :: rest)) (.giveBack v) after :=
  .bind h (.pure _)

/-! ## Blocks and calls -/

theorem inBlock {act : Evaluation α} {value : α} {inner : Locals} {paid taken : Nat}
    (h : Gives context ⟨locals.push :: outer, spent, stamp⟩ act value
      ⟨inner :: outer, paid, taken⟩) :
    Gives context ⟨locals :: outer, spent, stamp⟩ (inBlock act) value
      ⟨inner.pop :: outer, paid, taken⟩ := by
  refine .bind modifyLocals fun machine hmachine => ?_
  obtain ⟨next, hact, hnext⟩ := h machine hmachine
  refine ⟨closeBlock next, by rw [Act.outcome_closing, hact], ?_⟩
  have hframes := hnext.frames
  simp only at hframes
  simp only [closeBlock, hframes]
  exact ⟨hnext.globals, rfl, hnext.spent, hnext.stamp⟩

theorem inCall {act : Evaluation α} {value : α} {inner : Locals} {paid taken : Nat}
    (h : Gives context ⟨locals :: outer, spent, stamp⟩ act value ⟨inner :: outer, paid, taken⟩) :
    Gives context ⟨outer, spent, stamp⟩ (inCall locals act) value ⟨outer, paid, taken⟩ := by
  intro machine hmachine
  have hcalled : (machine.withFrames (locals :: machine.frames)).Looks
      ⟨locals :: outer, spent, stamp⟩ :=
    ⟨hmachine.globals, congrArg (locals :: ·) hmachine.frames, hmachine.spent, hmachine.stamp⟩
  obtain ⟨next, hact, hnext⟩ := h _ hcalled
  refine ⟨next.withFrames next.frames.tail, ?_,
    ⟨hnext.globals, congrArg List.tail hnext.frames, hnext.spent, hnext.stamp⟩⟩
  rw [Evaluation.inCall, Act.outcome_bind_ok _ _ (Act.outcome_modify _ _ _),
    Act.outcome_closing, hact]

/-- A function without parameters is entered where a call may be opened. -/
theorem enter {function : Function} {span : Span} {calls paid taken : Nat} {v : Value}
    {inner : Locals}
    (h : Gives context ⟨(Locals.ofParams []).push :: outer, spent, stamp⟩
      (execAll (callNamed (enter calls)) function.body.statements) (.giveBack v)
      ⟨inner :: outer, paid, taken⟩) :
    Gives context ⟨outer, spent, stamp⟩ (enter (calls + 1) function [] span) v
      ⟨outer, paid, taken⟩ := by
  obtain ⟨name, params, ⟨place, statements⟩, whole⟩ := function
  have hblock : Gives context ⟨Locals.ofParams [] :: outer, spent, stamp⟩
      (execBlock (callNamed (Evaluation.enter calls)) (.mk place statements)) (.giveBack v)
      ⟨inner.pop :: outer, paid, taken⟩ := h.inBlock
  exact mapFault (.bind hblock.inCall (.pure _))

end

end Gives

/-! ## The script -/

/-- The variable that is doubled. -/
def doubledName : Expr := .name .nowhere "a"

/-- The variable becomes a list of what it holds, twice. -/
def doubling : Stmt := .assign .nowhere doubledName .set (.list .nowhere [doubledName, doubledName])

/-- The variable is doubled so many times, and given back. -/
def doublings (times : Nat) : List Stmt :=
  List.replicate times doubling ++ [.giveBack .nowhere (some doubledName)]

/-- The variables of the call, after so many doublings. -/
def doubledLocals (times : Nat) : Locals := ⟨[[("a", Value.doubled times)], []]⟩

variable {caller : Caller}

/-- Every doubling charges four operations and takes one stamp. -/
theorem gives_doubling (times : Nat) {spent : Nat}
    (hroom : spent + 4 ≤ context.limits.operations)
    (hcollection : 2 ≤ context.limits.collection)
    (hdepth : times + 2 ≤ context.limits.valueDepth) :
    Gives context ⟨[doubledLocals times], spent, times + 1⟩ (exec caller doubling) .next
      ⟨[doubledLocals (times + 1)], spent + 4, times + 2⟩ := by
  have hfirst : Gives context ⟨[doubledLocals times], spent + 2, times + 1⟩
      (eval caller doubledName) (Value.doubled times)
      ⟨[doubledLocals times], spent + 3, times + 1⟩ := .name rfl (by omega)
  have hsecond : Gives context ⟨[doubledLocals times], spent + 3, times + 1⟩
      (eval caller doubledName) (Value.doubled times)
      ⟨[doubledLocals times], spent + 4, times + 1⟩ := .name rfl (by omega)
  have hdeep : Sequence.depthOf [Value.doubled times, Value.doubled times] ≤
      context.limits.valueDepth :=
    Nat.le_trans (Nat.le_of_eq (Value.depth_doubled (times + 1))) hdepth
  have hlist : Gives context ⟨[doubledLocals times], spent + 1, times + 1⟩
      (eval caller (.list .nowhere [doubledName, doubledName])) (Value.doubled (times + 1))
      ⟨[doubledLocals times], spent + 4, times + 2⟩ :=
    .list (by omega) hcollection hcollection hdeep
      (.evalAll_cons hfirst (.evalAll_cons hsecond .evalAll_nil))
  exact .assign (by omega) rfl hcollection hdeep hlist

/-- From one number of doublings to a larger one, and back to the caller. -/
theorem gives_doublings (done times : Nat) {spent : Nat}
    (hroom : spent + 4 * times + 2 ≤ context.limits.operations)
    (hcollection : 2 ≤ context.limits.collection)
    (hdepth : done + times + 1 ≤ context.limits.valueDepth) :
    Gives context ⟨[doubledLocals done], spent, done + 1⟩ (execAll caller (doublings times))
      (.giveBack (Value.doubled (done + times)))
      ⟨[doubledLocals (done + times)], spent + 4 * times + 2, done + times + 1⟩ := by
  induction times generalizing done spent with
  | zero =>
    have hname : Gives context ⟨[doubledLocals done], spent + 1, done + 1⟩
        (eval caller doubledName) (Value.doubled done)
        ⟨[doubledLocals done], spent + 2, done + 1⟩ := .name rfl (by omega)
    exact .execAll_giveBack (.giveBack (by omega) hname)
  | succ times ih =>
    have hstep : Gives context ⟨[doubledLocals done], spent, done + 1⟩ (exec caller doubling) .next
        ⟨[doubledLocals (done + 1)], spent + 4, done + 2⟩ :=
      gives_doubling done (by omega) hcollection (by omega)
    have hrest : Gives context ⟨[doubledLocals (done + 1)], spent + 4, done + 2⟩
        (execAll caller (doublings times)) (.giveBack (Value.doubled (done + 1 + times)))
        ⟨[doubledLocals (done + 1 + times)], spent + 4 + 4 * times + 2, done + 1 + times + 1⟩ :=
      ih (done + 1) (by omega) (by omega)
    rw [show spent + 4 + 4 * times + 2 = spent + 4 * (times + 1) + 2 by omega,
      show done + 1 + times = done + (times + 1) by omega] at hrest
    exact .execAll_next hstep hrest

end Evaluation

/-- The entry point that doubles an empty list so many times and gives it back. -/
def Script.Function.doubling (times : Nat) : Function where
  name := ⟨entryPoint, .nowhere⟩
  params := []
  body := .mk .nowhere
    (.bind .nowhere ⟨"a", .nowhere⟩ (.list .nowhere []) :: Evaluation.doublings times)
  span := .nowhere

/-- The script of this entry point. -/
def Script.Program.doubling (times : Nat) : Program := ⟨[.function (Function.doubling times)]⟩

namespace Evaluation

theorem gives_entryValue {limits : Limits} {times : Nat} (calls : Nat)
    (hroom : 4 * times + 4 ≤ limits.operations) (hcollection : 2 ≤ limits.collection)
    (hdepth : times + 1 ≤ limits.valueDepth) :
    Gives ⟨(Program.doubling times).functions, limits⟩ ⟨[], 0, 0⟩
      (entryValue (enter (calls + 1)) (Program.doubling times)) (Value.doubled times)
      ⟨[], 4 * times + 4, times + 1⟩ := by
  let context : Context := ⟨(Program.doubling times).functions, limits⟩
  let caller : Caller := callNamed (enter calls)
  let params : Locals := Locals.ofParams []
  have hempty : Gives context ⟨[params.push], 1, 0⟩ (eval caller (.list .nowhere []))
      (Value.doubled 0) ⟨[params.push], 2, 1⟩ :=
    .list (show 1 + 1 ≤ limits.operations by omega) (Nat.zero_le _) (Nat.zero_le _)
      (show 1 ≤ limits.valueDepth by omega) .evalAll_nil
  have hdeclared : Gives context ⟨[params.push], 0, 0⟩
      (exec caller (.bind .nowhere ⟨"a", .nowhere⟩ (.list .nowhere []))) .next
      ⟨[doubledLocals 0], 2, 1⟩ :=
    .declare (show 0 + 1 ≤ limits.operations by omega) hempty
  have hdoubled : Gives context ⟨[doubledLocals 0], 2, 1⟩ (execAll caller (doublings times))
      (.giveBack (Value.doubled (0 + times)))
      ⟨[doubledLocals (0 + times)], 2 + 4 * times + 2, 0 + times + 1⟩ :=
    gives_doublings 0 times (show 2 + 4 * times + 2 ≤ limits.operations by omega) hcollection
      (show 0 + times + 1 ≤ limits.valueDepth by omega)
  simp only [Nat.zero_add] at hdoubled
  rw [show 2 + 4 * times + 2 = 4 * times + 4 by omega] at hdoubled
  have hcalled : Gives context ⟨[], 0, 0⟩
      (enter (calls + 1) (Function.doubling times) [] .nowhere) (Value.doubled times)
      ⟨[], 4 * times + 4, times + 1⟩ :=
    .enter (.execAll_next hdeclared hdoubled)
  -- There are no constants, and the entry point is found by its name.
  exact .bind (.pure ()) (.bind (.consult rfl) hcalled)

end Evaluation

namespace Script.Program

/-- Whatever the number is, a script of so many doublings ends within four operations for each of
them and four more, and in its result twice as many nodes are looked at with every further one. -/
theorem doubling_looked {limits : Limits} {times : Nat}
    (hcalls : 1 ≤ limits.callDepth) (hroom : 4 * times + 4 ≤ limits.operations)
    (hcollection : 2 ≤ limits.collection) (hdepth : times + 1 ≤ limits.valueDepth) :
    ∃ v machine, (doubling times).returned limits = (.ok v, machine) ∧
      machine.meter.operations = 4 * times + 4 ∧
      (v.toNestedCounted limits.collection [] 0).2 = 2 ^ (times + 1) - 1 := by
  obtain ⟨calls, hsucc⟩ := Nat.exists_eq_add_of_le' hcalls
  have hstart : Machine.start.Looks ⟨[], 0, 0⟩ := ⟨rfl, rfl, rfl, rfl⟩
  obtain ⟨machine, hreturned, hlooks⟩ :=
    Evaluation.gives_entryValue calls hroom hcollection hdepth Machine.start hstart
  refine ⟨Value.doubled times, machine, ?_, hlooks.spent, Value.looked_doubled _ _⟩
  rw [returned, hsucc]
  exact hreturned

end Script.Program

end LandPattern
