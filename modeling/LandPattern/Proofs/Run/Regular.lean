import LandPattern.Proofs.Values.Refusing

/-!
# What the vocabulary may do

Operators, functions and methods act on the meter in a few ways only: they charge operations and
repetitions, take stamps, check lengths and depths, and refuse. All that a script can call is made of
these, so that what holds of each of them holds of the whole vocabulary.
-/

namespace LandPattern

theorem Fault.cause_mark (fault : Fault) (span : Script.Span) (text : Option String) :
    (fault.mark span text).cause = fault.cause := by
  unfold Fault.mark
  split <;> rfl

@[simp] theorem Fault.cause_locate (fault : Fault) (span : Script.Span) :
    (fault.locate span).cause = fault.cause :=
  fault.cause_mark span none

@[simp] theorem Fault.cause_leave (fault : Fault) (function : String) (callSite : Script.Span) :
    (fault.leave function callSite).cause = fault.cause := rfl

/-- Acts made of charges, stamps, checks, and faults of some sort. -/
inductive Metered.Made (Throws : Fault → Prop) : {α : Type} → Metered α → Prop where
  | pure {α : Type} (value : α) : Made Throws (pure value)
  | bind {α β : Type} {act : Metered α} {next : α → Metered β} (h : Made Throws act)
    (hn : ∀ value, Made Throws (next value)) : Made Throws (act >>= next)
  | fault {α : Type} (fault : Fault) (h : Throws fault) : Made Throws (throw fault : Metered α)
  | charge (cost : Nat) : Made Throws (Metered.charge cost)
  | chargeRepetition (length times : Nat) : Made Throws (Metered.chargeRepetition length times)
  | freshStamp : Made Throws Metered.freshStamp
  | checkLength (length : Nat) : Made Throws (Metered.checkLength length)
  | checkRepetition (length times : Nat) : Made Throws (Metered.checkRepetition length times)
  | checkDepth (depth : Nat) : Made Throws (Metered.checkDepth depth)
  | literalOf (v : Value) : Made Throws (Builtin.literalOf v)

/-- A sort of faults that has those which the vocabulary raises. -/
class Fault.Admits (Throws : Fault → Prop) : Prop where
  refusal (why : Refusal) : Throws (Fault.refusal why)
  eagerOperator (op : Script.BinaryOp) : Throws (Fault.of (.eagerOperator op))

/-- A sort of faults that has those which values raise. -/
class Fault.Bears (Throws : Fault → Prop) : Prop where
  refusal {why : Refusal} (h : why.Common) : Throws (Fault.refusal why)

instance {Throws : Fault → Prop} [Fault.Admits Throws] : Fault.Bears Throws where
  refusal _ := Fault.Admits.refusal _

/-- Faults other than a timeout. -/
abbrev Fault.Untimed (fault : Fault) : Prop := fault.cause.kind ≠ .timeout

instance : Fault.Admits Fault.Untimed where
  refusal _ := by simp [Fault.refusal, Fault.of, Fault.Cause.kind]
  eagerOperator _ := by simp [Fault.of, Fault.Cause.kind]

/-- A refusal is no timeout, wherever it is placed. -/
theorem Fault.untimed_locate (why : Refusal) (span : Script.Span) :
    ((Fault.refusal why).locate span).Untimed := by
  simp [Fault.refusal, Fault.of, Fault.Cause.kind]

/-- Where a step to a component stands. -/
def Step.span : Step → Script.Span
  | .field name => name.span
  | .index _ s => s

/-- Acts made of charges, stamps, checks and faults other than a timeout. -/
abbrev Metered.Regular {α : Type} (act : Metered α) : Prop := Metered.Made Fault.Untimed act

namespace Metered.Made

variable {Throws : Fault → Prop} {α : Type}

theorem refuse [Fault.Bears Throws] {why : Refusal} (h : why.Common) :
    Made Throws (Metered.refuse why : Metered α) :=
  .fault _ (Fault.Bears.refusal h)

theorem ofExcept [Fault.Bears Throws] {result : Except Refusal α}
    (h : Refusal.CommonIn result) : Made Throws (Act.ofExcept result : Metered α) := by
  cases result with
  | ok value => exact .pure value
  | error why => exact refuse (h why rfl)

theorem ite {act other : Metered α} (condition : Prop) [Decidable condition]
    (h : Made Throws act) (ho : Made Throws other) :
    Made Throws (if condition then act else other) := by
  split
  · exact h
  · exact ho

theorem checkSequence (s : Sequence Value) : Made Throws (Metered.checkSequence s) :=
  .bind (.checkLength _) fun _ => .checkDepth _

theorem checkValue (v : Value) : Made Throws (Metered.checkValue v) := by
  cases v with
  | list s => exact checkSequence s
  | tuple s => exact checkSequence s
  | text s => exact .checkLength _
  | _ => exact .pure _

theorem sequence (items : List Value) : Made Throws (Metered.sequence items) :=
  .bind .freshStamp fun _ => .pure _

theorem list (items : List Value) : Made Throws (Metered.list items) :=
  .bind (sequence items) fun _ => .pure _

section Operators

theorem concat (a b : Sequence Value) : Made Throws (Value.concat a b) := by
  refine .bind (.checkLength _) fun _ => .bind (.charge _) fun _ => .bind .freshStamp fun stamp => ?_
  exact .bind (checkSequence _) fun _ => .pure _

theorem add [Fault.Bears Throws] (a b : Value) : Made Throws (Value.add a b) := by
  unfold Value.add
  split
  · exact .bind (.checkLength _) fun _ => .bind (.charge _) fun _ => .pure _
  · exact .bind (concat _ _) fun _ => .pure _
  · exact .bind (concat _ _) fun _ => .pure _
  · exact ofExcept (Value.common_arithmetic _ _ _ _ _)

theorem repeatList (s : Sequence Value) (times : Nat) : Made Throws (Value.repeatList s times) :=
  .bind (.checkRepetition _ _) fun _ => .bind (.chargeRepetition _ _) fun _ => list _

theorem repeatText (s : String) (times : Nat) : Made Throws (Value.repeatText s times) :=
  .bind (.checkRepetition _ _) fun _ => .bind (.charge _) fun _ => .pure _

theorem multiply [Fault.Bears Throws] (a b : Value) : Made Throws (Value.multiply a b) := by
  unfold Value.multiply
  split
  · exact repeatList _ _
  · exact repeatList _ _
  · exact repeatText _ _
  · exact repeatText _ _
  · exact ofExcept (Value.common_arithmetic _ _ _ _ _)

mutual

theorem equals (a b : Value) : Made Throws (a.equals b) := by
  unfold Value.equals
  refine .bind (.charge 1) fun _ => ?_
  match a with
  | .list s =>
    cases b with
    | list t => exact .ite _ (.pure _) (.ite _ (.pure _) (allEqual s.items t.items))
    | _ => exact .pure _
  | .tuple s =>
    cases b with
    | tuple t => exact .ite _ (.pure _) (.ite _ (.pure _) (allEqual s.items t.items))
    | _ => exact .pure _
  | .int _ | .float _ => cases b <;> exact .pure _
  | .nothing | .bool _ | .text _ | .element _ | .function _ | .builtin _ => exact .pure _
termination_by structural a

theorem allEqual (items others : List Value) : Made Throws (Value.allEqual items others) := by
  match items, others with
  | a :: rest, b :: more =>
    refine .bind (equals a b) fun same => ?_
    cases same with
    | true => exact allEqual rest more
    | false => exact .pure _
  | [], _ => exact .pure _
  | _ :: _, [] => exact .pure _
termination_by structural items

end

theorem findFrom (v : Value) (items : List Value) (position : Nat) :
    Made Throws (Value.findIn.go v items position) := by
  induction items generalizing position with
  | nil => exact .pure _
  | cons item rest ih =>
    refine .bind (equals item v) fun found => ?_
    cases found with
    | true => exact .pure _
    | false => exact ih (position + 1)

theorem findIn (v : Value) (items : List Value) : Made Throws (v.findIn items) := findFrom v items 0

/-- An operator that looks at both operands is no operator that decides without the second. -/
theorem combine_eager [Fault.Bears Throws] {op : Script.BinaryOp} (hand : op ≠ .and)
    (hor : op ≠ .or) (a b : Value) : Made Throws (a.combine op b) := by
  have hordered : ∀ holds : Option Ordering → Bool,
      Made Throws
        (do return Value.bool (holds (← Act.ofExcept (Value.order op a b))) : Metered Value) :=
    fun _ => .bind (ofExcept (Value.common_order _ _ _)) fun _ => .pure _
  cases op with
  | add => exact add a b
  | mul => exact multiply a b
  | sub => exact ofExcept (Value.common_arithmetic _ _ _ _ _)
  | div => exact ofExcept (Value.common_divide _ _)
  | mod => exact ofExcept (Value.common_modulo _ _)
  | eq | ne => exact .bind (equals a b) fun _ => .pure _
  | lt | le | gt | ge => exact hordered _
  | and => exact absurd rfl hand
  | or => exact absurd rfl hor

theorem combine [Fault.Admits Throws] (op : Script.BinaryOp) (a b : Value) :
    Made Throws (a.combine op b) := by
  by_cases hand : op = .and
  · subst hand
    exact .fault _ (Fault.Admits.eagerOperator _)
  · by_cases hor : op = .or
    · subst hor
      exact .fault _ (Fault.Admits.eagerOperator _)
    · exact combine_eager hand hor a b

/-- No assignment has an operator that decides without its second operand. -/
theorem assigned [Fault.Bears Throws] (op : Script.AssignOp) (old v : Value) :
    Made Throws (old.assigned op v) := by
  unfold Value.assigned
  split
  · exact .pure v
  · rename_i operator hoperator
    refine combine_eager (fun heq => ?_) (fun heq => ?_) old v
    · cases op <;> cases heq <;> cases hoperator
    · cases op <;> cases heq <;> cases hoperator

end Operators

section Functions

theorem value (datum : Datum) : Made Throws datum.value := by
  cases datum with
  | layers names => exact list _
  | pad name => cases name <;> exact .pure _
  | _ => exact .pure _

theorem readField [Fault.Bears Throws] (v : Value) (field : String) :
    Made Throws (v.readField field) := by
  unfold Value.readField
  split
  · split
    · exact value _
    · exact refuse trivial
  · exact refuse trivial

theorem makeRow [Fault.Bears Throws] (count : Nat)
    (row : Unit → Except ElementRefusal (List Element)) :
    Made Throws (Builtin.makeRow count row) := by
  refine .bind (.checkLength _) fun _ => .bind (.charge _) fun _ => ?_
  split
  · exact list _
  · exact refuse trivial

open Binding (common_required common_optional common_run) in
theorem makeDual [Fault.Bears Throws] (args : Arguments) :
    Made Throws (Builtin.makeDual args) := by
  refine .bind (ofExcept (common_run ?_ _ _ _)) fun asked => makeRow asked.1 asked.2
  exact .bind (common_required _ Builtin.common_asTemplate) fun template =>
    .bind (common_required _ Value.common_asNumber) fun spanX =>
      .bind (common_required _ Value.common_asNumber) fun pitchY =>
        .bind (common_required _ Value.common_asCount) fun count =>
          .bind (common_optional _ Builtin.common_asSharedName) fun name => .pure _

open Binding (common_required common_optional common_run) in
theorem makeSingle [Fault.Bears Throws] (args : Arguments) :
    Made Throws (Builtin.makeSingle args) := by
  refine .bind (ofExcept (common_run ?_ _ _ _)) fun asked => makeRow asked.1 asked.2
  exact .bind (common_required _ Builtin.common_asTemplate) fun template =>
    .bind (common_required _ Value.common_asNumber) fun pitchY =>
      .bind (common_required _ Value.common_asCount) fun count =>
        .bind (common_optional _ Builtin.common_asSharedName) fun name => .pure _

theorem rangeOf [Fault.Bears Throws] (args : Arguments) : Made Throws (Builtin.rangeOf args) := by
  refine .bind (ofExcept ?_) fun p =>
    .bind (.checkLength _) fun _ => .bind (.charge _) fun _ => list _
  exact .bind (args.common_unnamed "range") fun values =>
    .bind (Builtin.common_progression values) fun p =>
      .ite (.bind (.error trivial) fun _ => .ok _) (.ok _)

theorem textOf [Fault.Bears Throws] (args : Arguments) : Made Throws (Builtin.textOf args) := by
  refine .bind (ofExcept (args.common_only "str")) fun v => ?_
  split
  · exact .pure _
  · exact .bind (.literalOf _) fun _ => .pure _

theorem call [Fault.Bears Throws] (function : Builtin) (args : Arguments) :
    Made Throws (function.call args) := by
  cases function with
  | rect kind => exact ofExcept (.map (Builtin.common_makeRect args kind))
  | line => exact ofExcept (.map (Builtin.common_makeLine args))
  | caption kind => exact ofExcept (.map (Builtin.common_makeCaption args kind))
  | smd => exact ofExcept (.map (Builtin.common_makeSmd args))
  | pad => exact ofExcept (.map (Builtin.common_makeDrilled args _))
  | hole => exact ofExcept (.map (Builtin.common_makeDrilled args _))
  | model => exact ofExcept (.map (Builtin.common_makeModel args))
  | dual => exact makeDual args
  | single => exact makeSingle args
  | range => exact rangeOf args
  | len => exact ofExcept (Builtin.common_lengthOf args)
  | abs => exact ofExcept (Builtin.common_absoluteOf args)
  | min => exact ofExcept (Builtin.common_extremeOf args _ _)
  | max => exact ofExcept (Builtin.common_extremeOf args _ _)
  | str => exact textOf args
  | int => exact ofExcept (Builtin.common_intOf args)
  | float => exact ofExcept (Builtin.common_floatOf args)

end Functions

section Methods

theorem append (s : Sequence Value) (item : Value) : Made Throws (Method.append s item) := by
  refine .bind (.checkLength _) fun _ => .bind .freshStamp fun stamp => ?_
  exact .bind (checkSequence _) fun _ => .pure _

theorem extend [Fault.Bears Throws] (s : Sequence Value) (items : Value) :
    Made Throws (Method.extend s items) := by
  unfold Method.extend
  split
  · exact refuse trivial
  · exact .bind (.checkLength _) fun _ => .bind (.charge _) fun _ =>
      .bind .freshStamp fun _ => .pure _

theorem remove [Fault.Bears Throws] (s : Sequence Value) (v : Value) :
    Made Throws (Method.remove s v) := by
  refine .bind (findIn v s.items) fun found => ?_
  split
  · exact .bind .freshStamp fun _ => .pure _
  · exact refuse trivial

theorem pop [Fault.Bears Throws] (s : Sequence Value) : Made Throws (Method.pop s) := by
  refine .bind .freshStamp fun stamp => ?_
  split
  · exact .pure _
  · exact refuse trivial

theorem callOnList [Fault.Bears Throws] (s : Sequence Value) (method : String) (args : Arguments) :
    Made Throws (Method.callOnList s method args) := by
  have honly : ∀ {method}, Made Throws (Act.ofExcept (args.onlyOfMethod method)) :=
    ofExcept (args.common_onlyOfMethod _)
  unfold Method.callOnList
  split
  · exact .bind honly fun item => .bind (append s item) fun _ => .pure _
  · exact .bind honly fun items => .bind (extend s items) fun _ => .pure _
  · exact .bind honly fun v => .bind (remove s v) fun _ => .pure _
  · exact .bind (ofExcept (args.common_noneOfMethod _)) fun _ => .bind (pop s) fun _ => .pure _
  · exact .bind honly fun v => .bind (findIn v s.items) fun _ => .pure _
  · exact refuse trivial

theorem method [Fault.Bears Throws] (receiver : Value) (method : String) (args : Arguments) :
    Made Throws (Method.call receiver method args) := by
  cases receiver with
  | list s => exact callOnList s method args
  | element e => exact ofExcept (Method.common_callOnElement e method args)
  | _ => exact refuse trivial

end Methods

/-- Writing to a component does what the write does, takes stamps, and refuses at the steps. -/
theorem update {v : Value} {steps : List Step} {write : Value → Metered (Value × α)}
    (hs : ∀ step ∈ steps, ∀ why : Refusal, why.Common → Throws ((Fault.refusal why).locate step.span))
    (h : ∀ old, Made Throws (write old)) : Made Throws (v.update steps write) := by
  induction steps generalizing v with
  | nil => exact h v
  | cons step rest ih =>
    have hfail : ∀ {why : Refusal}, why.Common →
        Made Throws (Value.failAt step.span why : Metered (Value × α)) :=
      fun hwhy => .fault _ (hs step List.mem_cons_self _ hwhy)
    have hrest : ∀ old : Value, Made Throws (old.update rest write) := fun old =>
      ih fun other hother => hs other (List.mem_cons_of_mem _ hother)
    cases step with
    | field name =>
      unfold Value.update
      split
      · split
        · exact hfail trivial
        · refine .bind (value _) fun old => .bind (hrest old) fun ⟨component, result⟩ => ?_
          dsimp only
          split
          · exact .pure _
          · exact hfail (Element.common_write _ _ _ _ ‹_›)
      · exact hfail trivial
    | index position span =>
      unfold Value.update
      split
      · split
        · exact hfail trivial
        · split
          · exact hfail trivial
          · exact .bind (hrest _) fun written => .bind .freshStamp fun _ => .pure _
      · exact hfail trivial

theorem updateWithin {v : Value} {steps : List Step} {write : Value → Metered (Value × α)}
    (hs : ∀ step ∈ steps, ∀ why : Refusal, why.Common → Throws ((Fault.refusal why).locate step.span))
    (h : ∀ old, Made Throws (write old)) : Made Throws (v.updateWithin steps write) :=
  .bind (update hs h) fun _ => .bind (checkValue _) fun _ => .pure _

end Metered.Made

end LandPattern
