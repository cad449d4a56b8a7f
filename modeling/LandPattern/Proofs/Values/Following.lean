import LandPattern.Proofs.Values.Delays
import LandPattern.Proofs.Values.Restamping

/-!
# The vocabulary at a later moment

Operators, functions, methods and writes to components, done later and on values with later stamps,
follow those done earlier. Stamps are only compared with one another, and a delay keeps different
stamps different.
-/

namespace LandPattern

open Act.Follows (ofExcept)

namespace Metered

variable {α : Type} {delay : Delay} {limits : Limits}

/-! ## Operators -/

theorem follows_concat (a b : Sequence Value) :
    Follows delay limits delay.sequence (Value.concat a b)
      (Value.concat (delay.sequence a) (delay.sequence b)) := by
  unfold Value.concat
  rw [Sequence.length_restamp, Sequence.length_restamp]
  refine .bind (follows_checkLength _) fun _ => .bind (follows_charge _) fun _ =>
    .bind follows_freshStamp fun stamp => ?_
  dsimp only
  rw [← Sequence.append_restamp]
  exact .bind (follows_checkSequence _) fun _ => .pure rfl

theorem follows_add (a b : Value) :
    Follows delay limits delay.value (a.add b) ((delay.value a).add (delay.value b)) := by
  have hnumbers : Follows delay limits delay.value
      (Act.ofExcept (Value.arithmetic .add (· + ·) (· + ·) a b))
      (Act.ofExcept (Value.arithmetic .add (· + ·) (· + ·) (delay.value a) (delay.value b))) :=
    ofExcept (Value.arithmetic_restamp _ a b _ _ _)
  cases a with
  | text s =>
    cases b with
    | text t =>
      exact .bind (follows_checkLength _) fun _ => .bind (follows_charge _) fun _ => .pure rfl
    | _ => exact hnumbers
  | list s =>
    cases b with
    | list t =>
      simp only [Delay.value, Value.restamp_list, Value.add]
      exact .bind (follows_concat s t) fun joined => .pure (Value.restamp_list _ joined).symm
    | _ => exact hnumbers
  | tuple s =>
    cases b with
    | tuple t =>
      simp only [Delay.value, Value.restamp_tuple, Value.add]
      exact .bind (follows_concat s t) fun joined => .pure (Value.restamp_tuple _ joined).symm
    | _ => exact hnumbers
  | _ => cases b <;> exact hnumbers

theorem follows_repeatList (s : Sequence Value) (times : Nat) :
    Follows delay limits delay.value (Value.repeatList s times)
      (Value.repeatList (delay.sequence s) times) := by
  have hlist : Follows delay limits delay.value _ _ := follows_list (Value.repeated times s.items)
  rw [Value.map_repeated] at hlist
  unfold Value.repeatList
  rw [Sequence.length_restamp]
  exact .bind (follows_checkRepetition _ _) fun _ => .bind (follows_chargeRepetition _ _) fun _ =>
    hlist

theorem follows_repeatText (s : String) (times : Nat) :
    Follows delay limits delay.value (Value.repeatText s times) (Value.repeatText s times) :=
  .bind (follows_checkRepetition _ _) fun _ => .bind (follows_charge _) fun _ => .pure rfl

theorem follows_multiply (a b : Value) :
    Follows delay limits delay.value (a.multiply b) ((delay.value a).multiply (delay.value b)) := by
  have hnumbers : Follows delay limits delay.value
      (Act.ofExcept (Value.arithmetic .mul (· * ·) (· * ·) a b))
      (Act.ofExcept (Value.arithmetic .mul (· * ·) (· * ·) (delay.value a) (delay.value b))) :=
    ofExcept (Value.arithmetic_restamp _ a b _ _ _)
  cases a with
  | list s =>
    cases b with
    | int n =>
      simp only [Delay.value, Value.restamp_list]
      exact follows_repeatList s n.toNat
    | _ => exact hnumbers
  | text s =>
    cases b with
    | int n => exact follows_repeatText s n.toNat
    | _ => exact hnumbers
  | int n =>
    cases b with
    | list s =>
      simp only [Delay.value, Value.restamp_list]
      exact follows_repeatList s n.toNat
    | text s => exact follows_repeatText s n.toNat
    | _ => exact hnumbers
  | _ => cases b <;> exact hnumbers

/-- Two sequences share their items if they do so under their later stamps. -/
theorem follows_shared (s t : Sequence Value)
    (h : Follows delay limits id (Value.allEqual s.items t.items)
      (Value.allEqual (delay.sequence s).items (delay.sequence t).items)) :
    Follows delay limits id
      (if s.stamp = t.stamp then return true
        else if s.items.length ≠ t.items.length then return false
        else Value.allEqual s.items t.items)
      (if (delay.sequence s).stamp = (delay.sequence t).stamp then return true
        else if (delay.sequence s).items.length ≠ (delay.sequence t).items.length then return false
        else Value.allEqual (delay.sequence s).items (delay.sequence t).items) := by
  have hstamp : ((delay.sequence s).stamp = (delay.sequence t).stamp) = (s.stamp = t.stamp) :=
    propext delay.injective.eq_iff
  have hlength (u : Sequence Value) : (delay.sequence u).items.length = u.items.length :=
    Sequence.length_restamp _ u
  simp only [hstamp, hlength]
  exact .ite (.pure rfl) (.ite (.pure rfl) h)

mutual

theorem follows_equals (a b : Value) :
    Follows delay limits id (a.equals b) ((delay.value a).equals (delay.value b)) := by
  match a with
  | .list s =>
    cases b with
    | list t =>
      rw [Delay.value, Value.restamp_list, Delay.value, Value.restamp_list]
      exact .bind (follows_charge 1) fun _ => follows_shared s t (follows_allEqual s.items t.items)
    | _ => exact .bind (follows_charge 1) fun _ => .pure rfl
  | .tuple s =>
    cases b with
    | tuple t =>
      rw [Delay.value, Value.restamp_tuple, Delay.value, Value.restamp_tuple]
      exact .bind (follows_charge 1) fun _ => follows_shared s t (follows_allEqual s.items t.items)
    | _ => exact .bind (follows_charge 1) fun _ => .pure rfl
  | .nothing | .bool _ | .int _ | .float _ | .text _ | .element _ | .function _ | .builtin _ =>
    cases b <;> exact .bind (follows_charge 1) fun _ => .pure rfl
termination_by structural a

theorem follows_allEqual (items others : List Value) :
    Follows delay limits id (Value.allEqual items others)
      (Value.allEqual (items.map delay.value) (others.map delay.value)) := by
  match items, others with
  | a :: rest, b :: more =>
    refine .bind (follows_equals a b) fun same => ?_
    cases same with
    | true => exact follows_allEqual rest more
    | false => exact .pure rfl
  | [], _ => exact .pure rfl
  | _ :: _, [] => exact .pure rfl
termination_by structural items

end

theorem follows_findIn (v : Value) (items : List Value) :
    Follows delay limits id (v.findIn items) ((delay.value v).findIn (items.map delay.value)) := by
  have hfrom (position : Nat) : Follows delay limits id (Value.findIn.go v items position)
      (Value.findIn.go (delay.value v) (items.map delay.value) position) := by
    induction items generalizing position with
    | nil => exact .pure rfl
    | cons item rest ih =>
      refine .bind (follows_equals item v) fun found => ?_
      cases found with
      | true => exact .pure rfl
      | false => exact ih (position + 1)
  exact hfrom 0

theorem follows_combine (op : Script.BinaryOp) (a b : Value) :
    Follows delay limits delay.value (a.combine op b)
      ((delay.value a).combine op (delay.value b)) := by
  have hordered (holds : Option Ordering → Bool) :
      Follows delay limits delay.value
        (do return Value.bool (holds (← Act.ofExcept (Value.order op a b))))
        (do return Value.bool (holds (← Act.ofExcept
          (Value.order op (delay.value a) (delay.value b))))) := by
    rw [Value.order_restamp]
    have horder : Follows delay limits id (Act.ofExcept (Value.order op a b))
        (Act.ofExcept (Value.order op a b)) := ofExcept (by cases Value.order op a b <;> rfl)
    exact .bind horder fun _ => .pure rfl
  cases op with
  | add => exact follows_add a b
  | mul => exact follows_multiply a b
  | sub => exact ofExcept (Value.arithmetic_restamp _ a b _ _ _)
  | div => exact ofExcept (Value.divide_restamp _ a b)
  | mod => exact ofExcept (Value.modulo_restamp _ a b)
  | eq | ne => exact .bind (follows_equals a b) fun _ => .pure rfl
  | lt | le | gt | ge => exact hordered _
  | and | or => exact .fault _ _

theorem follows_assigned (op : Script.AssignOp) (old v : Value) :
    Follows delay limits delay.value (old.assigned op v)
      ((delay.value old).assigned op (delay.value v)) := by
  unfold Value.assigned
  cases op.operator? with
  | none => exact .pure rfl
  | some operator => exact follows_combine operator old v

/-! ## Attributes -/

theorem follows_value (datum : Datum) : Follows delay limits delay.value datum.value datum.value := by
  cases datum with
  | layers names =>
    have hlist : Follows delay limits delay.value _ _ := follows_list (names.map .text)
    rw [List.map_map] at hlist
    exact hlist
  | pad name => cases name <;> exact .pure rfl
  | _ => exact .pure rfl

theorem follows_readField (v : Value) (field : String) :
    Follows delay limits delay.value (v.readField field) ((delay.value v).readField field) := by
  cases v with
  | element e =>
    unfold Value.readField
    dsimp only [Delay.value, Value.restamp]
    cases e.get? field with
    | none => exact follows_refuse _ _
    | some datum => exact follows_value datum
  | _ => exact follows_refuse _ _

/-! ## Functions -/

theorem follows_literalOf (v : Value) :
    Follows delay limits id (Builtin.literalOf v) (Builtin.literalOf (delay.value v)) := by
  unfold Builtin.literalOf
  simp only [Delay.value, Value.literalWithin_restamp]
  refine .bind .read fun limits => ?_
  dsimp only [id]
  cases v.literalWithin limits.collection with
  | none => exact follows_refuse _ _
  | some written => exact .pure rfl

/-- What is made from no stamps. -/
theorem follows_stampless {result found : Except Refusal α} (h : found = result) :
    Follows delay limits id (Act.ofExcept result) (Act.ofExcept found) := by
  refine ofExcept (h.trans ?_)
  cases result <;> rfl

theorem follows_made {made found : Except Refusal Element} (h : found = made) :
    Follows delay limits delay.value (Act.ofExcept (Value.element <$> made))
      (Act.ofExcept (Value.element <$> found)) := by
  subst h
  refine ofExcept ?_
  cases found <;> rfl

theorem follows_makeRow (count : Nat) (row : Unit → Except ElementRefusal (List Element)) :
    Follows delay limits delay.value (Builtin.makeRow count row) (Builtin.makeRow count row) := by
  refine .bind (follows_checkLength _) fun _ => .bind (follows_charge _) fun _ => ?_
  cases row () with
  | error why => exact follows_refuse _ _
  | ok pads =>
    have hlist : Follows delay limits delay.value _ _ := follows_list (pads.map .element)
    rw [List.map_map] at hlist
    exact hlist

open Binding (follows_same follows_sameOptional run_same) in
theorem follows_makeDual (args : Arguments) :
    Follows delay limits delay.value (Builtin.makeDual args)
      (Builtin.makeDual (args.restamp delay.stamp)) := by
  refine .bind (follows_stampless (run_same delay.stamp ?_ _ _ _)) fun asked =>
    follows_makeRow asked.1 asked.2
  exact .bind (follows_same _ _ (Builtin.asTemplate_restamp _)) fun template =>
    .bind (follows_same _ _ (Value.asNumber_restamp _)) fun spanX =>
      .bind (follows_same _ _ (Value.asNumber_restamp _)) fun pitchY =>
        .bind (follows_same _ _ (Value.asCount_restamp _)) fun count =>
          .bind (follows_sameOptional _ _ (Builtin.asSharedName_restamp _)) fun name => .pure rfl

open Binding (follows_same follows_sameOptional run_same) in
theorem follows_makeSingle (args : Arguments) :
    Follows delay limits delay.value (Builtin.makeSingle args)
      (Builtin.makeSingle (args.restamp delay.stamp)) := by
  refine .bind (follows_stampless (run_same delay.stamp ?_ _ _ _)) fun asked =>
    follows_makeRow asked.1 asked.2
  exact .bind (follows_same _ _ (Builtin.asTemplate_restamp _)) fun template =>
    .bind (follows_same _ _ (Value.asNumber_restamp _)) fun pitchY =>
      .bind (follows_same _ _ (Value.asCount_restamp _)) fun count =>
        .bind (follows_sameOptional _ _ (Builtin.asSharedName_restamp _)) fun name => .pure rfl

theorem follows_rangeOf (args : Arguments) :
    Follows delay limits delay.value (Builtin.rangeOf args)
      (Builtin.rangeOf (args.restamp delay.stamp)) := by
  have hasked : ((args.restamp delay.stamp).unnamed "range" >>= Builtin.Progression.ofValues) =
      args.unnamed "range" >>= Builtin.Progression.ofValues := by
    rw [Arguments.unnamed_restamp]
    cases args.unnamed "range" with
    | error why => rfl
    | ok values => exact Builtin.progression_restamp _ values
  have hchecked : ((args.restamp delay.stamp).unnamed "range" >>= fun values => do
      let p ← Builtin.Progression.ofValues values
      if p.step = 0 then throw .zeroStep
      return p) = (args.unnamed "range" >>= fun values => do
        let p ← Builtin.Progression.ofValues values
        if p.step = 0 then throw .zeroStep
        return p) := by
    rw [← bind_assoc, hasked, bind_assoc]
  refine .bind (follows_stampless hchecked) fun p => .bind (follows_checkLength _) fun _ =>
    .bind (follows_charge _) fun _ => ?_
  have hlist : Follows delay limits delay.value _ _ := follows_list (p.terms.map .int)
  rw [List.map_map] at hlist
  exact hlist

theorem follows_textOf (args : Arguments) :
    Follows delay limits delay.value (Builtin.textOf args)
      (Builtin.textOf (args.restamp delay.stamp)) := by
  refine .bind (ofExcept (Arguments.only_restamp _ args "str")) fun v => ?_
  cases v with
  | text s => exact .pure rfl
  | list s | tuple s =>
    exact .bind (follows_literalOf _) fun _ => .pure rfl
  | _ => exact .bind (follows_literalOf _) fun _ => .pure rfl

theorem follows_call (function : Builtin) (args : Arguments) :
    Follows delay limits delay.value (function.call args)
      (function.call (args.restamp delay.stamp)) := by
  cases function with
  | rect kind => exact follows_made (Builtin.makeRect_restamp _ args kind)
  | line => exact follows_made (Builtin.makeLine_restamp _ args)
  | caption kind => exact follows_made (Builtin.makeCaption_restamp _ args kind)
  | smd => exact follows_made (Builtin.makeSmd_restamp _ args)
  | pad => exact follows_made (Builtin.makeDrilled_restamp _ args _)
  | hole => exact follows_made (Builtin.makeDrilled_restamp _ args _)
  | model => exact follows_made (Builtin.makeModel_restamp _ args)
  | dual => exact follows_makeDual args
  | single => exact follows_makeSingle args
  | range => exact follows_rangeOf args
  | len => exact ofExcept (Builtin.lengthOf_restamp _ args)
  | abs => exact ofExcept (Builtin.absoluteOf_restamp _ args)
  | min => exact ofExcept (Builtin.extremeOf_restamp _ args _ _)
  | max => exact ofExcept (Builtin.extremeOf_restamp _ args _ _)
  | str => exact follows_textOf args
  | int => exact ofExcept (Builtin.intOf_restamp _ args)
  | float => exact ofExcept (Builtin.floatOf_restamp _ args)

/-! ## Methods -/

theorem follows_append (s : Sequence Value) (item : Value) :
    Follows delay limits delay.sequence (Method.append s item)
      (Method.append (delay.sequence s) (delay.value item)) := by
  unfold Method.append
  rw [Sequence.length_restamp]
  refine .bind (follows_checkLength _) fun _ => .bind follows_freshStamp fun stamp => ?_
  dsimp only
  rw [← Sequence.push_restamp]
  exact .bind (follows_checkSequence _) fun _ => .pure rfl

theorem follows_extend (s : Sequence Value) (items : Value) :
    Follows delay limits delay.sequence (Method.extend s items)
      (Method.extend (delay.sequence s) (delay.value items)) := by
  unfold Method.extend
  rw [Value.sequence?_restamp]
  cases items.sequence? with
  | none => exact follows_refuse _ _
  | some other =>
    dsimp only [Option.map_some]
    rw [Sequence.length_restamp, Sequence.length_restamp]
    exact .bind (follows_checkLength _) fun _ => .bind (follows_charge _) fun _ =>
      .bind follows_freshStamp fun stamp => .pure (Sequence.append_restamp _ s other stamp).symm

theorem follows_remove (s : Sequence Value) (v : Value) :
    Follows delay limits delay.sequence (Method.remove s v)
      (Method.remove (delay.sequence s) (delay.value v)) := by
  refine .bind (follows_findIn v s.items) fun found => ?_
  cases found with
  | none => exact follows_refuse _ _
  | some position =>
    exact .bind follows_freshStamp fun stamp => .pure (Sequence.erase_restamp _ s position stamp).symm

theorem follows_pop (s : Sequence Value) :
    Follows delay limits (Prod.map delay.sequence delay.value) (Method.pop s)
      (Method.pop (delay.sequence s)) := by
  refine .bind follows_freshStamp fun stamp => ?_
  rw [Sequence.pop?_restamp]
  cases s.pop? stamp with
  | none => exact follows_refuse _ _
  | some result => exact .pure rfl

theorem follows_callOnList (s : Sequence Value) (method : String) (args : Arguments) :
    Follows delay limits (Prod.map delay.value delay.value) (Method.callOnList s method args)
      (Method.callOnList (delay.sequence s) method (args.restamp delay.stamp)) := by
  have honly (method : String) : Follows delay limits delay.value
      (Act.ofExcept (args.onlyOfMethod method))
      (Act.ofExcept ((args.restamp delay.stamp).onlyOfMethod method)) :=
    ofExcept (Arguments.onlyOfMethod_restamp _ args method)
  have hlist (s : Sequence Value) (result : Value) :
      (Value.list (delay.sequence s), delay.value result) =
        Prod.map delay.value delay.value (.list s, result) :=
    Prod.ext (Value.restamp_list _ s).symm rfl
  unfold Method.callOnList
  split
  · exact .bind (honly _) fun item => .bind (follows_append s item) fun grown =>
      .pure (hlist grown .nothing)
  · exact .bind (honly _) fun items => .bind (follows_extend s items) fun grown =>
      .pure (hlist grown .nothing)
  · exact .bind (honly _) fun v => .bind (follows_remove s v) fun rest =>
      .pure (hlist rest .nothing)
  · exact .bind (follows_stampless (Arguments.noneOfMethod_restamp _ args _)) fun _ =>
      .bind (follows_pop s) fun found => .pure (hlist found.1 found.2)
  · exact .bind (honly _) fun v => .bind (follows_findIn v s.items) fun found =>
      .pure (hlist s (.bool found.isSome))
  · exact follows_refuse _ _

theorem follows_method (receiver : Value) (method : String) (args : Arguments) :
    Follows delay limits (Prod.map delay.value delay.value) (Method.call receiver method args)
      (Method.call (delay.value receiver) method (args.restamp delay.stamp)) := by
  cases receiver with
  | list s =>
    rw [Delay.value, Value.restamp_list]
    exact follows_callOnList s method args
  | element e => exact ofExcept (Method.callOnElement_restamp _ e method args)
  | _ => exact follows_refuse _ _

/-! ## Components -/

/-- Writing to a component follows, when the writes to it do. -/
theorem follows_update {change : α → α} {write later : Value → Metered (Value × α)}
    (hw : ∀ old, Follows delay limits (Prod.map delay.value change) (write old)
      (later (delay.value old))) (v : Value) (steps : List Step) :
    Follows delay limits (Prod.map delay.value change) (v.update steps write)
      ((delay.value v).update steps later) := by
  induction steps generalizing v with
  | nil => exact hw v
  | cons step rest ih =>
    cases step with
    | field name =>
      cases v with
      | element e =>
        unfold Value.update
        dsimp only [Delay.value, Value.restamp]
        cases e.get? name.text with
        | none => exact .fault _ _
        | some datum =>
          refine .bind (follows_value datum) fun old => .bind (ih old) fun found => ?_
          obtain ⟨component, result⟩ := found
          dsimp only [Prod.map]
          rw [Element.write_restamp]
          cases e.write name.text component with
          | error why => exact .fault _ _
          | ok written => exact .pure rfl
      | _ => exact .fault _ _
    | index position span =>
      cases v with
      | list s =>
        rw [Delay.value, Value.restamp_list]
        unfold Value.update
        dsimp only
        rw [Sequence.length_restamp]
        cases Sequence.position? s.length position with
        | none => exact .fault _ _
        | some p =>
          have hitem : (delay.sequence s).items[p]? = s.items[p]?.map delay.value :=
            List.getElem?_map
          dsimp only
          rw [hitem]
          cases s.items[p]? with
          | none => exact .fault _ _
          | some item =>
            refine .bind (ih item) fun found => .bind follows_freshStamp fun stamp => .pure ?_
            exact Prod.ext ((Value.restamp_list _ _).trans
              (congrArg Value.list (Sequence.set_restamp _ s p found.1 stamp))).symm rfl
      | _ => exact .fault _ _

theorem follows_updateWithin {change : α → α} {write later : Value → Metered (Value × α)}
    (hw : ∀ old, Follows delay limits (Prod.map delay.value change) (write old)
      (later (delay.value old))) (v : Value) (steps : List Step) :
    Follows delay limits (Prod.map delay.value change) (v.updateWithin steps write)
      ((delay.value v).updateWithin steps later) :=
  .bind (follows_update hw v steps) fun found => .bind (follows_checkValue found.1) fun _ =>
    .pure rfl

end Metered

end LandPattern
