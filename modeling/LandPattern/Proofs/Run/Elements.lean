import LandPattern.Proofs.Run.Elementwise

/-!
# Properties of elements and functions

A property of elements that makers give, and that writes and copies keep, holds of every element at
any moment of a run, however deep it lies in lists and tuples, and so of every element of the result.
The same goes for a property that all functions of the script have.
-/

namespace LandPattern

open Metered (Yields yields_seq yields_refuse yields_list)

/-- Makers give elements with the property, and writes and copies keep it. Rows are made of a pad with
the property, at finite distances, and of no more pads than a list may have items. -/
structure Element.Lasting (limits : Limits) (P : Element → Prop) : Prop where
  rect {kind : RectKind} {args : Arguments} {e : Element}
    (h : Builtin.makeRect kind args = .ok e) : P e
  line {args : Arguments} {e : Element} (h : Builtin.makeLine args = .ok e) : P e
  caption {kind : CaptionKind} {args : Arguments} {e : Element}
    (h : Builtin.makeCaption kind args = .ok e) : P e
  smd {args : Arguments} {e : Element} (h : Builtin.makeSmd args = .ok e) : P e
  drilled {bore : Bore} {args : Arguments} {e : Element}
    (h : Builtin.makeDrilled bore args = .ok e) : P e
  model {args : Arguments} {e : Element} (h : Builtin.makeModel args = .ok e) : P e
  single {template : Element} {pitchY : Float} {count : Nat} {name : Option PadName}
    {pads : List Element} (ht : P template) (hy : pitchY.isFinite = true)
    (hc : count ≤ limits.collection) (h : Layout.single template pitchY count name = .ok pads) :
    ∀ pad ∈ pads, P pad
  dual {template : Element} {spanX pitchY : Float} {count : Nat} {name : Option PadName}
    {pads : List Element} (ht : P template) (hx : spanX.isFinite = true)
    (hy : pitchY.isFinite = true) (hc : count ≤ limits.collection)
    (h : Layout.dual template spanX pitchY count name = .ok pads) : ∀ pad ∈ pads, P pad
  write {e written : Element} {field : String} {v : Value} (he : P e)
    (h : e.write field v = .ok written) : P written
  placed {e copy : Element} {args : Arguments} (he : P e) (h : Method.placed e args = .ok copy) :
    P copy
  round {e : Element} (he : P e) : P e.round

section

variable {limits : Limits} {P : Element → Prop} {Q : String → Prop}

/-! ## Functions -/

theorem Value.finite_of_asNumber {v : Value} {what : String} {x : Float}
    (h : v.asNumber what = .ok x) : x.isFinite = true := by
  unfold Value.asNumber at h
  split at h
  · cases h
  · split at h <;> cases h
    assumption

theorem Value.finite_of_asPair {v : Value} {what : String} {p : Float × Float}
    (h : v.asPair what = .ok p) : p.1.isFinite = true ∧ p.2.isFinite = true := by
  unfold Value.asPair at h
  split at h
  · obtain ⟨a, ha, hrest⟩ := exists_of_bind_ok h
    obtain ⟨b, hb, hlast⟩ := exists_of_bind_ok hrest
    cases hlast
    exact ⟨finite_of_asNumber ha, finite_of_asNumber hb⟩
  · cases h

namespace Builtin

variable {args : Arguments}

/-- A number that is asked for is finite. -/
theorem reads_finite {good : Value → Prop} (param : String) :
    Binding.Reads good (Binding.required param Value.asNumber) fun x => x.isFinite = true :=
  Binding.reads_required fun _ _ _ hx => Value.finite_of_asNumber hx

/-- The template of a row is one of the values of the call. -/
theorem reads_leafwise_template (param : String) :
    Binding.Reads (Value.Leafwise P Q) (Binding.required param asTemplate) P := by
  refine Binding.reads_required fun v e hv he => ?_
  unfold asTemplate at he
  split at he <;> cases he
  exact Value.leafwise_element.1 hv

theorem yields_leafwise_rangeOf : Yields limits (rangeOf args) (Value.Leafwise P Q) := by
  refine yields_seq fun p => yields_seq fun _ => yields_seq fun _ => ?_
  refine (yields_list _).weaken fun v hv => ?_
  obtain ⟨stamp, rfl⟩ := hv
  refine Value.leafwise_items rfl fun item hitem => ?_
  obtain ⟨n, -, rfl⟩ := List.mem_map.1 hitem
  exact Value.leafwise_number rfl

theorem yields_leafwise_textOf : Yields limits (textOf args) (Value.Leafwise P Q) := by
  refine yields_seq fun v => ?_
  split
  · exact .pure (Value.leafwise_text _)
  · exact yields_seq fun _ => .pure (Value.leafwise_text _)

/-- The pads of a row that is asked for have the property, given that there are not too many. -/
def RowHas (limits : Limits) (P : Element → Prop)
    (asked : Nat × (Unit → Except ElementRefusal (List Element))) : Prop :=
  asked.1 ≤ limits.collection → ∀ pads, asked.2 () = .ok pads → ∀ pad ∈ pads, P pad

theorem yields_leafwise_makeRow {count : Nat}
    {row : Unit → Except ElementRefusal (List Element)} (h : RowHas limits P (count, row)) :
    Yields limits (makeRow count row) (Value.Leafwise P Q) := by
  refine .bind (Metered.yields_checkLength _) fun _ hcount => yields_seq fun _ => ?_
  split
  · rename_i pads hpads
    refine (yields_list _).weaken fun v hv => ?_
    obtain ⟨stamp, rfl⟩ := hv
    refine Value.leafwise_items rfl fun item hitem => ?_
    obtain ⟨pad, hpad, rfl⟩ := List.mem_map.1 hitem
    exact Value.leafwise_element.2 (h hcount pads hpads pad hpad)
  · exact yields_refuse _

variable (hP : Element.Lasting limits P)

include hP

theorem yields_leafwise_makeDual (ha : args.All (Value.Leafwise P Q)) :
    Yields limits (makeDual args) (Value.Leafwise P Q) := by
  refine .bind (.ofExcept fun asked hasked => ?_) fun asked (hrow : RowHas limits P asked) =>
    yields_leafwise_makeRow hrow
  refine Binding.run_reads (?_ : Binding.Reads (Value.Leafwise P Q) _ _) ha hasked
  exact Binding.reads_bind (reads_leafwise_template _) fun template htemplate =>
    Binding.reads_bind (reads_finite _) fun spanX hx => Binding.reads_bind (reads_finite _)
      fun pitchY hy => Binding.reads_bind reads_any fun count _ =>
        Binding.reads_bind reads_any_optional fun name _ =>
          Binding.reads_pure fun hcount pads hpads => hP.dual htemplate hx hy hcount hpads

theorem yields_leafwise_makeSingle (ha : args.All (Value.Leafwise P Q)) :
    Yields limits (makeSingle args) (Value.Leafwise P Q) := by
  refine .bind (.ofExcept fun asked hasked => ?_) fun asked (hrow : RowHas limits P asked) =>
    yields_leafwise_makeRow hrow
  refine Binding.run_reads (?_ : Binding.Reads (Value.Leafwise P Q) _ _) ha hasked
  exact Binding.reads_bind (reads_leafwise_template _) fun template htemplate =>
    Binding.reads_bind (reads_finite _) fun pitchY hy => Binding.reads_bind reads_any
      fun count _ => Binding.reads_bind reads_any_optional fun name _ =>
        Binding.reads_pure fun hcount pads hpads => hP.single htemplate hy hcount hpads

theorem yields_leafwise_call (word : Builtin) (ha : args.All (Value.Leafwise P Q)) :
    Yields limits (word.call args) (Value.Leafwise P Q) := by
  have hmade : ∀ {made : Except Refusal Element}, (∀ e, made = .ok e → P e) →
      Yields limits (Act.ofExcept (Value.element <$> made)) (Value.Leafwise P Q) := by
    intro made hall
    refine .ofExcept fun v hv => ?_
    obtain ⟨e, he, rfl⟩ := exists_of_map_ok hv
    exact Value.leafwise_element.2 (hall e he)
  cases word with
  | rect kind => exact hmade fun _ he => hP.rect he
  | line => exact hmade fun _ he => hP.line he
  | caption kind => exact hmade fun _ he => hP.caption he
  | smd => exact hmade fun _ he => hP.smd he
  | pad => exact hmade fun _ he => hP.drilled he
  | hole => exact hmade fun _ he => hP.drilled he
  | model => exact hmade fun _ he => hP.model he
  | dual => exact yields_leafwise_makeDual hP ha
  | single => exact yields_leafwise_makeSingle hP ha
  | range => exact yields_leafwise_rangeOf
  | len => exact Value.yields_leafwise_number fun _ h => number?_lengthOf h
  | abs => exact Value.yields_leafwise_number fun _ h => number?_absoluteOf h
  | min => exact Value.yields_leafwise_number fun _ h => number?_extremeOf h
  | max => exact Value.yields_leafwise_number fun _ h => number?_extremeOf h
  | str => exact yields_leafwise_textOf
  | int => exact Value.yields_leafwise_number fun _ h => number?_intOf h
  | float => exact Value.yields_leafwise_number fun _ h => number?_floatOf h

end Builtin

/-! ## Methods and writes -/

namespace Method

variable {args : Arguments}

/-- What is inside the receiver afterwards, and inside the result, has the properties. -/
def Keeps (P : Element → Prop) (Q : String → Prop) (found : Value × Value) : Prop :=
  found.1.Leafwise P Q ∧ found.2.Leafwise P Q

theorem keeps_nothing {v : Value} (h : v.Leafwise P Q) : Keeps P Q (v, .nothing) :=
  ⟨h, Value.leafwise_nothing⟩

section

variable {s : Sequence Value} (hs : ∀ item ∈ s.items, item.Leafwise P Q)

include hs

theorem yields_leafwise_append {item : Value} (hi : item.Leafwise P Q) :
    Yields limits (append s item) fun grown => ∀ item ∈ grown.items, item.Leafwise P Q := by
  refine yields_seq fun _ => yields_seq fun stamp => yields_seq fun _ => .pure fun found hfound => ?_
  rcases List.mem_append.1 hfound with hold | hnew
  · exact hs found hold
  · rw [List.mem_singleton.1 hnew]
    exact hi

theorem yields_leafwise_extend {items : Value} (hi : items.Leafwise P Q) :
    Yields limits (extend s items) fun grown => ∀ item ∈ grown.items, item.Leafwise P Q := by
  unfold extend
  split
  · exact yields_refuse _
  · rename_i other hother
    refine yields_seq fun _ => yields_seq fun _ => yields_seq fun stamp => .pure fun found hfound => ?_
    rcases List.mem_append.1 hfound with hold | hnew
    · exact hs found hold
    · exact hi.items hother found hnew

theorem yields_leafwise_remove (v : Value) :
    Yields limits (remove s v) fun left => ∀ item ∈ left.items, item.Leafwise P Q := by
  refine yields_seq fun found => ?_
  split
  · exact yields_seq fun stamp => .pure fun item hitem => hs item (List.mem_of_mem_eraseIdx hitem)
  · exact yields_refuse _

theorem yields_leafwise_pop :
    Yields limits (pop s) fun found =>
      (∀ item ∈ found.1.items, item.Leafwise P Q) ∧ found.2.Leafwise P Q := by
  refine yields_seq fun stamp => ?_
  split
  · rename_i found hfound
    obtain ⟨last, hlast, heq⟩ := Option.map_eq_some_iff.1 hfound
    cases heq
    exact .pure ⟨fun item hitem => hs item ((List.dropLast_sublist _).mem hitem),
      hs last (List.mem_of_getLast? hlast)⟩
  · exact yields_refuse _

end

theorem yields_leafwise_onList {s : Sequence Value} (method : String)
    (hs : (Value.list s).Leafwise P Q) (ha : args.All (Value.Leafwise P Q)) :
    Yields limits (callOnList s method args) (Keeps P Q) := by
  have hitems := hs.items rfl
  have hleft : ∀ {left : Sequence Value}, (∀ item ∈ left.items, item.Leafwise P Q) →
      Keeps P Q (.list left, .nothing) := fun h => keeps_nothing (Value.leafwise_items rfl h)
  have honly : Yields limits (Act.ofExcept (args.onlyOfMethod method)) (Value.Leafwise P Q) :=
    .ofExcept fun v hv => ha.onlyOfMethod hv
  unfold callOnList
  split
  · exact .bind honly fun item hitem => .bind (yields_leafwise_append hitems hitem)
      fun _ hnew => .pure (hleft hnew)
  · exact .bind honly fun items hmore => .bind (yields_leafwise_extend hitems hmore)
      fun _ hnew => .pure (hleft hnew)
  · exact .bind honly fun v _ => .bind (yields_leafwise_remove hitems v) fun _ hnew =>
      .pure (hleft hnew)
  · exact yields_seq fun _ => .bind (yields_leafwise_pop hitems) fun _ hfound =>
      .pure ⟨Value.leafwise_items rfl hfound.1, hfound.2⟩
  · exact yields_seq fun v => yields_seq fun found => .pure ⟨hs, Value.leafwise_bool _⟩
  · exact yields_refuse _

variable (hP : Element.Lasting limits P)

include hP

theorem keeps_onElement {e : Element} {method : String} {found : Value × Value} (he : P e)
    (hf : callOnElement e method args = .ok found) : Keeps P Q found := by
  have hself : (Value.element e).Leafwise P Q := Value.leafwise_element.2 he
  unfold callOnElement at hf
  split at hf
  · obtain ⟨copy, hcopy, hlast⟩ := exists_of_bind_ok hf
    cases hlast
    exact ⟨hself, Value.leafwise_element.2 (hP.placed he hcopy)⟩
  · obtain ⟨copy, hcopy, hlast⟩ := exists_of_bind_ok hf
    cases hlast
    exact ⟨hself, Value.leafwise_element.2 (hP.placed he hcopy)⟩
  · obtain ⟨_, -, hlast⟩ := exists_of_bind_ok hf
    cases hlast
    exact keeps_nothing (Value.leafwise_element.2 (hP.round he))
  · cases hf

theorem yields_leafwise_method {receiver : Value} (method : String)
    (hr : receiver.Leafwise P Q) (ha : args.All (Value.Leafwise P Q)) :
    Yields limits (Method.call receiver method args) (Keeps P Q) := by
  cases receiver with
  | list s => exact yields_leafwise_onList method hr ha
  | element e =>
    exact .ofExcept fun _ hf => keeps_onElement hP (Value.leafwise_element.1 hr) hf
  | _ => exact yields_refuse _

end Method

namespace Value

variable (hP : Element.Lasting limits P)

include hP

/-- A write replaces one component of a value by one with the properties. -/
theorem Leafwise.yields_update {α : Type} {promise : α → Prop} {v : Value}
    {write : Value → Metered (Value × α)} (steps : List Step) (h : v.Leafwise P Q)
    (hw : ∀ old, old.Leafwise P Q → Yields limits (write old) fun found =>
      found.1.Leafwise P Q ∧ promise found.2) :
    Yields limits (v.update steps write) fun found =>
      found.1.Leafwise P Q ∧ promise found.2 := by
  -- The component at the end of the steps is written first, then each one around it.
  induction steps generalizing v with
  | nil => exact hw v h
  | cons step rest ih =>
    cases step with
    | field name =>
      unfold update
      split
      · split
        · exact .fault _
        · refine .bind (yields_leafwise_datum _) fun old hold =>
            .bind (ih hold) fun found hfound => ?_
          dsimp only
          split
          · rename_i written hwritten
            have helement := hP.write (leafwise_element.1 h) hwritten
            exact .pure ⟨leafwise_element.2 helement, hfound.2⟩
          · exact .fault _
      · exact .fault _
    | index position span =>
      unfold update
      split
      · split
        · exact .fault _
        · split
          · exact .fault _
          · rename_i s p _ _ item hitem
            have hitems := h.items rfl
            refine .bind (ih (hitems item (List.mem_of_getElem? hitem))) fun found hfound => ?_
            refine yields_seq fun stamp => .pure ⟨leafwise_items rfl fun other hother => ?_, hfound.2⟩
            rcases List.mem_or_eq_of_mem_set hother with hold | rfl
            · exact hitems other hold
            · exact hfound.1
      · exact .fault _

theorem Leafwise.yields_updateWithin {α : Type} {R : α → Prop} {v : Value}
    {write : Value → Metered (Value × α)} (steps : List Step) (h : v.Leafwise P Q)
    (hw : ∀ old, old.Leafwise P Q → Yields limits (write old) fun found =>
      found.1.Leafwise P Q ∧ R found.2) :
    Yields limits (v.updateWithin steps write) fun found =>
      found.1.Leafwise P Q ∧ R found.2 :=
  .bind (h.yields_update hP steps hw) fun _ hfound => yields_seq fun _ => .pure hfound

/-- Everything a script does with values keeps the property of the elements inside them, and that of
the functions, which every function of the script has. -/
theorem lasting_leafwise {functions : List Script.Function}
    (hQ : ∀ name, (Context.function? ⟨functions, limits⟩ name).isSome → Q name) :
    Value.Lasting ⟨functions, limits⟩ (Leafwise P Q) where
  nothing := leafwise_nothing
  bool := leafwise_bool
  int _ := leafwise_number rfl
  float _ := leafwise_number rfl
  builtin _ :=
    leafwise_plain rfl (fun _ heq => (by cases heq)) fun _ heq => (by cases heq)
  function h := leafwise_function.2 (hQ _ h)
  items h hs := h.items hs
  collected h := by
    refine .bind (Metered.yields_sequence _) fun s hs => yields_seq fun _ => .pure ?_
    obtain ⟨stamp, rfl⟩ := hs
    exact ⟨leafwise_items rfl h, leafwise_items rfl h⟩
  combine op _ _ hv hw := hv.yields_combine op hw
  call word _ ha := Builtin.yields_leafwise_call hP word ha
  method name _ hr ha :=
    (Method.yields_leafwise_method hP name hr ha).weaken fun _ hfound => hfound.2
  readField {v} field _ := yields_leafwise_readField v field
  readIndex h hi := h.readIndex hi
  mutated steps name _ hr ha :=
    hr.yields_updateWithin hP steps fun _ hold => Method.yields_leafwise_method hP name hold ha
  stored {root v} steps op hr hv := by
    have hassigned : ∀ old : Value, old.Leafwise P Q →
        Yields limits (old.assigned op v) (Leafwise P Q) := by
      intro old hold
      unfold assigned
      split
      · exact .pure hv
      · exact hold.yields_combine _ hv
    refine (hr.yields_updateWithin (R := fun _ => True) hP steps fun old hold => ?_).weaken
      fun _ hfound => hfound.1
    exact .bind (hassigned old hold) fun _ hnew => .pure ⟨hnew, trivial⟩

/-- Everything a script does with values keeps the property of the elements inside them. -/
theorem lasting_elementwise (functions : List Script.Function) :
    Value.Lasting ⟨functions, limits⟩ (Elementwise P) := by
  have hsame : Elementwise P = Leafwise P fun _ => True :=
    funext fun _ => propext leafwise_true_iff.symm
  rw [hsame]
  exact lasting_leafwise hP fun _ _ => trivial

end Value

end

end LandPattern
