import LandPattern.Proofs.Run.Lasting
import LandPattern.Proofs.Values.ElementBounds
import LandPattern.Proofs.Values.Writing

/-!
# Bounds of results

Operators, functions and methods give values within the bounds when their operands are. Each of them
checks what it makes longer or deeper, and what it only takes apart or moves was checked before.
-/

namespace LandPattern

open Metered (Yields yields_any yields_seq yields_refuse yields_checkLength yields_checkRepetition
  yields_checkSequence yields_list)

/-- What passes the checks of these limits keeps to the bounds. -/
structure Bounds.Covers (b : Bounds) (limits : Limits) : Prop where
  items : limits.collection ≤ b.items
  bytes : limits.collection ≤ b.bytes
  depth : limits.valueDepth ≤ b.depth

variable {b : Bounds} {limits : Limits}

namespace Value

/-! ## Operators -/

theorem number?_arithmetic {op : Script.BinaryOp} {onInts : Int → Int → Int}
    {onFloats : Float → Float → Float} {v w result : Value}
    (h : arithmetic op onInts onFloats v w = .ok result) : result.number?.isSome := by
  unfold arithmetic at h
  split at h
  · split at h <;> cases h
    rfl
  · split at h <;> cases h
    rfl

theorem number?_divide {v w result : Value} (h : divide v w = .ok result) :
    result.number?.isSome := by
  unfold divide at h
  split at h
  · split at h <;> cases h
    rfl
  · cases h

theorem number?_modulo {v w result : Value} (h : modulo v w = .ok result) :
    result.number?.isSome := by
  unfold modulo at h
  split at h
  · split at h
    · cases h
    · split at h <;> cases h
      rfl
  · split at h
    · split at h <;> cases h
      rfl
    · cases h

theorem yields_number {result : Except Refusal Value}
    (h : ∀ v, result = .ok v → v.number?.isSome) :
    Yields limits (Act.ofExcept result) (Value.Within b) :=
  .ofExcept fun v hv => within_number (h v hv)

variable (hb : b.Covers limits)

include hb

theorem yields_concat {s t : Sequence Value} (hs : s.Sound b) (ht : t.Sound b) :
    Yields limits (concat s t) fun joined => joined.Sound b ∧ joined.depth ≤ b.depth := by
  refine .bind (yields_checkLength _) fun _ hlength => yields_seq fun _ => yields_seq fun stamp => ?_
  refine .bind (yields_checkSequence _) fun _ hchecked => .pure ?_
  exact ⟨hs.append ht (Nat.le_trans hlength hb.items) stamp, Nat.le_trans hchecked.2 hb.depth⟩

theorem yields_add {v w : Value} (hv : v.Within b) (hw : w.Within b) :
    Yields limits (add v w) (Value.Within b) := by
  unfold add
  split
  · refine .bind (yields_checkLength _) fun _ hlength => yields_seq fun _ => .pure (within_text ?_)
    rw [Bounds.HasText, String.utf8ByteSize_append]
    exact Nat.le_trans hlength hb.bytes
  · exact .bind (yields_concat hb (sound_list.1 hv.sound) (sound_list.1 hw.sound))
      fun _ hjoined => .pure (within_list hjoined.1 hjoined.2)
  · exact .bind (yields_concat hb (sound_tuple.1 hv.sound) (sound_tuple.1 hw.sound))
      fun _ hjoined => .pure (within_tuple hjoined.1 hjoined.2)
  · exact yields_number fun _ h => number?_arithmetic h

/-- The items of a repetition are those of the list, so it is no deeper. -/
theorem yields_repeatList {s : Sequence Value} {times : Nat} (hs : s.Sound b)
    (hd : s.depth ≤ b.depth) : Yields limits (repeatList s times) (Value.Within b) := by
  refine .bind (yields_checkRepetition _ _) fun _ hlength => yields_seq fun _ => ?_
  refine (yields_list _).weaken fun v hv => ?_
  obtain ⟨stamp, rfl⟩ := hv
  have hmem : ∀ item ∈ repeated times s.items, item ∈ s.items := fun _ hitem => (mem_repeated.1 hitem).2
  refine within_list (.ofItems ?_ (fun item hitem => hs.items item (hmem item hitem)) stamp) ?_
  · rw [length_repeated]
    exact Nat.le_trans hlength hb.items
  · exact Nat.le_trans (Sequence.depthOf_le hs.positive fun item hitem =>
      hs.deeper item (hmem item hitem)) hd

theorem yields_repeatText (text : String) (times : Nat) :
    Yields limits (repeatText text times) (Value.Within b) := by
  refine .bind (yields_checkRepetition _ _) fun _ hlength => yields_seq fun _ => .pure (within_text ?_)
  rw [Bounds.HasText, Script.utf8ByteSize_ofList, byteLength_repeated, Script.byteLength_toList]
  exact Nat.le_trans hlength hb.bytes

theorem yields_multiply {v w : Value} (hv : v.Within b) (hw : w.Within b) :
    Yields limits (multiply v w) (Value.Within b) := by
  unfold multiply
  split
  · exact yields_repeatList hb (sound_list.1 hv.sound) hv.depth
  · exact yields_repeatList hb (sound_list.1 hw.sound) hw.depth
  · exact yields_repeatText hb _ _
  · exact yields_repeatText hb _ _
  · exact yields_number fun _ h => number?_arithmetic h

theorem yields_combine (op : Script.BinaryOp) {v w : Value} (hv : v.Within b) (hw : w.Within b) :
    Yields limits (v.combine op w) (Value.Within b) := by
  have hbool : ∀ {α : Type} (act : Metered α) (answer : α → Bool),
      Yields limits (do return Value.bool (answer (← act))) (Value.Within b) :=
    fun _ _ => yields_seq fun _ => .pure (within_atom rfl trivial)
  cases op with
  | add => exact yields_add hb hv hw
  | mul => exact yields_multiply hb hv hw
  | sub => exact yields_number fun _ h => number?_arithmetic h
  | div => exact yields_number fun _ h => number?_divide h
  | mod => exact yields_number fun _ h => number?_modulo h
  | eq => exact hbool _ id
  | ne => exact hbool _ (!·)
  | lt | le | gt | ge => exact hbool _ _
  | and | or => exact .fault _

theorem yields_assigned (op : Script.AssignOp) {old v : Value} (ho : old.Within b)
    (hv : v.Within b) : Yields limits (old.assigned op v) (Value.Within b) := by
  unfold assigned
  split
  · exact .pure hv
  · exact yields_combine hb _ ho hv

end Value

/-! ## Attributes -/

/-- A list of layers is read as a list of one level, for which there is room. -/
theorem Bounds.HasDatum.yields_value {datum : Datum} (h : b.HasDatum datum) :
    Yields limits datum.value (Value.Within b) := by
  cases datum with
  | number x => exact .pure (Value.within_atom rfl trivial)
  | flag x => exact .pure (Value.within_atom rfl trivial)
  | text text => exact .pure (Value.within_text h)
  | pad name =>
    cases name with
    | number n => exact .pure (Value.within_atom rfl trivial)
    | text text => exact .pure (Value.within_text h)
  | shape form =>
    refine .pure (Value.within_text (Bounds.hasText_of_le ?_))
    cases form <;> decide
  | layers names =>
    refine (yields_list _).weaken fun v hv => ?_
    obtain ⟨stamp, rfl⟩ := hv
    refine Value.within_atoms ?_ (fun item hitem => ?_) stamp
    · rw [List.length_map]
      exact h.length
    · obtain ⟨name, hname, rfl⟩ := List.mem_map.1 hitem
      exact ⟨Value.sound_text.2 (h.texts name hname), rfl⟩

theorem Value.Within.yields_readField {v : Value} (h : v.Within b) (field : String) :
    Yields limits (v.readField field) (Value.Within b) := by
  unfold Value.readField
  split
  · split
    · rename_i datum hdatum
      exact ((Value.sound_element.1 h.sound).get? hdatum).yields_value
    · exact yields_refuse _
  · exact yields_refuse _

/-- An item is inside its list, and a character takes few bytes. -/
theorem Value.Within.readIndex {v item : Value} {index : Int} (h : v.Within b)
    (hi : v.readIndex index = .ok item) : item.Within b := by
  have hitem : ∀ s : Sequence Value, v.sequence? = some s → s.get? index = some item →
      item.Within b := by
    intro s hs hget
    obtain ⟨p, -, hp⟩ := Option.bind_eq_some_iff.1 hget
    exact h.items hs item (List.mem_of_getElem? hp)
  unfold Value.readIndex at hi
  split at hi
  · rename_i s
    split at hi <;> cases hi
    exact hitem s rfl ‹_›
  · rename_i s
    split at hi <;> cases hi
    exact hitem s rfl ‹_›
  · split at hi <;> cases hi
    rename_i c _
    refine Value.within_text (Bounds.hasText_of_le ?_)
    have hsize := c.utf8Size_le_four
    rw [Char.toString_eq_singleton, String.utf8ByteSize_singleton]
    omega
  · cases hi

/-! ## Functions -/

namespace Builtin

variable {args : Arguments}

theorem number?_lengthOf {v : Value} (h : lengthOf args = .ok v) : v.number?.isSome := by
  obtain ⟨found, -, hrest⟩ := exists_of_bind_ok h
  split at hrest <;> cases hrest <;> rfl

theorem number?_absoluteOf {v : Value} (h : absoluteOf args = .ok v) : v.number?.isSome := by
  obtain ⟨found, -, hrest⟩ := exists_of_bind_ok h
  split at hrest
  · split at hrest <;> cases hrest
    rfl
  · cases hrest
    rfl
  · cases hrest

/-- The extreme is a number, also when there is nothing to compare it with. -/
theorem number?_extremeFrom {callee : String} {wanted : Ordering} {best v : Value}
    {candidates : List Value} (h : extremeFrom callee wanted best candidates = .ok v) :
    v.number?.isSome := by
  induction candidates generalizing best with
  | nil =>
    unfold extremeFrom at h
    split at h
    · cases h
      assumption
    · cases h
  | cons candidate rest ih =>
    unfold extremeFrom at h
    split at h
    · exact ih h
    · cases h

theorem number?_extremeOf {callee : String} {wanted : Ordering} {v : Value}
    (h : extremeOf callee wanted args = .ok v) : v.number?.isSome := by
  obtain ⟨values, -, hrest⟩ := exists_of_bind_ok h
  dsimp only at hrest
  split at hrest
  · cases hrest
  · exact number?_extremeFrom hrest

theorem number?_intOf {v : Value} (h : intOf args = .ok v) : v.number?.isSome := by
  obtain ⟨found, -, hrest⟩ := exists_of_bind_ok h
  split at hrest
  · cases hrest
    rfl
  · cases hrest
    rfl
  · split at hrest <;> cases hrest
    rfl
  · split at hrest <;> cases hrest
    rfl
  · cases hrest

theorem number?_floatOf {v : Value} (h : floatOf args = .ok v) : v.number?.isSome := by
  obtain ⟨found, -, hrest⟩ := exists_of_bind_ok h
  split at hrest
  · cases hrest
    rfl
  · cases hrest
    rfl
  · split at hrest <;> cases hrest
    rfl
  · cases hrest

/-- A row has no more pads than are asked for, and all of them keep to the bounds. -/
def HasRow (b : Bounds) (asked : Nat × (Unit → Except ElementRefusal (List Element))) : Prop :=
  ∀ pads, asked.2 () = .ok pads → pads.length ≤ asked.1 ∧ ∀ pad ∈ pads, b.HasElement pad

variable (hb : b.Covers limits)

include hb

theorem yields_rangeOf : Yields limits (rangeOf args) (Value.Within b) := by
  refine yields_seq fun p => .bind (yields_checkLength _) fun _ hlength => yields_seq fun _ => ?_
  refine (yields_list _).weaken fun v hv => ?_
  obtain ⟨stamp, rfl⟩ := hv
  refine Value.within_atoms ?_ (fun item hitem => ?_) stamp
  · rw [List.length_map, Progression.terms, List.length_map, List.length_range]
    exact Nat.le_trans hlength hb.items
  · obtain ⟨n, -, rfl⟩ := List.mem_map.1 hitem
    exact ⟨.atom rfl trivial, rfl⟩

theorem yields_makeRow {count : Nat} {row : Unit → Except ElementRefusal (List Element)}
    (hr : HasRow b (count, row)) : Yields limits (makeRow count row) (Value.Within b) := by
  refine .bind (yields_checkLength _) fun _ hlength => yields_seq fun _ => ?_
  split
  · rename_i pads hpads
    obtain ⟨hcount, hall⟩ := hr pads hpads
    refine (yields_list _).weaken fun v hv => ?_
    obtain ⟨stamp, rfl⟩ := hv
    refine Value.within_atoms ?_ (fun item hitem => ?_) stamp
    · rw [List.length_map]
      exact Nat.le_trans hcount (Nat.le_trans hlength hb.items)
    · obtain ⟨pad, hpad, rfl⟩ := List.mem_map.1 hitem
      exact ⟨Value.sound_element.2 (hall pad hpad), rfl⟩
  · exact yields_refuse _

omit hb in
theorem reads_template (param : String) :
    Binding.Reads (Value.Within b) (Binding.required param asTemplate) b.HasElement := by
  refine Binding.reads_required fun v e hv he => ?_
  unfold asTemplate at he
  split at he <;> cases he
  exact Value.sound_element.1 hv.sound

omit hb in
/-- A shared identifier is one of the values of the call. -/
theorem reads_sharedName (param : String) :
    Binding.Reads (Value.Within b) (Binding.optional param asSharedName) fun found =>
      ∀ shared, found.getD none = some shared → b.HasName shared := by
  have hread : ∀ v found, Value.Within b v → asSharedName v param = .ok found →
      ∀ shared, found = some shared → b.HasName shared := by
    intro v found hv heq shared hshared
    unfold asSharedName at heq
    split at heq
    · cases heq
      cases hshared
    · obtain ⟨name, hname, rfl⟩ := exists_of_map_ok heq
      cases hshared
      exact hv.sound.asPadName hname
  have hoption := Binding.reads_optional hread
  intro bound hbound result hresult
  obtain ⟨hleft, hfound⟩ := hoption bound hbound result hresult
  refine ⟨hleft, fun shared hshared => ?_⟩
  cases hcase : result.1 with
  | none =>
    rw [hcase] at hshared
    cases hshared
  | some name =>
    rw [hcase] at hshared
    exact hfound name hcase shared hshared

theorem yields_makeDual (ha : args.All (Value.Within b)) :
    Yields limits (makeDual args) (Value.Within b) := by
  refine .bind (.ofExcept fun asked hasked => ?_) fun asked (hrow : HasRow b asked) =>
    yields_makeRow hb hrow
  refine Binding.run_reads (?_ : Binding.Reads (Value.Within b) _ _) ha hasked
  exact Binding.reads_bind (reads_template _) fun template htemplate =>
    Binding.reads_bind reads_any fun spanX _ => Binding.reads_bind reads_any fun pitchY _ =>
      Binding.reads_bind reads_any fun count _ =>
        Binding.reads_bind (reads_sharedName _) fun name hname =>
          Binding.reads_pure fun pads hpads => Layout.hasElement_dual htemplate hname hpads

theorem yields_makeSingle (ha : args.All (Value.Within b)) :
    Yields limits (makeSingle args) (Value.Within b) := by
  refine .bind (.ofExcept fun asked hasked => ?_) fun asked (hrow : HasRow b asked) =>
    yields_makeRow hb hrow
  refine Binding.run_reads (?_ : Binding.Reads (Value.Within b) _ _) ha hasked
  exact Binding.reads_bind (reads_template _) fun template htemplate =>
    Binding.reads_bind reads_any fun pitchY _ => Binding.reads_bind reads_any fun count _ =>
      Binding.reads_bind (reads_sharedName _) fun name hname =>
        Binding.reads_pure fun pads hpads => Layout.hasElement_single htemplate hname hpads

/-- The literal form of a value is cut off at the limit, and a text stays as it is. -/
theorem yields_textOf (ha : args.All (Value.Within b)) :
    Yields limits (textOf args) (Value.Within b) := by
  have hliteral : ∀ v, Yields limits (literalOf v) b.HasText := by
    intro v
    refine .bind .read fun found hfound => ?_
    subst hfound
    dsimp only
    split
    · rename_i written hwritten
      obtain ⟨rfl, hfits⟩ := Value.literalWithin_eq_some_iff.1 hwritten
      exact .pure (Nat.le_trans hfits hb.bytes)
    · exact yields_refuse _
  refine .bind (.ofExcept fun v hv => ha.only hv) fun v hv => ?_
  split
  · exact .pure hv
  · exact .bind (hliteral _) fun written hwritten => .pure (Value.within_text hwritten)

theorem yields_call (word : Builtin) (ha : args.All (Value.Within b)) :
    Yields limits (word.call args) (Value.Within b) := by
  have hmade : ∀ {made : Except Refusal Element}, (∀ e, made = .ok e → b.HasElement e) →
      Yields limits (Act.ofExcept (Value.element <$> made)) (Value.Within b) := by
    intro made hall
    refine .ofExcept fun v hv => ?_
    obtain ⟨e, he, rfl⟩ := exists_of_map_ok hv
    exact Value.within_element (hall e he)
  cases word with
  | rect kind => exact hmade fun _ he => hasElement_makeRect ha he
  | line => exact hmade fun _ he => hasElement_makeLine ha he
  | caption kind => exact hmade fun _ he => hasElement_makeCaption ha he
  | smd => exact hmade fun _ he => hasElement_makeSmd ha he
  | pad => exact hmade fun _ he => hasElement_makeDrilled ha he
  | hole => exact hmade fun _ he => hasElement_makeDrilled ha he
  | model => exact hmade fun _ he => hasElement_makeModel ha he
  | dual => exact yields_makeDual hb ha
  | single => exact yields_makeSingle hb ha
  | range => exact yields_rangeOf hb
  | len => exact Value.yields_number fun _ h => number?_lengthOf h
  | abs => exact Value.yields_number fun _ h => number?_absoluteOf h
  | min => exact Value.yields_number fun _ h => number?_extremeOf h
  | max => exact Value.yields_number fun _ h => number?_extremeOf h
  | str => exact yields_textOf hb ha
  | int => exact Value.yields_number fun _ h => number?_intOf h
  | float => exact Value.yields_number fun _ h => number?_floatOf h

end Builtin

/-! ## Methods and writes -/

namespace Method

variable {args : Arguments}

/-- A method leaves a sound receiver, and gives back a value within the bounds. -/
def Leaves (b : Bounds) (found : Value × Value) : Prop := found.1.Sound b ∧ found.2.Within b

theorem leaves_nothing {v : Value} (h : v.Sound b) : Leaves b (v, .nothing) :=
  ⟨h, Value.within_atom rfl trivial⟩

variable (hb : b.Covers limits)

include hb

theorem yields_append {s : Sequence Value} {item : Value} (hs : s.Sound b) (hi : item.Sound b) :
    Yields limits (append s item) (Sequence.Sound b) := by
  refine .bind (yields_checkLength _) fun _ hlength => yields_seq fun stamp => yields_seq fun _ => ?_
  exact .pure (hs.push hi (Nat.le_trans hlength hb.items) stamp)

theorem yields_extend {s : Sequence Value} {items : Value} (hs : s.Sound b) (hi : items.Sound b) :
    Yields limits (extend s items) (Sequence.Sound b) := by
  unfold extend
  split
  · exact yields_refuse _
  · rename_i other hother
    refine .bind (yields_checkLength _) fun _ hlength => yields_seq fun _ => yields_seq fun stamp => ?_
    exact .pure (hs.append ((Value.sound_of_sequence? hother).1 hi)
      (Nat.le_trans hlength hb.items) stamp)

omit hb in
theorem yields_remove {s : Sequence Value} {v : Value} (hs : s.Sound b) :
    Yields limits (remove s v) (Sequence.Sound b) := by
  refine yields_seq fun found => ?_
  split
  · exact yields_seq fun stamp => .pure (hs.erase _ stamp)
  · exact yields_refuse _

omit hb in
theorem yields_pop {s : Sequence Value} (hs : (Value.list s).Within b) :
    Yields limits (pop s) fun found => found.1.Sound b ∧ found.2.Within b := by
  refine yields_seq fun stamp => ?_
  split
  · rename_i found hfound
    obtain ⟨hrest, -, hlast⟩ := (Value.sound_list.1 hs.sound).pop? hfound
    exact .pure ⟨hrest, hs.items rfl _ hlast⟩
  · exact yields_refuse _

theorem yields_callOnList {s : Sequence Value} (method : String) (hs : (Value.list s).Within b)
    (ha : args.All (Value.Within b)) : Yields limits (callOnList s method args) (Leaves b) := by
  have hsound := Value.sound_list.1 hs.sound
  have honly : Yields limits (Act.ofExcept (args.onlyOfMethod method)) (Value.Within b) :=
    .ofExcept fun v hv => ha.onlyOfMethod hv
  unfold callOnList
  split
  · exact .bind honly fun item hitem => .bind (yields_append hb hsound hitem.sound) fun _ hnew =>
      .pure (leaves_nothing (Value.sound_list.2 hnew))
  · exact .bind honly fun items hitems => .bind (yields_extend hb hsound hitems.sound)
      fun _ hnew => .pure (leaves_nothing (Value.sound_list.2 hnew))
  · exact .bind honly fun v _ => .bind (yields_remove hsound) fun _ hnew =>
      .pure (leaves_nothing (Value.sound_list.2 hnew))
  · exact yields_seq fun _ => .bind (yields_pop hs) fun found hfound =>
      .pure ⟨Value.sound_list.2 hfound.1, hfound.2⟩
  · exact yields_seq fun v => yields_seq fun found =>
      .pure ⟨hs.sound, Value.within_atom rfl trivial⟩
  · exact yields_refuse _

omit hb in
theorem leaves_callOnElement {e : Element} {method : String} {found : Value × Value}
    (he : b.HasElement e) (ha : args.All (Value.Within b))
    (hf : callOnElement e method args = .ok found) : Leaves b found := by
  unfold callOnElement at hf
  split at hf
  · obtain ⟨copy, hcopy, hlast⟩ := exists_of_bind_ok hf
    cases hlast
    exact ⟨Value.sound_element.2 he, Value.within_element (hasElement_placed he ha hcopy)⟩
  · obtain ⟨copy, hcopy, hlast⟩ := exists_of_bind_ok hf
    cases hlast
    exact ⟨Value.sound_element.2 he, Value.within_element (hasElement_placed he ha hcopy)⟩
  · obtain ⟨_, -, hlast⟩ := exists_of_bind_ok hf
    cases hlast
    exact leaves_nothing (Value.sound_element.2 he.round)
  · cases hf

theorem yields_method {receiver : Value} (method : String) (hr : receiver.Within b)
    (ha : args.All (Value.Within b)) :
    Yields limits (Method.call receiver method args) (Leaves b) := by
  cases receiver with
  | list s => exact yields_callOnList hb method hr ha
  | element e =>
    exact .ofExcept fun _ hf => leaves_callOnElement (Value.sound_element.1 hr.sound) ha hf
  | _ => exact yields_refuse _

end Method

end LandPattern
