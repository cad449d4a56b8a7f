import LandPattern.Proofs.Run.Sizes

/-!
# Elements and functions inside values

The elements of a result are found inside the value that was returned. Properties of all elements and
of all functions inside a value are kept by operators and by reading, which only move items about.
-/

namespace LandPattern

open Metered (Yields yields_seq yields_refuse yields_list)

/-! ## Flattening -/

namespace Nested

variable {α : Type}

mutual

/-- The leaves, read off the structure. -/
def leaves (n : Nested α) : List α :=
  match n with
  | .leaf value => [value]
  | .list items => listLeaves items
termination_by structural n

/-- The leaves of the items, one item after the other. -/
def listLeaves (items : List (Nested α)) : List α :=
  match items with
  | [] => []
  | n :: rest => n.leaves ++ listLeaves rest
termination_by structural items

end

/-- A walk finds the leaves of all lists that are still to be walked, the innermost list first. -/
theorem walk_eq (stack : List (List (Nested α))) (found : List α) :
    walk stack found = found.reverse ++ stack.flatMap listLeaves := by
  induction stack, found using walk.induct with
  | case1 found => simp [walk]
  | case2 found outer ih => simp [walk, ih, listLeaves]
  | case3 found value rest outer ih => simp [walk, ih, listLeaves, leaves]
  | case4 found items rest outer ih => simp [walk, ih, listLeaves, leaves]

theorem flatten_eq (n : Nested α) : n.flatten = n.leaves := by
  simp [flatten, walk_eq, listLeaves]

end Nested

/-! ## Elements inside values -/

namespace Value

/-- What is no list or tuple has nothing but itself inside. -/
theorem inside_atom {v part : Value} (hs : v.sequence? = none) (h : part.Inside v) : v = part := by
  cases h with
  | self => rfl
  | item hsome _ _ =>
    rw [hs] at hsome
    cases hsome

/-- What is inside a list or tuple and not the whole is inside one of the items. -/
theorem inside_items {v part : Value} {s : Sequence Value} (hs : v.sequence? = some s)
    (hne : part ≠ v) (h : part.Inside v) : ∃ item ∈ s.items, part.Inside item := by
  cases h with
  | self => exact absurd rfl hne
  | item hother hitem hinside =>
    rw [hs] at hother
    cases hother
    exact ⟨_, hitem, hinside⟩

mutual

/-- The elements that a value is taken apart into are inside it. -/
theorem inside_of_toNested {limit : Nat} {path : List Nat} {count total : Nat} {v : Value}
    {nested : Nested Element} (h : v.toNested limit path count = .ok (nested, total)) :
    ∀ e ∈ nested.leaves, (Value.element e).Inside v := by
  intro e he
  match v with
  | .element found =>
    unfold toNested at h
    split at h
    · cases h
    · cases h
      rw [Nested.leaves, List.mem_singleton] at he
      rw [he]
      exact .self _
  | .list s | .tuple s =>
    obtain ⟨⟨items, counted⟩, hitems, hlast⟩ := exists_of_bind_ok h
    cases hlast
    obtain ⟨item, hitem, hinside⟩ := inside_of_toNestedItems hitems e he
    exact .item rfl hitem hinside
  | .nothing | .bool _ | .int _ | .float _ | .text _ | .function _ | .builtin _ => cases h
termination_by structural v

theorem inside_of_toNestedItems {limit : Nat} {path : List Nat} {position count total : Nat}
    {items : List Value} {nested : List (Nested Element)}
    (h : toNestedItems limit path position count items = .ok (nested, total)) :
    ∀ e ∈ Nested.listLeaves nested, ∃ item ∈ items, (Value.element e).Inside item := by
  intro e he
  match items with
  | [] =>
    cases h
    cases he
  | v :: rest =>
    obtain ⟨⟨first, counted⟩, hfirst, hmore⟩ := exists_of_bind_ok h
    obtain ⟨⟨others, last⟩, hothers, hlast⟩ := exists_of_bind_ok hmore
    cases hlast
    rw [Nested.listLeaves] at he
    rcases List.mem_append.1 he with hleft | hright
    · exact ⟨v, List.mem_cons_self, inside_of_toNested hfirst e hleft⟩
    · obtain ⟨item, hitem, hinside⟩ := inside_of_toNestedItems hothers e hright
      exact ⟨item, List.mem_cons_of_mem _ hitem, hinside⟩
termination_by structural items

end

/-- The elements of a value are the leaves of what it is taken apart into. -/
theorem elements_eq (limit : Nat) (v : Value) :
    v.elements limit = (v.toNested limit [] 0).map fun found => found.1.leaves := by
  unfold elements
  simp only [Nested.flatten_eq]
  rfl

theorem inside_of_elements {limit : Nat} {v : Value} {elements : List Element}
    (h : v.elements limit = .ok elements) {e : Element} (he : e ∈ elements) :
    (Value.element e).Inside v := by
  rw [elements_eq] at h
  obtain ⟨⟨nested, total⟩, hnested, rfl⟩ := exists_of_map_ok h
  exact inside_of_toNested hnested e he

/-- Every element inside the value has the property. -/
def Elementwise (P : Element → Prop) (v : Value) : Prop :=
  ∀ e, (Value.element e).Inside v → P e

/-- Every element inside the value has the one property, and the name of every function inside it
the other. -/
structure Leafwise (P : Element → Prop) (Q : String → Prop) (v : Value) : Prop where
  element : ∀ e, (Value.element e).Inside v → P e
  function : ∀ name, (Value.function name).Inside v → Q name

variable {P : Element → Prop} {Q : String → Prop}

theorem leafwise_true_iff {v : Value} : v.Leafwise P (fun _ => True) ↔ v.Elementwise P :=
  ⟨fun h => h.element, fun h => ⟨h, fun _ _ => trivial⟩⟩

/-- What is no list or tuple has the properties when it has its own. -/
theorem leafwise_atom {v : Value} (hs : v.sequence? = none) (he : ∀ e, v = .element e → P e)
    (hf : ∀ name, v = .function name → Q name) : v.Leafwise P Q :=
  ⟨fun e h => he e (inside_atom hs h), fun name h => hf name (inside_atom hs h)⟩

theorem leafwise_element {e : Element} : (Value.element e).Leafwise P Q ↔ P e := by
  refine ⟨fun h => h.element e (.self _), fun h => leafwise_atom rfl (fun found heq => ?_) ?_⟩
  · cases heq
    exact h
  · exact fun _ heq => (by cases heq)

theorem leafwise_function {name : String} : (Value.function name).Leafwise P Q ↔ Q name := by
  refine ⟨fun h => h.function name (.self _), fun h => leafwise_atom rfl ?_ fun found heq => ?_⟩
  · exact fun _ heq => (by cases heq)
  · cases heq
    exact h

/-- What is neither an element nor a function, nor a list or tuple, has none of them inside. -/
theorem leafwise_plain {v : Value} (hs : v.sequence? = none) (he : ∀ e, v ≠ .element e)
    (hf : ∀ name, v ≠ .function name) : v.Leafwise P Q :=
  leafwise_atom hs (fun e heq => absurd heq (he e)) fun name heq => absurd heq (hf name)

theorem leafwise_of_sequence? {v : Value} {s : Sequence Value} (hs : v.sequence? = some s) :
    v.Leafwise P Q ↔ ∀ item ∈ s.items, item.Leafwise P Q := by
  constructor
  · intro h item hitem
    exact ⟨fun e he => h.element e (.item hs hitem he),
      fun name hname => h.function name (.item hs hitem hname)⟩
  · intro h
    constructor
    · intro e he
      obtain ⟨item, hitem, hinside⟩ := inside_items hs (fun heq => (by cases heq; cases hs)) he
      exact (h item hitem).element e hinside
    · intro name hname
      obtain ⟨item, hitem, hinside⟩ := inside_items hs (fun heq => (by cases heq; cases hs)) hname
      exact (h item hitem).function name hinside

theorem leafwise_number {v : Value} (h : v.number?.isSome) : v.Leafwise P Q := by
  cases v with
  | int n => exact leafwise_plain rfl (fun _ heq => (by cases heq)) fun _ heq => (by cases heq)
  | float x => exact leafwise_plain rfl (fun _ heq => (by cases heq)) fun _ heq => (by cases heq)
  | _ => cases h

theorem leafwise_text (text : String) : (Value.text text).Leafwise P Q :=
  leafwise_plain rfl (fun _ heq => (by cases heq)) fun _ heq => (by cases heq)

theorem elementwise_text (text : String) : (Value.text text).Elementwise P :=
  leafwise_true_iff.1 (leafwise_text text)

theorem leafwise_bool (b : Bool) : (Value.bool b).Leafwise P Q :=
  leafwise_plain rfl (fun _ heq => (by cases heq)) fun _ heq => (by cases heq)

theorem leafwise_nothing : Value.nothing.Leafwise P Q :=
  leafwise_plain rfl (fun _ heq => (by cases heq)) fun _ heq => (by cases heq)

/-- A list or tuple all of whose items have the property. -/
theorem leafwise_items {v : Value} {s : Sequence Value} (hs : v.sequence? = some s)
    (h : ∀ item ∈ s.items, item.Leafwise P Q) : v.Leafwise P Q :=
  (leafwise_of_sequence? hs).2 h

theorem Leafwise.items {v : Value} {s : Sequence Value} (h : v.Leafwise P Q)
    (hs : v.sequence? = some s) : ∀ item ∈ s.items, item.Leafwise P Q :=
  (leafwise_of_sequence? hs).1 h

end Value

section

variable {limits : Limits} {P : Element → Prop} {Q : String → Prop}

namespace Value

/-! ## Operators and attributes -/

theorem yields_leafwise_number {result : Except Refusal Value}
    (h : ∀ v, result = .ok v → v.number?.isSome) :
    Yields limits (Act.ofExcept result) (Leafwise P Q) :=
  .ofExcept fun v hv => leafwise_number (h v hv)

theorem Leafwise.yields_concat {s t : Sequence Value}
    (hs : ∀ item ∈ s.items, item.Leafwise P Q) (ht : ∀ item ∈ t.items, item.Leafwise P Q) :
    Yields limits (concat s t) fun joined => ∀ item ∈ joined.items, item.Leafwise P Q := by
  refine yields_seq fun _ => yields_seq fun _ => yields_seq fun stamp => yields_seq fun _ => .pure ?_
  intro item hitem
  rcases List.mem_append.1 hitem with hleft | hright
  · exact hs item hleft
  · exact ht item hright

theorem Leafwise.yields_add {v w : Value} (hv : v.Leafwise P Q) (hw : w.Leafwise P Q) :
    Yields limits (add v w) (Leafwise P Q) := by
  unfold add
  split
  · exact yields_seq fun _ => yields_seq fun _ => .pure (leafwise_text _)
  · exact .bind (yields_concat (hv.items rfl) (hw.items rfl)) fun _ hjoined =>
      .pure (leafwise_items rfl hjoined)
  · exact .bind (yields_concat (hv.items rfl) (hw.items rfl)) fun _ hjoined =>
      .pure (leafwise_items rfl hjoined)
  · exact yields_leafwise_number fun _ h => number?_arithmetic h

theorem Leafwise.yields_repeatList {s : Sequence Value} {times : Nat}
    (hs : ∀ item ∈ s.items, item.Leafwise P Q) :
    Yields limits (repeatList s times) (Leafwise P Q) := by
  refine yields_seq fun _ => yields_seq fun _ => (yields_list _).weaken fun v hv => ?_
  obtain ⟨stamp, rfl⟩ := hv
  exact leafwise_items rfl fun item hitem => hs item (mem_repeated.1 hitem).2

theorem Leafwise.yields_multiply {v w : Value} (hv : v.Leafwise P Q) (hw : w.Leafwise P Q) :
    Yields limits (multiply v w) (Leafwise P Q) := by
  have htext : ∀ text times, Yields limits (repeatText text times) (Leafwise P Q) :=
    fun _ _ => yields_seq fun _ => yields_seq fun _ => .pure (leafwise_text _)
  unfold multiply
  split
  · exact yields_repeatList (hv.items rfl)
  · exact yields_repeatList (hw.items rfl)
  · exact htext _ _
  · exact htext _ _
  · exact yields_leafwise_number fun _ h => number?_arithmetic h

theorem Leafwise.yields_combine (op : Script.BinaryOp) {v w : Value} (hv : v.Leafwise P Q)
    (hw : w.Leafwise P Q) : Yields limits (v.combine op w) (Leafwise P Q) := by
  have hbool : ∀ {α : Type} (act : Metered α) (answer : α → Bool),
      Yields limits (do return Value.bool (answer (← act))) (Leafwise P Q) :=
    fun _ _ => yields_seq fun _ => .pure (leafwise_bool _)
  cases op with
  | add => exact hv.yields_add hw
  | mul => exact hv.yields_multiply hw
  | sub => exact yields_leafwise_number fun _ h => number?_arithmetic h
  | div => exact yields_leafwise_number fun _ h => number?_divide h
  | mod => exact yields_leafwise_number fun _ h => number?_modulo h
  | eq => exact hbool _ id
  | ne => exact hbool _ (!·)
  | lt | le | gt | ge => exact hbool _ _
  | and | or => exact .fault _

/-- Attributes hold neither elements nor functions. -/
theorem yields_leafwise_datum (datum : Datum) :
    Yields limits datum.value (Leafwise P Q) := by
  cases datum with
  | number x => exact .pure (leafwise_number rfl)
  | flag x => exact .pure (leafwise_bool x)
  | text text => exact .pure (leafwise_text text)
  | pad name =>
    cases name with
    | number n => exact .pure (leafwise_number rfl)
    | text text => exact .pure (leafwise_text text)
  | shape form => exact .pure (leafwise_text _)
  | layers names =>
    refine (yields_list _).weaken fun v hv => ?_
    obtain ⟨stamp, rfl⟩ := hv
    refine leafwise_items rfl fun item hitem => ?_
    obtain ⟨name, -, rfl⟩ := List.mem_map.1 hitem
    exact leafwise_text name

theorem yields_leafwise_readField (v : Value) (field : String) :
    Yields limits (v.readField field) (Leafwise P Q) := by
  unfold readField
  split
  · split
    · exact yields_leafwise_datum _
    · exact yields_refuse _
  · exact yields_refuse _

theorem Leafwise.readIndex {v item : Value} {index : Int} (h : v.Leafwise P Q)
    (hi : v.readIndex index = .ok item) : item.Leafwise P Q := by
  have hitem : ∀ s : Sequence Value, v.sequence? = some s → s.get? index = some item →
      item.Leafwise P Q := by
    intro s hs hget
    obtain ⟨p, -, hp⟩ := Option.bind_eq_some_iff.1 hget
    exact h.items hs item (List.mem_of_getElem? hp)
  unfold Value.readIndex at hi
  split at hi
  · rename_i s
    split at hi <;> cases hi
    exact hitem s rfl ‹_›
  · rename_i s
    split at hi <;> cases hi
    exact hitem s rfl ‹_›
  · split at hi <;> cases hi
    exact leafwise_text _
  · cases hi

end Value

end

end LandPattern
