import LandPattern.Proofs.Run.Expectations
import LandPattern.Proofs.Values.OperationBounds

/-!
# Components and how they are replaced

What steps lead to in a value, and the value with another component there, apart from stamps. Reading
goes through lists, tuples, texts and attributes; a component is replaced only in lists and in
attributes that take it. Reading and writing end as these functions tell, whatever stamps are given
on the way.
-/

namespace LandPattern

open Metered (Answers answers_bind answers_pure answers_seq)
open Sequence (position?)

/-- The datum as a value, with a fixed stamp for a list of layers. -/
def Datum.plain : Datum → Value
  | .number x => .float x
  | .flag b => .bool b
  | .text s => .text s
  | .pad (.number n) => .int n
  | .pad (.text s) => .text s
  | .shape form => .text form.tag
  | .layers names => .list (Sequence.ofItems (names.map .text) 0)

theorem toOption_eq_some {ε α : Type} {answer : Except ε α} {value : α}
    (h : answer.toOption = some value) : answer = .ok value := by
  cases answer with
  | ok found => exact congrArg Except.ok (Option.some.inj h)
  | error why => cases h

namespace Value

/-- The component that a step leads to, apart from its stamp. -/
def stepTo? (v : Value) : Step → Option Value
  | .field name =>
    match v with
    | .element e => (e.get? name.text).map Datum.plain
    | _ => none
  | .index position _ => (v.readIndex position).toOption

/-- The component that steps lead to, apart from its stamp. -/
def at? (v : Value) (steps : List Step) : Option Value := steps.foldlM stepTo? v

/-- The value with another component where one step leads to, apart from its stamps. -/
def put? (v : Value) (step : Step) (new : Value) : Option Value :=
  match step, v with
  | .field name, .element e => (e.write name.text new).toOption.map element
  | .index position _, .list s => (position? s.length position).map fun p => list (s.set p new 0)
  | _, _ => none

/-- What is left when the component that steps lead to is written to, apart from stamps: the whole
value, and what the write gives back. -/
def rewrite? {β : Type} (v : Value) (steps : List Step) (written : Value → Option (Value × β)) :
    Option (Value × β) :=
  match steps with
  | [] => written v
  | step :: rest =>
    (v.stepTo? step).bind fun component => (component.rewrite? rest written).bind fun found =>
      (v.put? step found.1).map fun whole => (whole, found.2)

/-- Whether a value may be stored in a variable under the limits. -/
def storable (limits : Limits) : Value → Bool
  | .list s | .tuple s => s.length ≤ limits.collection ∧ s.depth ≤ limits.valueDepth
  | .text content => content.utf8ByteSize ≤ limits.collection
  | _ => true

section

variable {limits : Limits} {v found w : Value} {α β : Type}

@[simp] theorem at?_nil (v : Value) : v.at? [] = some v := rfl

theorem at?_cons (v : Value) (step : Step) (rest : List Step) :
    v.at? (step :: rest) = (v.stepTo? step).bind fun component => component.at? rest := rfl

theorem at?_append (v : Value) (steps : List Step) (step : Step) :
    v.at? (steps ++ [step]) = (v.at? steps).bind fun component => component.stepTo? step := by
  rw [at?, List.foldlM_append]
  congr 1
  funext component
  exact Option.bind_fun_some _

/-- What holds of a value and goes over to the component of every step holds of what steps lead
to. -/
theorem at?_induction {good : Value → Prop}
    (hs : ∀ v step component, good v → v.stepTo? step = some component → good component)
    {steps : List Step} (h : good v) (hw : v.at? steps = some w) : good w := by
  induction steps generalizing v with
  | nil => exact Option.some.inj hw ▸ h
  | cons step rest ih =>
    obtain ⟨component, hcomponent, hrest⟩ := Option.bind_eq_some_iff.1 hw
    exact ih (hs v step component h hcomponent) hrest

theorem answers_value (datum : Datum) :
    Answers limits datum.value (some datum.plain) Restocked := by
  cases datum with
  | layers names =>
    exact fun meter _ => ⟨_, rfl, .inr ⟨Sequence.ofItems (names.map .text) 0, meter.nextStamp, rfl, rfl⟩⟩
  | pad name => cases name <;> exact answers_pure (.inl rfl)
  | _ => exact answers_pure (.inl rfl)

/-- An attribute is read as far as the step leads to it. -/
theorem answers_readField (h : v.Restocked found) (name : Script.Name) :
    Answers limits (found.readField name.text) (v.stepTo? (.field name)) Restocked := by
  cases v with
  | element e =>
    rw [h.of_not_list fun _ heq => by cases heq]
    simp only [readField, stepTo?]
    cases e.get? name.text with
    | none => exact .fault _
    | some datum => exact answers_value datum
  | list s =>
    obtain ⟨t, rfl, -⟩ := h.of_list
    exact .fault _
  | _ =>
    rw [h.of_not_list fun _ heq => by cases heq]
    exact .fault _

theorem Restocked.readIndex (h : v.Restocked found) (position : Int) :
    Value.readIndex found position = v.readIndex position := by
  rcases h with rfl | ⟨s, stamp, rfl, rfl⟩
  · rfl
  · rfl

theorem answers_checkSequence (s : Sequence Value) :
    Answers limits (Metered.checkSequence s)
      (if s.length ≤ limits.collection ∧ s.depth ≤ limits.valueDepth then some () else none)
      fun _ _ => True := by
  have hlong : Answers limits _ _ _ := Metered.answers_check Limits.collection s.length
    fun limit => .tooLong s.length limit
  have hdeep : Answers limits _ _ _ := Metered.answers_check Limits.valueDepth s.depth
    fun limit => .tooDeep limit
  have hchecks := answers_bind hlong fun _ _ _ _ => hdeep
  by_cases hlength : s.length ≤ limits.collection
  · simp only [hlength, if_true, Option.bind_some] at hchecks
    simp only [hlength, true_and]
    exact hchecks
  · simp only [hlength, if_false, Option.bind_none] at hchecks
    simp only [hlength, false_and, if_false]
    exact hchecks

theorem answers_checkValue (v : Value) :
    Answers limits (Metered.checkValue v) (if v.storable limits then some () else none)
      fun _ _ => True := by
  cases v with
  | list s | tuple s =>
    simp only [storable, decide_eq_true_eq]
    exact answers_checkSequence s
  | text content =>
    simp only [storable, decide_eq_true_eq]
    exact Metered.answers_check Limits.collection content.utf8ByteSize fun limit =>
      .tooLong content.utf8ByteSize limit
  | _ => exact answers_pure trivial

theorem Like.storable (h : v.Like w) : w.storable limits = v.storable limits := by
  rcases h.cases with ⟨rfl, -⟩ | ⟨s, t, rfl, rfl, hs⟩ | ⟨s, t, rfl, rfl, hs⟩
  · rfl
  · simp only [Value.storable, hs.length, hs.depth]
  · simp only [Value.storable, hs.length, hs.depth]

theorem Like.depth (h : v.Like w) : v.depth = w.depth := by
  rw [← depth_restamp (fun _ => 0) v, ← depth_restamp (fun _ => 0) w]
  exact congrArg Value.depth h

/-- Attributes take alike values alike, for they keep no stamps. -/
theorem Like.write (h : v.Like w) (e : Element) (field : String) :
    e.write field w = e.write field v := by
  rw [← e.write_restamp (fun _ => 0) field w, ← e.write_restamp (fun _ => 0) field v]
  exact congrArg (e.write field) h.symm

/-- A component is read, written to, and put back. -/
theorem rewrite?_eq_at? (steps : List Step) (v : Value) (written : Value → Option (Value × β)) :
    v.rewrite? steps written = (v.at? steps).bind fun old => (written old).bind fun found =>
      v.rewrite? steps fun _ => some found := by
  induction steps generalizing v with
  | nil => exact (Option.bind_fun_some _).symm
  | cons step rest ih =>
    rw [at?_cons, rewrite?]
    cases hstep : v.stepTo? step with
    | none => rfl
    | some component =>
      simp only [rewrite?, hstep, Option.bind_some]
      rw [ih component]
      simp only [Option.bind_assoc]

/-- What the write gives back is passed along. -/
theorem rewrite?_some (steps : List Step) (v : Value) (found : Value × β) :
    v.rewrite? steps (fun _ => some found) =
      (v.rewrite? steps fun _ => some (found.1, ())).map fun whole => (whole.1, found.2) := by
  induction steps generalizing v with
  | nil => rfl
  | cons step rest ih =>
    rw [rewrite?, rewrite?]
    cases v.stepTo? step with
    | none => rfl
    | some component =>
      simp only [Option.bind_some, ih component]
      cases component.rewrite? rest fun _ => some (found.1, ()) with
      | none => rfl
      | some part =>
        simp only [Option.map_some, Option.bind_some]
        cases v.put? step part.1 <;> rfl

section

variable {written : Value → Option (Value × β)} {write : Value → Metered (Value × α)}
  {same : β → α → Prop} {rest : List Step}

/-- The attribute that is written to is read, and put back if the element takes it. -/
theorem answers_updateField (name : Script.Name) (h : v.Restocked found)
    (hrest : ∀ component other, v.stepTo? (.field name) = some component →
      component.Restocked other →
      Answers limits (other.update rest write) (component.rewrite? rest written)
        fun x y => x.1.Like y.1 ∧ same x.2 y.2) :
    Answers limits (found.update (.field name :: rest) write)
      (v.rewrite? (.field name :: rest) written) fun x y => x.1.Like y.1 ∧ same x.2 y.2 := by
  cases v with
  | element e =>
    obtain rfl := h.of_not_list fun _ heq => by cases heq
    cases hget : e.get? name.text with
    | none =>
      simp only [update, rewrite?, stepTo?, hget]
      exact .fault _
    | some datum =>
      have hstep : (element e).stepTo? (.field name) = some datum.plain := by
        rw [stepTo?, hget, Option.map_some]
      rw [rewrite?, hstep]
      simp only [update, hget]
      refine answers_bind (answers_value datum) fun _ old hplain hold => ?_
      cases hplain
      refine answers_bind (hrest _ old hstep hold) fun part component _ hsame => ?_
      obtain ⟨new, result⟩ := component
      dsimp only
      rw [hsame.1.write e name.text, put?]
      cases e.write name.text part.1 with
      | error why => exact .fault _
      | ok written => exact answers_pure ⟨rfl, hsame.2⟩
  | list s =>
    obtain ⟨t, rfl, -⟩ := h.of_list
    exact .fault _
  | _ =>
    rw [h.of_not_list fun _ heq => by cases heq]
    exact .fault _

/-- The item that is written to stays at its position in the list. -/
theorem answers_updateIndex (position : Int) (span : Script.Span) (h : v.Restocked found)
    (hrest : ∀ component other, v.stepTo? (.index position span) = some component →
      component.Restocked other →
      Answers limits (other.update rest write) (component.rewrite? rest written)
        fun x y => x.1.Like y.1 ∧ same x.2 y.2) :
    Answers limits (found.update (.index position span :: rest) write)
      (v.rewrite? (.index position span :: rest) written)
      fun x y => x.1.Like y.1 ∧ same x.2 y.2 := by
  cases v with
  | list s =>
    obtain ⟨t, rfl, hitems, hdepth⟩ := h.of_list
    have hlength : t.length = s.length := congrArg List.length hitems
    cases hp : position? s.length position with
    | none =>
      simp only [update, rewrite?, put?, hlength, hp, Option.map_none, Option.bind_fun_none]
      exact .fault _
    | some p =>
      cases hitem : s.items[p]? with
      | none =>
        have hstep : (list s).stepTo? (.index position span) = none := by
          simp only [stepTo?, readIndex, Sequence.get?, hp, Option.bind_some, hitem]
          rfl
        rw [rewrite?, hstep]
        simp only [update, hlength, hp, hitems, hitem]
        exact .fault _
      | some item =>
        have hstep : (list s).stepTo? (.index position span) = some item := by
          simp only [stepTo?, readIndex, Sequence.get?, hp, Option.bind_some, hitem]
          rfl
        rw [rewrite?, hstep, Option.bind_some]
        simp only [update, hlength, hp, hitems, hitem]
        refine answers_bind (hrest item item hstep (.inl rfl)) fun part component _ hsame => ?_
        rw [put?, hp]
        refine answers_seq Metered.answers_freshStamp fun stamp => answers_pure ⟨?_, hsame.2⟩
        refine like_list.2 ⟨?_, ?_⟩
        · simp only [Sequence.set, hitems, List.map_set]
          exact congrArg _ hsame.1
        · simp only [Sequence.set, hdepth, hsame.1.depth]
  | _ =>
    rw [h.of_not_list fun _ heq => by cases heq]
    simp only [rewrite?, put?, Option.map_none, Option.bind_fun_none]
    exact .fault _

/-- A component is written to as far as steps lead to it and the values on the way take back what
they are given. -/
theorem answers_update (steps : List Step) (h : v.Restocked found)
    (hw : ∀ old other, v.at? steps = some old → old.Restocked other →
      Answers limits (write other) (written old) fun x y => x.1.Like y.1 ∧ same x.2 y.2) :
    Answers limits (found.update steps write) (v.rewrite? steps written)
      fun x y => x.1.Like y.1 ∧ same x.2 y.2 := by
  induction steps generalizing v found with
  | nil => exact hw v found rfl h
  | cons step rest ih =>
    have hrest : ∀ component other, v.stepTo? step = some component → component.Restocked other →
        Answers limits (other.update rest write) (component.rewrite? rest written)
          fun x y => x.1.Like y.1 ∧ same x.2 y.2 :=
      fun component other hstep hother => ih hother fun old found hold => hw old found (by
        rw [at?_cons, hstep]
        exact hold)
    cases step with
    | field name => exact answers_updateField name h hrest
    | index position span => exact answers_updateIndex position span h hrest

end

/-- What is left when a component is written to, if the whole value may be stored then. -/
def rewriteWithin? (limits : Limits) (v : Value) (steps : List Step)
    (written : Value → Option (Value × β)) : Option (Value × β) :=
  (v.rewrite? steps written).bind fun found => if found.1.storable limits then some found else none

theorem rewriteWithin?_eq_at? (v : Value) (limits : Limits) (steps : List Step)
    (written : Value → Option (Value × β)) :
    v.rewriteWithin? limits steps written =
      (v.at? steps).bind fun old => (written old).bind fun found =>
        v.rewriteWithin? limits steps fun _ => some found := by
  unfold rewriteWithin?
  rw [rewrite?_eq_at?]
  simp only [Option.bind_assoc]

theorem rewriteWithin?_some (v : Value) (limits : Limits) (steps : List Step)
    (found : Value × β) :
    v.rewriteWithin? limits steps (fun _ => some found) =
      (v.rewriteWithin? limits steps fun _ => some (found.1, ())).map fun whole =>
        (whole.1, found.2) := by
  unfold rewriteWithin?
  rw [rewrite?_some]
  cases v.rewrite? steps fun _ => some (found.1, ()) with
  | none => rfl
  | some whole =>
    simp only [Option.map_some, Option.bind_some]
    split <;> rfl

theorem answers_updateWithin {written : Value → Option (Value × β)}
    {write : Value → Metered (Value × α)} {same : β → α → Prop} (v : Value) (steps : List Step)
    (hw : ∀ old other, v.at? steps = some old → old.Restocked other →
      Answers limits (write other) (written old) fun x y => x.1.Like y.1 ∧ same x.2 y.2) :
    Answers limits (v.updateWithin steps write) (v.rewriteWithin? limits steps written)
      fun x y => x.1.Like y.1 ∧ same x.2 y.2 := by
  refine answers_bind (answers_update steps (.inl rfl) hw) fun whole found _ hsame => ?_
  have hcheck : Answers limits _ _ _ := answers_checkValue found.1
  rw [hsame.1.storable] at hcheck
  by_cases hstorable : whole.1.storable limits
  · rw [if_pos hstorable] at hcheck ⊢
    exact answers_seq hcheck fun _ => answers_pure hsame
  · rw [if_neg hstorable] at hcheck ⊢
    exact .stops hcheck

/-! ## Components of what is stored -/

/-- The items of a value have only stamps below a bound. -/
def ItemsBelow (bound : Nat) (v : Value) : Prop :=
  ∀ s, v.sequence? = some s → ∀ item ∈ s.items, item.StampedBelow bound

theorem StampedBelow.itemsBelow {bound : Nat} (h : v.StampedBelow bound) : v.ItemsBelow bound :=
  fun _ hs _ hitem => h.item hs hitem

theorem stampedBelow_atom {bound : Nat} (h : v.sequence? = none) : v.StampedBelow bound := by
  intro part s hpart hs
  cases hpart with
  | self =>
    rw [h] at hs
    cases hs
  | item ht _ _ =>
    rw [h] at ht
    cases ht

theorem sequence?_plain {datum : Datum} {s : Sequence Value}
    (h : datum.plain.sequence? = some s) :
    ∃ names : List String, s = Sequence.ofItems (names.map .text) 0 := by
  cases datum with
  | layers names => exact ⟨names, (Option.some.inj h).symm⟩
  | pad name => cases name <;> cases h
  | _ => cases h

/-- What is read at an index is an item, or a text of one character. -/
theorem readIndex_ok {index : Int} (h : v.readIndex index = .ok w) :
    (∃ s, v.sequence? = some s ∧ w ∈ s.items) ∨ ∃ content, w = text content := by
  have hitem {s : Sequence Value} (hs : s.get? index = some w) : w ∈ s.items := by
    obtain ⟨p, -, hp⟩ := Option.bind_eq_some_iff.1 hs
    exact List.mem_of_getElem? hp
  unfold readIndex at h
  split at h
  · split at h <;> cases h
    exact .inl ⟨_, rfl, hitem ‹_›⟩
  · split at h <;> cases h
    exact .inl ⟨_, rfl, hitem ‹_›⟩
  · split at h <;> cases h
    exact .inr ⟨_, rfl⟩
  · cases h

theorem ItemsBelow.stepTo? {bound : Nat} {step : Step} (h : v.ItemsBelow bound)
    (hw : v.stepTo? step = some w) : w.ItemsBelow bound := by
  cases step with
  | field name =>
    cases v with
    | element e =>
      obtain ⟨datum, -, rfl⟩ := Option.map_eq_some_iff.1 hw
      intro s hs item hitem
      obtain ⟨names, rfl⟩ := sequence?_plain hs
      obtain ⟨name, -, rfl⟩ := List.mem_map.1 hitem
      exact stampedBelow_atom rfl
    | _ => cases hw
  | index position span =>
    rcases readIndex_ok (toOption_eq_some hw) with ⟨s, hs, hitem⟩ | ⟨content, rfl⟩
    · exact (h s hs w hitem).itemsBelow
    · exact fun _ hnone => by cases hnone

theorem Within.stepTo? {b : Bounds} {step : Step} (h : v.Within b)
    (hw : v.stepTo? step = some w) : w.Within b := by
  cases step with
  | field name =>
    cases v with
    | element e =>
      obtain ⟨datum, hdatum, rfl⟩ := Option.map_eq_some_iff.1 hw
      have hyields : Metered.Yields Limits.standard datum.value (Value.Within b) :=
        ((sound_element.1 h.sound).get? hdatum).yields_value
      refine (hyields Meter.zero trivial).2 datum.plain ?_
      cases datum with
      | pad name => cases name <;> rfl
      | _ => rfl
    | _ => cases hw
  | index position span => exact h.readIndex (toOption_eq_some hw)

end

end Value

end LandPattern
