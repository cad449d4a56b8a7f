import LandPattern.Proofs.Values.Attributes
import LandPattern.Run.Eval

/-!
# Places read back

Writing to a component and reading it again. What is read back is what was written, in the form that
an attribute gives it; everything beside the path is read as before, and the lists and elements on
the path keep their length and their kind. A write that fails leaves the variables as they were.
-/

namespace LandPattern

open Sequence (position?)

namespace Value

/-- The component that a step leads to, as expressions read it. -/
def readStep (v : Value) : Step → Metered Value
  | .field name => v.readField name.text
  | .index position _ => Act.ofExcept (v.readIndex position)

/-- The component that steps lead to, as expressions read it. -/
def read (v : Value) : List Step → Metered Value
  | [] => return v
  | step :: rest => do
    let component ← v.readStep step
    component.read rest

/-- Replaces the component that steps lead to. -/
def replace (v : Value) (steps : List Step) (new : Value) : Metered (Value × Unit) :=
  v.update steps fun _ => return (new, ())

/-- What is read where a value was put: at an attribute of an element the form that the attribute
gives it, with this stamp for a new list, and anywhere else the value itself. -/
def readBack (v : Value) (steps : List Step) (new : Value) (stamp : Nat) : Value :=
  match steps, v with
  | [.field name], .element e => e.coerced name.text new stamp
  | .index position _ :: rest, .list s =>
    match s.get? position with
    | some item => item.readBack rest new stamp
    | none => new
  | _, _ => new

end Value

/-- Whether two steps from a value are the same when indices are resolved: the same attribute, or
the same position in a list or tuple. -/
def Step.Same (v : Value) : Step → Step → Prop
  | .field name, .field other => name.text = other.text
  | .index p _, .index q _ =>
    ∀ s, v.sequence? = some s → position? s.length p = position? s.length q
  | _, _ => False

/-- The other steps go along with these for a while, and then to another component. -/
inductive Value.Departs : Value → List Step → List Step → Prop where
  | here {v : Value} {step other : Step} {rest more : List Step} (h : ¬ step.Same v other) :
    Departs v (step :: rest) (other :: more)
  | later {v component : Value} {step other : Step} {rest more : List Step} {limits : Limits}
    {meter after : Meter} (hs : step.Same v other)
    (hc : (v.readStep step).outcome limits meter = (.ok component, after))
    (hd : component.Departs rest more) : Departs v (step :: rest) (other :: more)

/-- Two values of one type; lists and tuples are of the same length. -/
def Value.Alike (v w : Value) : Prop :=
  v.type = w.type ∧ v.sequence?.map Sequence.length = w.sequence?.map Sequence.length

/-- The written value is the other one with a new component at the end of the steps. -/
structure Value.Replaced (v : Value) (steps : List Step) (new written : Value) : Prop where
  /-- What is read back, from any meter. -/
  reads : ∀ limits meter, ((written.read steps).outcome limits meter).1 =
    .ok (v.readBack steps new meter.nextStamp)
  /-- Everything beside the path is read as before, with the same faults. -/
  others : ∀ other, v.Departs steps other → written.read other = v.read other
  /-- On the way to the end nothing becomes longer or shorter, or of another kind. -/
  shapes : ∀ front step rest, steps = front ++ step :: rest → ∀ limits meter, ∃ old new after,
    (v.read front).outcome limits meter = (.ok old, after) ∧
    (written.read front).outcome limits meter = (.ok new, after) ∧ old.Alike new

/-! ## One step -/

/-- What ends with a result has gone through both acts. -/
theorem Act.exists_of_bind_ok {ρ σ α β : Type} {act : Act ρ σ α} {next : α → Act ρ σ β}
    {context : ρ} {state after : σ} {result : β}
    (h : (act >>= next).outcome context state = (.ok result, after)) :
    ∃ value middle, act.outcome context state = (.ok value, middle) ∧
      (next value).outcome context middle = (.ok result, after) := by
  rw [Act.outcome_bind] at h
  split at h
  · rename_i value middle hact
    exact ⟨value, middle, hact, h⟩
  · cases h

section

variable {α : Type} {limits : Limits} {meter after : Meter} {write : Value → Metered (Value × α)}
  {v written : Value} {rest : List Step} {result : α}

/-- A write through an attribute reads it, writes to what was read, and writes that back. -/
theorem Value.exists_of_update_field {name : Script.Name}
    (h : (v.update (.field name :: rest) write).outcome limits meter =
      (.ok (written, result), after)) :
    ∃ e datum old middle component new, v = .element e ∧ e.get? name.text = some datum ∧
      datum.value.outcome limits meter = (.ok old, middle) ∧
      (old.update rest write).outcome limits middle = (.ok (component, result), after) ∧
      e.write name.text component = .ok new ∧ written = .element new := by
  cases v with
  | element e =>
    unfold update at h
    dsimp only at h
    split at h
    · cases h
    · rename_i datum hdatum
      obtain ⟨old, middle, hold, hmore⟩ := Act.exists_of_bind_ok h
      obtain ⟨⟨component, found⟩, last, hcomponent, hlast⟩ := Act.exists_of_bind_ok hmore
      dsimp only at hlast
      split at hlast
      · rename_i new hnew
        cases hlast
        exact ⟨e, datum, old, middle, component, new, rfl, hdatum, hold, hcomponent, hnew, rfl⟩
      · cases hlast
  | _ => cases h

/-- A write through an index is one to an item of a list. -/
theorem Value.exists_of_update_index {position : Int} {span : Script.Span}
    (h : (v.update (.index position span :: rest) write).outcome limits meter =
      (.ok (written, result), after)) :
    ∃ s p item component middle, v = .list s ∧ position? s.length position = some p ∧
      s.items[p]? = some item ∧
      (item.update rest write).outcome limits meter = (.ok (component, result), middle) ∧
      written = .list (s.set p component middle.nextStamp) ∧
      after = { middle with nextStamp := middle.nextStamp + 1 } := by
  cases v with
  | list s =>
    unfold update at h
    dsimp only at h
    split at h
    · cases h
    · rename_i p hp
      split at h
      · cases h
      · rename_i item hitem
        obtain ⟨⟨component, found⟩, middle, hcomponent, hmore⟩ := Act.exists_of_bind_ok h
        cases hmore
        exact ⟨s, p, item, component, middle, rfl, hp, hitem, hcomponent, rfl, rfl⟩
  | _ => cases h

end

/-! ## Reading beside a write -/

section

variable {limits : Limits} {meter : Meter}

/-- A step reads the same from two lists that have the same item where it leads. -/
theorem Value.readStep_list_congr {s t : Sequence Value} {step : Step}
    (hl : t.length = s.length)
    (hi : ∀ q span r, step = .index q span → position? s.length q = some r →
      t.items[r]? = s.items[r]?) :
    (list t).readStep step = (list s).readStep step := by
  cases step with
  | field name => rfl
  | index q span =>
    have hget : t.get? q = s.get? q := by
      unfold Sequence.get?
      rw [hl]
      cases hr : position? s.length q with
      | none => rfl
      | some r => exact hi q span r rfl hr
    unfold readStep readIndex
    dsimp only
    rw [hget, hl]

/-- Beside the item that is replaced, a step from a list reads what it read. -/
theorem Value.readStep_set {s t : Sequence Value} {step : Step} {position : Int}
    {span : Script.Span} {p : Nat} {new : Value} (hp : position? s.length position = some p)
    (ht : t.items = s.items.set p new) (hne : ¬ (Step.index position span).Same (list s) step) :
    (list t).readStep step = (list s).readStep step := by
  have hl : t.length = s.length := by
    unfold Sequence.length
    rw [ht, List.length_set]
  refine readStep_list_congr hl fun q other r hstep hr => ?_
  subst hstep
  have hpr : p ≠ r := fun heq => hne fun w hw => by
    cases hw
    rw [hp, hr, heq]
  rw [ht, List.getElem?_set_ne hpr]

/-- Beside the attribute that is written, a step from an element reads what it read. -/
theorem Element.Wrote.readStep {e written : Element} {name : Script.Name} {new : Value} {step : Step}
    (h : e.Wrote name.text new written) (hne : ¬ (Step.field name).Same (.element e) step) :
    (Value.element written).readStep step = (Value.element e).readStep step := by
  cases step with
  | field other =>
    unfold Value.readStep Value.readField
    dsimp only
    rw [h.others other.text fun heq => hne heq.symm, h.tag]
  | index q span =>
    unfold Value.readStep Value.readIndex Value.type
    dsimp only
    rw [h.tag]

theorem Value.get?_of_position {s : Sequence Value} {position : Int} {p : Nat}
    (hp : position? s.length position = some p) : s.get? position = s.items[p]? := by
  rw [Sequence.get?, hp, Option.bind_some]

theorem Value.readStep_item {s : Sequence Value} {position : Int} {span : Script.Span} {p : Nat}
    {item : Value} (hp : position? s.length position = some p) (hi : s.items[p]? = some item) :
    (list s).readStep (.index position span) = return item := by
  rw [readStep, readIndex, get?_of_position hp, hi]
  rfl

/-- Which steps are the same from a list depends on its length alone. -/
theorem Step.Same.congr {s t : Sequence Value} {step other : Step}
    (h : step.Same (.list s) other) (hl : t.length = s.length) : step.Same (.list t) other := by
  cases step <;> cases other <;> first | exact h | skip
  intro w hw
  cases hw
  rw [hl]
  exact h s rfl

/-- Where a step is the same as an index, it leads to the same item. -/
theorem Step.Same.exists_index {s : Sequence Value} {position : Int} {span : Script.Span}
    {step : Step} (h : (Step.index position span).Same (.list s) step) :
    ∃ q other, step = .index q other ∧ position? s.length q = position? s.length position := by
  cases step with
  | field name => exact h.elim
  | index q other => exact ⟨q, other, rfl, (h s rfl).symm⟩

theorem Value.alike_element {e written : Element} (h : written.tag = e.tag) :
    (element e).Alike (element written) :=
  ⟨h.symm, rfl⟩

end

/-! ## Replacing -/

namespace Value

variable {new : Value}

theorem replaced_nil (v : Value) : v.Replaced [] new new where
  reads _ _ := rfl
  others _ h := nomatch h
  shapes front step rest h := by simp at h

theorem replaced_index {s : Sequence Value} {position : Int} {span : Script.Span} {p stamp : Nat}
    {item component : Value} {rest : List Step} (hp : position? s.length position = some p)
    (hitem : s.items[p]? = some item) (h : item.Replaced rest new component) :
    (list s).Replaced (.index position span :: rest) new (.list (s.set p component stamp)) := by
  have hlength : (s.set p component stamp).length = s.length := List.length_set
  have hset : (s.set p component stamp).items[p]? = some component :=
    List.getElem?_set_self (List.getElem?_eq_some_iff.1 hitem).1
  constructor
  · intro limits meter
    rw [read, readStep_item (hlength ▸ hp) hset, readBack, get?_of_position hp, hitem]
    exact h.reads limits meter
  · intro other hother
    cases hother with
    | @here _ _ step _ more hne => rw [read, read, readStep_set hp rfl hne]
    | later hsame hpart hmore =>
      obtain ⟨q, other, rfl, hq⟩ := hsame.exists_index
      rw [hp] at hq
      rw [readStep_item hp hitem] at hpart
      cases hpart
      rw [read, read, readStep_item (hlength ▸ hq) hset, readStep_item hq hitem]
      exact h.others _ hmore
  · intro front step more heq limits meter
    cases front with
    | nil => exact ⟨_, _, _, rfl, rfl, rfl, congrArg some hlength.symm⟩
    | cons first front =>
      obtain ⟨rfl, hrest⟩ := List.cons.inj heq
      rw [read, read, readStep_item (hlength ▸ hp) hset, readStep_item hp hitem]
      exact h.shapes front step more hrest limits meter

theorem readStep_attribute {e : Element} {name : Script.Name} {datum : Datum}
    (h : e.get? name.text = some datum) : (element e).readStep (.field name) = datum.value := by
  simp only [readStep, readField, h]

theorem replaced_field {e written : Element} {name : Script.Name}
    (h : e.Wrote name.text new written) :
    (element e).Replaced [.field name] new (.element written) := by
  obtain ⟨datum, hget, hreads⟩ := h.reads
  constructor
  · intro limits meter
    have hpure : (element written).read [.field name] = datum.value := by
      simp only [read, readStep_attribute hget, bind_pure]
    rw [hpure, hreads limits meter, readBack]
  · intro other hother
    cases hother with
    | here hne => rw [read, read, h.readStep hne]
    | later _ _ hmore => nomatch hmore
  · intro front step rest heq limits meter
    cases front with
    | nil => exact ⟨_, _, _, rfl, rfl, alike_element h.tag⟩
    | cons first front => simp at heq

/-- A new list of items is what follows it with a new stamp. -/
theorem bind_list {α : Type} (items : List Value) (next : Value → Metered α) :
    Metered.list items >>= next =
      Metered.freshStamp >>= fun stamp => next (.list (Sequence.ofItems items stamp)) := by
  simp only [Metered.list, Metered.sequence, bind_assoc, pure_bind]

theorem replaced_layer {e written : Element} {name : Script.Name} {names : List String}
    {position : Int} {span : Script.Span} {p : Nat} {s : Sequence Value}
    (hget : e.get? name.text = some (.layers names)) (h : e.Wrote name.text (.list s) written)
    (hp : position? names.length position = some p) (hs : s.items = (names.map text).set p new) :
    (element e).Replaced [.field name, .index position span] new (.element written) := by
  have hread : (element written).readStep (.field name) = Metered.list s.items := by
    obtain ⟨t, stored, ht, hnew, hitems⟩ := h.layers names hget
    cases ht
    rw [readStep_attribute hnew, hitems]
    rfl
  have hold : (element e).readStep (.field name) = Metered.list (names.map text) := by
    rw [readStep_attribute hget]
    rfl
  have hlt : p < (names.map text).length := by
    rw [List.length_map]
    exact Sequence.position?_lt hp
  constructor
  · intro limits meter
    have hitem : s.items[p]? = some new := by rw [hs, List.getElem?_set_self hlt]
    have hlength : s.items.length = names.length := by rw [hs, List.length_set, List.length_map]
    have hpure (stamp : Nat) :
        (list (Sequence.ofItems s.items stamp)).read [.index position span] = return new := by
      have hplace : position? s.items.length position = some p := hlength ▸ hp
      rw [read, readStep_item (s := Sequence.ofItems s.items stamp) hplace hitem]
      rfl
    rw [read, hread, bind_list]
    simp only [hpure]
    rfl
  · intro other hother
    cases hother with
    | here hne => rw [read, read, h.readStep hne]
    | @later _ _ _ step _ more limits meter after hsame hpart hmore =>
      cases step with
      | index _ _ => exact hsame.elim
      | field other =>
        have hother (v : Value) : v.readStep (.field other) = v.readStep (.field name) := by
          have htext : name.text = other.text := hsame
          rw [readStep, readStep, htext]
        rw [hold] at hpart
        cases hpart
        cases hmore with
        | later _ _ hend => nomatch hend
        | here hne =>
          rw [read, read, hother, hother, hread, hold, bind_list, bind_list]
          refine congrArg _ (funext fun stamp => ?_)
          rw [read, read]
          have hplace : position? (names.map text).length position = some p := by
            rwa [List.length_map]
          refine congrArg (· >>= _) (readStep_set (s := Sequence.ofItems (names.map text) stamp)
            hplace hs fun hsame => hne (hsame.congr rfl))
  · intro front step rest heq limits meter
    cases front with
    | nil => exact ⟨_, _, _, rfl, rfl, alike_element h.tag⟩
    | cons first front =>
      obtain ⟨rfl, hrest⟩ := List.cons.inj heq
      cases front with
      | nil =>
        have hlength : s.items.length = (names.map text).length := by rw [hs, List.length_set]
        rw [read, read, hread, hold]
        exact ⟨_, _, _, rfl, rfl, rfl, congrArg some hlength.symm⟩
      | cons second front => simp at hrest

/-- Nothing of a text or a number can be replaced. -/
theorem replace_atom {v written : Value} {step : Step} {rest : List Step} {limits : Limits}
    {meter after : Meter} (hs : v.sequence? = none) (he : ∀ e, v ≠ .element e) :
    (v.replace (step :: rest) new).outcome limits meter ≠ (.ok (written, ()), after) := by
  intro h
  cases step with
  | field name =>
    obtain ⟨e, _, _, _, _, _, hv, _⟩ := exists_of_update_field h
    exact he e hv
  | index position span =>
    obtain ⟨s, _, _, _, _, hv, _⟩ := exists_of_update_index h
    rw [hv] at hs
    cases hs

/-- What is replaced in an attribute is the whole of it, or one of its layers. -/
theorem replace_attribute {datum : Datum} {old component : Value} {steps : List Step}
    {limits : Limits} {meter middle after : Meter}
    (hold : datum.value.outcome limits meter = (.ok old, middle))
    (h : (old.replace steps new).outcome limits middle = (.ok (component, ()), after)) :
    (steps = [] ∧ component = new) ∨ ∃ names position span p s, datum = .layers names ∧
      steps = [.index position span] ∧ position? names.length position = some p ∧
      component = .list s ∧ s.items = (names.map text).set p new := by
  cases steps with
  | nil =>
    cases h
    exact .inl ⟨rfl, rfl⟩
  | cons step rest =>
    have hatom (hs : old.sequence? = none) (he : ∀ e, old ≠ .element e) : False :=
      replace_atom hs he h
    cases datum with
    | layers names =>
      cases hold
      cases step with
      | field name =>
        obtain ⟨_, _, _, _, _, _, hv, _⟩ := exists_of_update_field h
        cases hv
      | index position span =>
        obtain ⟨s, p, item, written, _, hv, hp, hitem, hrest, rfl, -⟩ := exists_of_update_index h
        cases hv
        have hp' : position? names.length position = some p := by
          rwa [Sequence.length, Sequence.ofItems, List.length_map] at hp
        obtain ⟨name, -, rfl⟩ := List.mem_map.1 (List.mem_of_getElem? hitem)
        cases rest with
        | nil =>
          cases hrest
          exact .inr ⟨names, position, span, p, _, rfl, rfl, hp', rfl, rfl⟩
        | cons second more => exact absurd hrest (replace_atom rfl (fun _ heq => by cases heq))
    | pad name => cases name <;> cases hold <;> exact (hatom rfl (fun _ heq => by cases heq)).elim
    | _ =>
      cases hold
      exact (hatom rfl (fun _ heq => by cases heq)).elim

/-- A value with a component replaced is that value but for the component. -/
theorem replaced {v written : Value} {steps : List Step} {limits : Limits} {meter after : Meter}
    (h : (v.replace steps new).outcome limits meter = (.ok (written, ()), after)) :
    v.Replaced steps new written := by
  induction steps generalizing v written meter after with
  | nil =>
    cases h
    exact replaced_nil v
  | cons step rest ih =>
    cases step with
    | field name =>
      obtain ⟨e, datum, old, middle, component, changed, rfl, hget, hold, hrest, hwrite, rfl⟩ :=
        exists_of_update_field h
      have hwrote := Element.wrote hwrite
      rcases replace_attribute hold hrest with ⟨rfl, rfl⟩ |
        ⟨names, position, span, p, s, rfl, rfl, hp, rfl, hitems⟩
      · exact replaced_field hwrote
      · exact replaced_layer hget hwrote hp hitems
    | index position span =>
      obtain ⟨s, p, item, component, middle, rfl, hp, hitem, hrest, rfl, -⟩ :=
        exists_of_update_index h
      exact replaced_index hp hitem (ih hrest)

end Value

/-! ## Writing to variables -/

/-- Where the component cannot be replaced, the assignment ends with that fault, and nothing but the
meter has changed. -/
theorem Evaluation.store_error {context : Context} {machine : Machine} {place : Place}
    {v new : Value} {fault : Fault} {after : Meter}
    (hroot : (machine.frames.head?.bind fun locals => locals.get? place.root) = some v)
    (h : (v.replace place.steps new).outcome context.limits machine.meter =
      (.error fault, after)) :
    (store place .set new).outcome context machine = (.error fault, machine.withMeter after) := by
  have hlocal : (local? place.root).outcome context machine = (.ok (some v), machine) := by
    rw [← hroot]
    rfl
  have hwithin : (v.updateWithin place.steps fun old => do
      return (← old.assigned .set new, ())).outcome context.limits machine.meter =
        (.error fault, after) :=
    Act.outcome_bind_error _ _ h _
  have hwrite : (ofMetered (v.updateWithin place.steps fun old => do
      return (← old.assigned .set new, ()))).outcome context machine =
        (.error fault, machine.withMeter after) := by
    rw [ofMetered, Act.outcome_ofOutcome, hwithin]
  rw [store, updatePlace, Act.outcome_bind_ok _ _ hlocal]
  exact Act.outcome_bind_error _ _ hwrite _

/-- A place is written as a lens. Where the write succeeds, what was written is read back in the form
that its place gives it, everything beside the path is read as before, and what lies on the path keeps
its length and its kind. Where it fails, so does the assignment to any variable with this value, and
all variables and constants are what they were. -/
theorem Value.replace_lens (v new : Value) (steps : List Step) (limits : Limits) (meter : Meter) :
    match (v.replace steps new).outcome limits meter with
    | (.ok (written, ()), _) => v.Replaced steps new written
    | (.error fault, after) => ∀ functions place machine,
      place.steps = steps → machine.meter = meter →
      (machine.frames.head?.bind fun locals => locals.get? place.root) = some v →
      (Evaluation.store place .set new).outcome ⟨functions, limits⟩ machine =
        (.error fault, machine.withMeter after) := by
  split
  · rename_i written after h
    exact replaced h
  · rename_i fault after h
    rintro functions place machine rfl rfl hroot
    exact Evaluation.store_error hroot h

/-- In a list of two pads a layer of the last one is replaced: it is read back, the other pad and the
other layers are read as before, and the list has as many pads as it had. -/
theorem Value.replace_lens_layer :
    let pads : Value := .list (Sequence.ofItems
      [.element (.smd (Smd.new (.number 1) ⟨1, 1⟩)), .element (.smd (Smd.new (.number 2) ⟨1, 1⟩))] 0)
    let steps : List Step := [.index (-1) ⟨0, 0⟩, .field ⟨"layers", ⟨0, 0⟩⟩, .index 0 ⟨0, 0⟩]
    ∃ written after,
      (pads.replace steps (.text "B.Cu")).outcome Limits.standard Meter.zero =
        (.ok (written, ()), after) ∧
      ((written.read steps).outcome Limits.standard Meter.zero).1 = .ok (.text "B.Cu") ∧
      written.read [.index 0 ⟨0, 0⟩] = pads.read [.index 0 ⟨0, 0⟩] ∧ pads.Alike written := by
  intro pads steps
  have hlens := replace_lens pads (.text "B.Cu") steps Limits.standard Meter.zero
  have hok : ∃ written after, (pads.replace steps (.text "B.Cu")).outcome Limits.standard
      Meter.zero = (.ok (written, ()), after) := ⟨_, _, rfl⟩
  obtain ⟨written, after, h⟩ := hok
  rw [h] at hlens
  have hdeparts : pads.Departs steps [.index 0 ⟨0, 0⟩] := .here fun hsame => by
    have hplaces := hsame _ rfl
    revert hplaces
    decide
  obtain ⟨old, new, _, hold, hnew, halike⟩ := hlens.shapes [] _ _ rfl Limits.standard Meter.zero
  cases hold
  cases hnew
  exact ⟨written, after, h, hlens.reads _ _, hlens.others _ hdeparts, halike⟩

end LandPattern
