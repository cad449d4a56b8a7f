import LandPattern.Proofs.Values.Fields
import LandPattern.Proofs.Values.Places

/-!
# Attributes written one after another

Writes to different attributes of an element do not see each other: what an attribute takes depends
on the sort of what it holds alone, and no write changes another attribute. A row of writes under
different names therefore succeeds in every order or in none, and its order does not show in the
element.
-/

namespace LandPattern

namespace Element

/-- The element after values were written to its attributes one after another. -/
def writeAll (e : Element) (fields : List (String × Value)) : Except Refusal Element :=
  fields.foldlM (fun e (field, v) => e.write field v) e

variable {e last : Element} {field : String} {v : Value} {rest fields other : List (String × Value)}

theorem writeAll_cons : e.writeAll ((field, v) :: rest) = e.write field v >>= fun written =>
    written.writeAll rest :=
  List.foldlM_cons

theorem writeAll_append : e.writeAll (fields ++ rest) = e.writeAll fields >>= fun written =>
    written.writeAll rest :=
  List.foldlM_append

theorem writeAll_cons_eq_ok_iff : e.writeAll ((field, v) :: rest) = .ok last ↔
    ∃ written, e.write field v = .ok written ∧ written.writeAll rest = .ok last := by
  rw [writeAll_cons]
  refine ⟨exists_of_bind_ok, ?_⟩
  rintro ⟨written, hwrite, hrest⟩
  rw [hwrite]
  exact hrest

/-- Two writes to different attributes give the same element in the other order. -/
theorem write_comm {g : String} {w : Value} {middle : Element} (hne : g ≠ field)
    (hfirst : e.write field v = .ok middle) (hsecond : middle.write g w = .ok last) :
    ∃ middle, e.write g w = .ok middle ∧ middle.write field v = .ok last := by
  obtain ⟨ht, held, datum, hheld, hdatum, hput⟩ := write_eq_ok_iff.1 hfirst
  obtain ⟨htg, heldg, datumg, hheldg, hdatumg, hputg⟩ := write_eq_ok_iff.1 hsecond
  have hheldg' : e.get? g = some heldg := get?_put_of_ne hput hne ▸ hheldg
  obtain ⟨next, hnext⟩ := exists_put hheldg' htg (Value.sort_of_asDatum hdatumg)
  have hheld' : next.get? field = some held := (get?_put_of_ne hnext hne.symm).trans hheld
  obtain ⟨final, hfinal⟩ := exists_put hheld' ht (Value.sort_of_asDatum hdatum)
  have hkept {one two : Element} (h : one.tag = two.tag) (found : Datum) :
      one.kept found = two.kept found := by
    cases found <;> first | rfl | rw [kept, kept, h]
  -- Both elements have the tag of the first one and agree in every attribute.
  have hsame : final = last := by
    refine eq_of_get? ?_ fun name => ?_
    · rw [tag_put hfinal, tag_put hnext, tag_put hputg, tag_put hput]
    · by_cases hf : name = field
      · subst hf
        rw [get?_put hfinal, get?_put_of_ne hputg hne.symm, get?_put hput, hkept (tag_put hnext)]
      · rw [get?_put_of_ne hfinal hf]
        by_cases hg : name = g
        · subst hg
          rw [get?_put hnext, get?_put hputg, hkept (tag_put hput)]
        · rw [get?_put_of_ne hnext hg, get?_put_of_ne hputg hg, get?_put_of_ne hput hf]
  subst hsame
  exact ⟨next, write_eq_ok_iff.2 ⟨htg, heldg, datumg, hheldg', hdatumg, hnext⟩,
    write_eq_ok_iff.2 ⟨ht, held, datum, hheld', hdatum, hfinal⟩⟩

/-- Writes to different attributes give the same element in every order. -/
theorem writeAll_perm (hp : fields.Perm other) (hd : (fields.map Prod.fst).Nodup)
    (h : e.writeAll fields = .ok last) : e.writeAll other = .ok last := by
  induction hp generalizing e with
  | nil => exact h
  | cons entry hp ih =>
    obtain ⟨-, hrest⟩ := List.nodup_cons.1 hd
    obtain ⟨written, hwrite, hmore⟩ := writeAll_cons_eq_ok_iff.1 h
    exact writeAll_cons_eq_ok_iff.2 ⟨written, hwrite, ih hrest hmore⟩
  | swap first second rest =>
    obtain ⟨middle, hsecond, hmore⟩ := writeAll_cons_eq_ok_iff.1 h
    obtain ⟨written, hfirst, hlast⟩ := writeAll_cons_eq_ok_iff.1 hmore
    have hne : first.1 ≠ second.1 := fun heq =>
      (List.nodup_cons.1 hd).1 (heq ▸ List.mem_cons_self)
    obtain ⟨next, hnext, hagain⟩ := write_comm hne hsecond hfirst
    have hlater := writeAll_cons_eq_ok_iff.2 ⟨written, hagain, hlast⟩
    exact writeAll_cons_eq_ok_iff.2 ⟨next, hnext, hlater⟩
  | trans hp hq ihp ihq => exact ihq ((hp.map Prod.fst).nodup_iff.1 hd) (ihp hd h)

end Element

/-! ## Assignments of a script -/

/-- The value after assignments to its attributes one after another, as a script makes them: each
reads the attribute, replaces it and checks the whole value. -/
def Value.assignAll (span : Script.Span) (v : Value) : List (String × Value) → Metered Value
  | [] => return v
  | (field, new) :: rest => do
    let (written, _) ← v.updateWithin [.field ⟨field, span⟩] fun old =>
      return (← old.assigned .set new, ())
    written.assignAll span rest

/-- An assignment to an attribute of an element is a write to it. -/
theorem Value.exists_assigned_iff {e : Element} {field : String} {new written : Value}
    (span : Script.Span) (limits : Limits) (meter : Meter) :
    (∃ after, ((Value.element e).updateWithin [.field ⟨field, span⟩] fun old =>
      return (← old.assigned .set new, ())).outcome limits meter = (.ok (written, ()), after)) ↔
      ∃ found, written = .element found ∧ e.write field new = .ok found := by
  constructor
  · rintro ⟨after, h⟩
    obtain ⟨⟨found, _⟩, middle, hupdate, hcheck⟩ := Act.exists_of_bind_ok h
    obtain ⟨_, _, -, hlast⟩ := Act.exists_of_bind_ok hcheck
    cases hlast
    obtain ⟨_, datum, old, _, component, found, hsame, -, -, hcomponent, hwrite, rfl⟩ :=
      exists_of_update_field hupdate
    cases hsame
    cases hcomponent
    exact ⟨found, rfl, hwrite⟩
  · rintro ⟨found, rfl, hwrite⟩
    obtain ⟨-, held, -, hheld, -, -⟩ := Element.write_eq_ok_iff.1 hwrite
    obtain ⟨old, hold, -⟩ := held.exists_value limits meter
    have hread : held.value.outcome limits meter =
        (.ok old, (held.value.outcome limits meter).2) := Prod.ext hold rfl
    have hupdate : ((Value.element e).update [.field ⟨field, span⟩] fun old =>
        return (← old.assigned .set new, ())).outcome limits meter =
          (.ok (Value.element found, ()), (held.value.outcome limits meter).2) := by
      rw [update]
      dsimp only
      rw [hheld]
      refine (Act.outcome_bind_ok _ _ hread _).trans ?_
      have hnew : (old.update [] fun old => return (← old.assigned .set new, ())).outcome limits
          (held.value.outcome limits meter).2 =
            (.ok (new, ()), (held.value.outcome limits meter).2) := rfl
      refine (Act.outcome_bind_ok _ _ hnew _).trans ?_
      dsimp only
      rw [hwrite]
      rfl
    exact ⟨_, Act.outcome_bind_ok _ _ hupdate _⟩

/-- Assignments to attributes of an element are writes to them. -/
theorem Value.assignAll_eq_ok_iff {e : Element} {fields : List (String × Value)} {v : Value}
    {span : Script.Span} {limits : Limits} {meter : Meter} :
    (((Value.element e).assignAll span fields).outcome limits meter).1 = .ok v ↔
      ∃ last, v = .element last ∧ e.writeAll fields = .ok last := by
  induction fields generalizing e meter with
  | nil =>
    constructor
    · intro h
      cases h
      exact ⟨e, rfl, rfl⟩
    · rintro ⟨last, rfl, h⟩
      cases h
      rfl
  | cons entry rest ih =>
    obtain ⟨field, new⟩ := entry
    constructor
    · intro h
      obtain ⟨⟨written, _⟩, after, hassigned, hrest⟩ :=
        Act.exists_of_bind_ok (Prod.ext h rfl : _ = (_, _))
      obtain ⟨found, rfl, hwrite⟩ := (exists_assigned_iff span limits meter).1 ⟨after, hassigned⟩
      obtain ⟨last, rfl, hlast⟩ := ih.1 (congrArg Prod.fst hrest)
      exact ⟨last, rfl, Element.writeAll_cons_eq_ok_iff.2 ⟨found, hwrite, hlast⟩⟩
    · rintro ⟨last, rfl, h⟩
      obtain ⟨found, hwrite, hrest⟩ := Element.writeAll_cons_eq_ok_iff.1 h
      obtain ⟨after, hassigned⟩ := (exists_assigned_iff span limits meter).2 ⟨found, rfl, hwrite⟩
      rw [assignAll, Act.outcome_bind_ok _ _ hassigned]
      exact ih.2 ⟨last, rfl, hrest⟩

end LandPattern
