import LandPattern.Proofs.Values.ElementBounds

/-!
# Attributes read back

What an attribute shows after a value was written to it, and that nothing else about the element has
changed. A number is shown as a float, layers as a list of their own, and a hole stays unplated.
-/

namespace LandPattern

/-! ## Data -/

/-- The datum that stands in an attribute after it was put there: a hole stays unplated. -/
def Element.kept (e : Element) : Datum → Datum
  | .flag plated => .flag (plated && e.tag != "Hole")
  | other => other

section

variable {e written : Element} {field : String} {datum : Datum}

theorem Element.tag_put (h : e.put? field datum = some written) : written.tag = e.tag := by
  cases e with
  | rect r =>
    obtain ⟨new, hnew, rfl⟩ := Option.map_eq_some_iff.1 h
    simp only [Rect.put?] at hnew
    split at hnew <;> cases hnew <;> rfl
  | caption c =>
    obtain ⟨new, hnew, rfl⟩ := Option.map_eq_some_iff.1 h
    simp only [Caption.put?] at hnew
    split at hnew <;> cases hnew <;> rfl
  | drilled p =>
    obtain ⟨bore, name, x, y, d, drill, layers⟩ := p
    obtain ⟨new, hnew, rfl⟩ := Option.map_eq_some_iff.1 h
    simp only [Drilled.put?] at hnew
    split at hnew <;> cases hnew <;> cases bore <;> rfl
  | line _ | smd _ | model _ =>
    obtain ⟨new, -, rfl⟩ := Option.map_eq_some_iff.1 h
    rfl

/-- Other attributes hold what they held. -/
theorem Element.get?_put_of_ne (h : e.put? field datum = some written) {other : String}
    (hne : other ≠ field) : written.get? other = e.get? other := by
  unfold Element.get?
  rw [tag_put h]
  split
  · rfl
  · cases e with
    | rect r =>
      obtain ⟨new, hnew, rfl⟩ := Option.map_eq_some_iff.1 h
      simp only [Rect.put?] at hnew
      split at hnew <;> cases hnew <;> simp only [Rect.get?] <;> split <;>
        first | rfl | exact absurd rfl hne
    | line l =>
      obtain ⟨new, hnew, rfl⟩ := Option.map_eq_some_iff.1 h
      simp only [Line.put?] at hnew
      split at hnew <;> cases hnew <;> simp only [Line.get?] <;> split <;>
        first | rfl | exact absurd rfl hne
    | caption c =>
      obtain ⟨new, hnew, rfl⟩ := Option.map_eq_some_iff.1 h
      simp only [Caption.put?] at hnew
      split at hnew <;> cases hnew <;> simp only [Caption.get?] <;> split <;>
        first | rfl | exact absurd rfl hne
    | smd s =>
      obtain ⟨new, hnew, rfl⟩ := Option.map_eq_some_iff.1 h
      simp only [Smd.put?] at hnew
      split at hnew <;> cases hnew <;> simp only [Smd.get?] <;> split <;>
        first | rfl | exact absurd rfl hne
    | drilled p =>
      obtain ⟨new, hnew, rfl⟩ := Option.map_eq_some_iff.1 h
      simp only [Drilled.put?] at hnew
      split at hnew <;> cases hnew <;> simp only [Drilled.get?] <;> split <;>
        first | rfl | exact absurd rfl hne
    | model m =>
      obtain ⟨new, hnew, rfl⟩ := Option.map_eq_some_iff.1 h
      simp only [Model.put?] at hnew
      split at hnew <;> cases hnew
      simp only [Model.get?]

theorem Element.kept_flag {flag : Bool} (h : e.tag ≠ "Hole") : e.kept (.flag flag) = .flag flag := by
  rw [kept, bne_iff_ne.2 h, Bool.and_true]

/-- The attribute holds what was put there. -/
theorem Element.get?_put (h : e.put? field datum = some written) :
    written.get? field = some (e.kept datum) := by
  cases e with
  | rect r =>
    obtain ⟨new, hnew, rfl⟩ := Option.map_eq_some_iff.1 h
    obtain ⟨kind, x, y, dx, dy, w, filled, layer, corner⟩ := r
    simp only [Rect.put?] at hnew
    split at hnew <;> cases hnew <;> first
      | rfl
      | rw [kept_flag (by cases kind <;> exact of_decide_eq_true rfl)]; rfl
  | line l =>
    obtain ⟨new, hnew, rfl⟩ := Option.map_eq_some_iff.1 h
    simp only [Line.put?] at hnew
    split at hnew <;> cases hnew <;> rfl
  | caption c =>
    obtain ⟨new, hnew, rfl⟩ := Option.map_eq_some_iff.1 h
    simp only [Caption.put?] at hnew
    split at hnew <;> cases hnew <;> rfl
  | smd s =>
    obtain ⟨new, hnew, rfl⟩ := Option.map_eq_some_iff.1 h
    simp only [Smd.put?] at hnew
    split at hnew <;> cases hnew <;> rfl
  | drilled p =>
    obtain ⟨bore, name, x, y, d, drill, layers⟩ := p
    obtain ⟨new, hnew, rfl⟩ := Option.map_eq_some_iff.1 h
    simp only [Drilled.put?] at hnew
    split at hnew <;> cases hnew <;> first | rfl | skip
    cases bore with
    | pad _ =>
      rw [kept_flag (of_decide_eq_true rfl)]
      rfl
    | hole => exact congrArg some (congrArg Datum.flag (Bool.and_false _).symm)
  | model m =>
    obtain ⟨new, hnew, rfl⟩ := Option.map_eq_some_iff.1 h
    simp only [Model.put?] at hnew
    split at hnew <;> cases hnew
    rfl

end

/-! ## Values -/

theorem PadShape.tag_of_ofTag? {tag : String} {shape : PadShape} (h : ofTag? tag = some shape) :
    shape.tag = tag := by
  unfold ofTag? at h
  split at h
  · rename_i htag
    cases h
    exact (beq_iff_eq.1 htag).symm
  · split at h
    · rename_i htag
      cases h
      exact (beq_iff_eq.1 htag).symm
    · cases h

/-- Texts that were read as layers are the items. -/
theorem Value.items_of_asLayers {v : Value} {what : String} {names : List String}
    (h : v.asLayers what = .ok names) :
    ∃ s, v.sequence? = some s ∧ s.items = names.map .text := by
  unfold asLayers at h
  split at h
  · rename_i s hs
    refine ⟨s, hs, ?_⟩
    generalize s.items = items at h
    induction items generalizing names with
    | nil =>
      cases h
      rfl
    | cons item rest ih =>
      rw [List.mapM_cons] at h
      obtain ⟨first, hfirst, hmore⟩ := exists_of_bind_ok h
      obtain ⟨others, hothers, heq⟩ := exists_of_bind_ok hmore
      cases heq
      cases item <;> cases hfirst
      rw [ih hothers, List.map_cons]
  · cases h

/-- What reading an attribute gives after a value was written to it: a number as a float, the items
of a list or tuple in a new list with this stamp, and no plating of a hole. -/
def Element.coerced (e : Element) (field : String) (v : Value) (stamp : Nat) : Value :=
  match e.get? field, v with
  | some (.number _), .int n => .float (Float.ofInt n)
  | some (.flag _), .bool plated => .bool (plated && e.tag != "Hole")
  | some (.layers _), .list s | some (.layers _), .tuple s => .list (Sequence.ofItems s.items stamp)
  | _, v => v

/-- The attribute is read from this meter. -/
theorem Element.value_kept {e : Element} {field : String} {v : Value} {held datum : Datum}
    (hheld : e.get? field = some held) (hd : v.asDatum held.sort field = .ok datum)
    (limits : Limits) (meter : Meter) :
    ((e.kept datum).value.outcome limits meter).1 = .ok (e.coerced field v meter.nextStamp) := by
  unfold coerced
  rw [hheld]
  cases held with
  | number x =>
    obtain ⟨y, hy, rfl⟩ := exists_of_map_ok hd
    unfold Value.asNumber at hy
    cases v <;> simp only [Value.number?, reduceCtorEq] at hy <;> split at hy <;> cases hy <;> rfl
  | flag b =>
    obtain ⟨y, hy, rfl⟩ := exists_of_map_ok hd
    cases v <;> cases hy
    rfl
  | text s =>
    obtain ⟨y, hy, rfl⟩ := exists_of_map_ok hd
    cases v <;> cases hy
    rfl
  | pad name =>
    obtain ⟨y, hy, rfl⟩ := exists_of_map_ok hd
    cases v <;> cases hy <;> rfl
  | shape form =>
    obtain ⟨y, hy, rfl⟩ := exists_of_map_ok hd
    obtain ⟨tag, htag, hshape⟩ := exists_of_bind_ok hy
    split at hshape
    · rename_i shape hof
      cases hshape
      cases v <;> cases htag
      obtain rfl := PadShape.tag_of_ofTag? hof
      rfl
    · cases hshape
  | layers names =>
    obtain ⟨y, hy, rfl⟩ := exists_of_map_ok hd
    obtain ⟨s, hs, hitems⟩ := Value.items_of_asLayers hy
    cases v <;> cases hs <;> dsimp only <;> rw [hitems] <;> rfl

/-- What is known of an element after a value was written to an attribute. -/
structure Element.Wrote (e : Element) (field : String) (v : Value) (written : Element) : Prop where
  tag : written.tag = e.tag
  others : ∀ other, other ≠ field → written.get? other = e.get? other
  held : ∃ datum, e.get? field = some datum
  /-- The attribute is read from any meter. -/
  reads : ∃ datum, written.get? field = some datum ∧ ∀ limits meter,
    (datum.value.outcome limits meter).1 = .ok (e.coerced field v meter.nextStamp)
  /-- Layers hold the texts of the items. -/
  layers : ∀ names, e.get? field = some (.layers names) → ∃ s stored, v.sequence? = some s ∧
    written.get? field = some (.layers stored) ∧ s.items = stored.map .text

theorem Element.wrote {e written : Element} {field : String} {v : Value}
    (h : e.write field v = .ok written) : e.Wrote field v written := by
  unfold write at h
  split at h
  · cases h
  · dsimp only at h
    split at h
    · cases h
    · rename_i held hheld
      obtain ⟨datum, hdatum, hmore⟩ := exists_of_bind_ok h
      split at hmore
      · rename_i new hput
        cases hmore
        refine ⟨tag_put hput, fun _ hne => get?_put_of_ne hput hne, ⟨held, hheld⟩,
          ⟨_, get?_put hput, value_kept hheld hdatum⟩, fun names hnames => ?_⟩
        obtain rfl := Option.some.inj (hheld.symm.trans hnames)
        obtain ⟨stored, hstored, rfl⟩ := exists_of_map_ok hdatum
        obtain ⟨s, hs, hitems⟩ := Value.items_of_asLayers hstored
        exact ⟨s, stored, hs, get?_put hput, hitems⟩
      · cases hmore

end LandPattern
