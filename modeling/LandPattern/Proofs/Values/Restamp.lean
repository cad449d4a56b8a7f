import LandPattern.Proofs.Run.Sizes
import LandPattern.Proofs.Values.Writing
import Mathlib.Data.List.InsertIdx

/-!
# Values with other stamps

A stamp tells which lists and tuples share their items, and nothing else is read off it. A value with
other stamps has the same type, the same literal form and the same items up to their stamps, and it
is read as the same number, text or datum wherever one is expected.
-/

namespace LandPattern

mutual

/-- The value with other stamps. -/
def Value.restamp (f : Nat → Nat) (v : Value) : Value :=
  match v with
  | .list s => .list ⟨restampItems f s.items, s.depth, f s.stamp⟩
  | .tuple s => .tuple ⟨restampItems f s.items, s.depth, f s.stamp⟩
  | other => other
termination_by structural v

/-- The items with other stamps. -/
def restampItems (f : Nat → Nat) (items : List Value) : List Value :=
  match items with
  | [] => []
  | v :: rest => v.restamp f :: restampItems f rest
termination_by structural items

end

/-- The sequence with other stamps, its own among them. -/
def Sequence.restamp (f : Nat → Nat) (s : Sequence Value) : Sequence Value :=
  ⟨s.items.map (Value.restamp f), s.depth, f s.stamp⟩

/-- The value without its stamps. -/
abbrev Value.unstamped (v : Value) : Value := v.restamp fun _ => 0

/-- All stamps inside a value are below a bound. -/
def Value.StampedBelow (bound : Nat) (v : Value) : Prop :=
  ∀ (part : Value) (s : Sequence Value), part.Inside v → part.sequence? = some s → s.stamp < bound

section

variable (f : Nat → Nat)

theorem restampItems_eq_map (items : List Value) :
    restampItems f items = items.map (Value.restamp f) := by
  induction items with
  | nil => rfl
  | cons v rest ih => rw [restampItems, ih, List.map_cons]

namespace Value

@[simp] theorem restamp_list (s : Sequence Value) : (list s).restamp f = .list (s.restamp f) := by
  rw [restamp, restampItems_eq_map, Sequence.restamp]

@[simp] theorem restamp_tuple (s : Sequence Value) :
    (tuple s).restamp f = .tuple (s.restamp f) := by
  rw [restamp, restampItems_eq_map, Sequence.restamp]

theorem restamp_atom {v : Value} (h : v.sequence? = none) : v.restamp f = v := by
  cases v <;> first | rfl | cases h

theorem sequence?_restamp (v : Value) :
    (v.restamp f).sequence? = v.sequence?.map (Sequence.restamp f) := by
  cases v <;> simp [sequence?] <;> rfl

@[simp] theorem type_restamp (v : Value) : (v.restamp f).type = v.type := by
  cases v <;> rfl

@[simp] theorem depth_restamp (v : Value) : (v.restamp f).depth = v.depth := by
  cases v <;> rfl

@[simp] theorem number?_restamp (v : Value) : (v.restamp f).number? = v.number? := by
  cases v <;> rfl

mutual

@[simp] theorem literal_restamp (v : Value) : (v.restamp f).literal = v.literal := by
  match v with
  | .list s => simp only [restamp, literal, literals_restampItems]
  | .tuple s =>
    have hlength : (restampItems f s.items).length = s.items.length := by
      rw [restampItems_eq_map, List.length_map]
    simp only [restamp, literal, literals_restampItems, hlength]
  | .nothing | .bool _ | .int _ | .float _ | .text _ | .element _ | .function _ | .builtin _ => rfl
termination_by structural v

theorem literals_restampItems (separator : String) (items : List Value) :
    literals separator (restampItems f items) = literals separator items := by
  match items with
  | [] => rfl
  | v :: rest =>
    simp only [restampItems, literals, literal_restamp v, literals_restampItems ", " rest]
termination_by structural items

end

@[simp] theorem literalWithin_restamp (limit : Nat) (v : Value) :
    literalWithin limit (v.restamp f) = literalWithin limit v := by
  rw [literalWithin_eq, literalWithin_eq, literal_restamp]

@[simp] theorem describe_restamp (v : Value) : (v.restamp f).describe = v.describe := by
  cases v with
  | list s | tuple s => simp [describe, Sequence.restamp, type]
  | _ => rfl

/-! ## Expected values -/

variable (v : Value) (what : String)

@[simp] theorem asNumber_restamp : (v.restamp f).asNumber what = v.asNumber what := by
  simp only [asNumber, number?_restamp, type_restamp]

@[simp] theorem asBool_restamp : (v.restamp f).asBool what = v.asBool what := by
  cases v <;> rfl

@[simp] theorem asText_restamp : (v.restamp f).asText what = v.asText what := by
  cases v <;> rfl

@[simp] theorem asInt_restamp : (v.restamp f).asInt what = v.asInt what := by
  cases v <;> rfl

@[simp] theorem asCount_restamp : (v.restamp f).asCount what = v.asCount what := by
  cases v <;> rfl

@[simp] theorem asPadName_restamp : (v.restamp f).asPadName what = v.asPadName what := by
  cases v <;> rfl

@[simp] theorem asShape_restamp : (v.restamp f).asShape what = v.asShape what := by
  simp only [asShape, asText_restamp]

@[simp] theorem asPair_restamp : (v.restamp f).asPair what = v.asPair what := by
  unfold asPair
  rw [describe_restamp, sequence?_restamp]
  cases v.sequence? with
  | none => rfl
  | some s =>
    obtain ⟨items, depth, stamp⟩ := s
    rcases items with _ | ⟨first, _ | ⟨second, _ | ⟨third, rest⟩⟩⟩
    · rfl
    · rfl
    · simp only [Option.map_some, Sequence.restamp, List.map_cons, List.map_nil, asNumber_restamp]
    · rfl

@[simp] theorem asLayers_restamp : (v.restamp f).asLayers what = v.asLayers what := by
  unfold asLayers
  rw [type_restamp, sequence?_restamp]
  cases v.sequence? with
  | none => rfl
  | some s =>
    simp only [Option.map_some, Sequence.restamp, List.mapM_map, Function.comp_def,
      asText_restamp]

@[simp] theorem asDatum_restamp (sort : Datum.Sort) : (v.restamp f).asDatum sort what =
    v.asDatum sort what := by
  cases sort <;> simp [asDatum]

end Value

/-! ## Items -/

namespace Sequence

variable (s : Sequence Value)

@[simp] theorem length_restamp : (s.restamp f).length = s.length := List.length_map _

@[simp] theorem depth_restamp : (s.restamp f).depth = s.depth := rfl

theorem get?_restamp (index : Int) :
    (s.restamp f).get? index = (s.get? index).map (Value.restamp f) := by
  rw [get?, get?, length_restamp]
  cases position? s.length index with
  | none => rfl
  | some p => exact List.getElem?_map

theorem depthOf_restamp (items : List Value) :
    depthOf (items.map (Value.restamp f)) = depthOf items := by
  simp only [depthOf, List.foldl_map, Value.depth_restamp]

theorem ofItems_restamp (items : List Value) (stamp : Nat) :
    (ofItems items stamp).restamp f = ofItems (items.map (Value.restamp f)) (f stamp) := by
  simp only [ofItems, restamp, depthOf_restamp]

theorem push_restamp (item : Value) (stamp : Nat) :
    (s.push item stamp).restamp f = (s.restamp f).push (item.restamp f) (f stamp) := by
  simp [push, restamp]

theorem set_restamp (position : Nat) (item : Value) (stamp : Nat) :
    (s.set position item stamp).restamp f =
      (s.restamp f).set position (item.restamp f) (f stamp) := by
  simp [set, restamp]

theorem append_restamp (other : Sequence Value) (stamp : Nat) :
    (s.append other stamp).restamp f = (s.restamp f).append (other.restamp f) (f stamp) := by
  simp [append, restamp]

theorem erase_restamp (position : Nat) (stamp : Nat) :
    (s.erase position stamp).restamp f = (s.restamp f).erase position (f stamp) := by
  simp [erase, restamp, List.eraseIdx_map]

theorem pop?_restamp (stamp : Nat) :
    (s.restamp f).pop? (f stamp) =
      (s.pop? stamp).map (Prod.map (Sequence.restamp f) (Value.restamp f)) := by
  simp only [pop?, restamp, List.getLast?_map, Option.map_map, ← List.map_dropLast]
  rfl

end Sequence

namespace Value

theorem readIndex_restamp (v : Value) (index : Int) :
    (v.restamp f).readIndex index = (v.readIndex index).map (restamp f) := by
  cases v with
  | list s | tuple s =>
    simp only [restamp_list, restamp_tuple, readIndex, Sequence.get?_restamp,
      Sequence.length_restamp]
    cases s.get? index <;> rfl
  | text s =>
    simp only [restamp, readIndex]
    split <;> rfl
  | _ => rfl

mutual

/-- Changing stamps twice is changing them once. -/
theorem restamp_restamp (g : Nat → Nat) (v : Value) :
    (v.restamp f).restamp g = v.restamp (g ∘ f) := by
  match v with
  | .list s | .tuple s => simp only [restamp, restampItems_restampItems g s.items, Function.comp]
  | .nothing | .bool _ | .int _ | .float _ | .text _ | .element _ | .function _ | .builtin _ => rfl
termination_by structural v

theorem restampItems_restampItems (g : Nat → Nat) (items : List Value) :
    restampItems g (restampItems f items) = restampItems (g ∘ f) items := by
  match items with
  | [] => rfl
  | v :: rest => simp only [restampItems, restamp_restamp g v, restampItems_restampItems g rest]
termination_by structural items

end

@[simp] theorem unstamped_restamp (v : Value) : (v.restamp f).unstamped = v.unstamped := by
  rw [unstamped, restamp_restamp]
  rfl

variable {f}

theorem StampedBelow.item {bound : Nat} {v item : Value} {s : Sequence Value}
    (h : v.StampedBelow bound) (hs : v.sequence? = some s) (hi : item ∈ s.items) :
    item.StampedBelow bound :=
  fun part t hpart => h part t (.item hs hi hpart)

mutual

/-- Stamps that stay as they are leave the value as it is. -/
theorem restamp_eq_self {bound : Nat} (hf : ∀ stamp, stamp < bound → f stamp = stamp) (v : Value)
    (h : v.StampedBelow bound) : v.restamp f = v := by
  match v with
  | .list s | .tuple s =>
    have hitems := restampItems_eq_self hf s.items fun item hi => h.item rfl hi
    have hstamp := hf s.stamp (h _ s (.self _) rfl)
    simp only [restamp, hitems, hstamp]
  | .nothing | .bool _ | .int _ | .float _ | .text _ | .element _ | .function _ | .builtin _ => rfl
termination_by structural v

theorem restampItems_eq_self {bound : Nat} (hf : ∀ stamp, stamp < bound → f stamp = stamp)
    (items : List Value) (h : ∀ item ∈ items, item.StampedBelow bound) :
    restampItems f items = items := by
  match items with
  | [] => rfl
  | v :: rest =>
    have hfirst := restamp_eq_self hf v (h v List.mem_cons_self)
    have hrest := restampItems_eq_self hf rest fun item hi => h item (List.mem_cons_of_mem _ hi)
    rw [restampItems, hfirst, hrest]
termination_by structural items

end

end Value

end

end LandPattern
