import LandPattern.Value.Attribute

/-!
# Bounds of values

How many items, how deep a nesting and how many bytes a value may have. A sound value keeps to its
bounds in every part, except that its recorded depths only have to lie above those of its items. A
value whose own recorded depth keeps to the bound as well is within its bounds, and then so is
everything inside it.
-/

namespace LandPattern

/-- What the parts of a value may reach. There is room for every built-in text and list of layers. -/
structure Bounds where
  /-- Items of a list or tuple, and layers of an element. -/
  items : Nat
  /-- Lists and tuples inside one another. -/
  depth : Nat
  /-- Bytes of a text. -/
  bytes : Nat
  three_le_items : 3 ≤ items
  one_le_depth : 1 ≤ depth
  eleven_le_bytes : 11 ≤ bytes

/-- The text is short enough. -/
def Bounds.HasText (b : Bounds) (text : String) : Prop := text.utf8ByteSize ≤ b.bytes

/-- The identifier of a pad is short enough. -/
def Bounds.HasName (b : Bounds) : PadName → Prop
  | .number _ => True
  | .text text => b.HasText text

/-- There are few enough layers, with names that are short enough. -/
structure Bounds.HasLayers (b : Bounds) (names : List String) : Prop where
  length : names.length ≤ b.items
  texts : ∀ name ∈ names, b.HasText name

/-- What stands in an attribute keeps to the bounds. -/
def Bounds.HasDatum (b : Bounds) : Datum → Prop
  | .number _ | .flag _ | .shape _ => True
  | .text text => b.HasText text
  | .pad name => b.HasName name
  | .layers names => b.HasLayers names

/-- What stands in the attributes of an element keeps to the bounds. -/
def Bounds.HasElement (b : Bounds) : Element → Prop
  | .rect r => b.HasText r.layer
  | .line l => b.HasText l.layer
  | .caption c => b.HasText c.txt ∧ b.HasText c.layer
  | .smd s => b.HasName s.name ∧ b.HasLayers s.layers
  | .drilled p => b.HasName p.name ∧ b.HasLayers p.layers
  | .model m => b.HasText m.filename

/-- What a value holds itself keeps to the bounds. -/
def Bounds.HasAtom (b : Bounds) : Value → Prop
  | .text text => b.HasText text
  | .element e => b.HasElement e
  | _ => True

/-- Every part of the value keeps to the bounds on items and bytes, and the recorded depths grow
from the inside out. -/
inductive Value.Sound (b : Bounds) : Value → Prop where
  | atom {v : Value} (hs : v.sequence? = none) (ha : b.HasAtom v) : Sound b v
  | sequence {v : Value} {s : Sequence Value} (hs : v.sequence? = some s)
    (length : s.items.length ≤ b.items) (positive : 1 ≤ s.depth)
    (items : ∀ item ∈ s.items, Sound b item) (deeper : ∀ item ∈ s.items, item.depth < s.depth) :
    Sound b v

/-- A list or tuple of these items is sound. -/
structure Sequence.Sound (b : Bounds) (s : Sequence Value) : Prop where
  length : s.items.length ≤ b.items
  positive : 1 ≤ s.depth
  items : ∀ item ∈ s.items, item.Sound b
  deeper : ∀ item ∈ s.items, item.depth < s.depth

/-- A sound value whose recorded depth keeps to the bound. -/
structure Value.Within (b : Bounds) (v : Value) : Prop where
  sound : v.Sound b
  depth : v.depth ≤ b.depth

variable {b : Bounds}

namespace Value

theorem sound_of_sequence? {v : Value} {s : Sequence Value} (hs : v.sequence? = some s) :
    v.Sound b ↔ s.Sound b := by
  constructor
  · intro h
    cases h with
    | atom hnone _ =>
      rw [hs] at hnone
      cases hnone
    | sequence hsome length positive items deeper =>
      rw [hs] at hsome
      cases hsome
      exact ⟨length, positive, items, deeper⟩
  · exact fun h => .sequence hs h.length h.positive h.items h.deeper

@[simp] theorem sound_list {s : Sequence Value} : (Value.list s).Sound b ↔ s.Sound b :=
  sound_of_sequence? rfl

@[simp] theorem sound_tuple {s : Sequence Value} : (Value.tuple s).Sound b ↔ s.Sound b :=
  sound_of_sequence? rfl

theorem sound_atom {v : Value} (hs : v.sequence? = none) : v.Sound b ↔ b.HasAtom v := by
  constructor
  · intro h
    cases h with
    | atom _ ha => exact ha
    | sequence hsome =>
      rw [hs] at hsome
      cases hsome
  · exact .atom hs

@[simp] theorem sound_text {text : String} : (Value.text text).Sound b ↔ b.HasText text :=
  sound_atom rfl

@[simp] theorem sound_element {e : Element} : (Value.element e).Sound b ↔ b.HasElement e :=
  sound_atom rfl

theorem depth_eq_zero {v : Value} (hs : v.sequence? = none) : v.depth = 0 := by
  cases v <;> first | rfl | cases hs

theorem depth_eq {v : Value} {s : Sequence Value} (hs : v.sequence? = some s) :
    v.depth = s.depth := by
  cases v <;> cases hs <;> rfl

/-- What has no items is within its bounds when it is sound. -/
theorem within_atom {v : Value} (hs : v.sequence? = none) (ha : b.HasAtom v) : v.Within b :=
  ⟨.atom hs ha, by rw [depth_eq_zero hs]; exact Nat.zero_le _⟩

theorem within_text {text : String} (h : b.HasText text) : (Value.text text).Within b :=
  within_atom rfl h

theorem within_element {e : Element} (h : b.HasElement e) : (Value.element e).Within b :=
  within_atom rfl h

/-- Numbers have no parts. -/
theorem within_number {v : Value} (h : v.number?.isSome) : v.Within b := by
  cases v with
  | int n => exact within_atom rfl trivial
  | float x => exact within_atom rfl trivial
  | _ => cases h

theorem within_list {s : Sequence Value} (h : s.Sound b) (hd : s.depth ≤ b.depth) :
    (Value.list s).Within b :=
  ⟨sound_list.2 h, hd⟩

theorem within_tuple {s : Sequence Value} (h : s.Sound b) (hd : s.depth ≤ b.depth) :
    (Value.tuple s).Within b :=
  ⟨sound_tuple.2 h, hd⟩

/-- The items of a value are within the bounds of the value. -/
theorem Within.items {v : Value} {s : Sequence Value} (h : v.Within b)
    (hs : v.sequence? = some s) : ∀ item ∈ s.items, item.Within b := by
  intro item hitem
  have hsound := (sound_of_sequence? hs).1 h.sound
  have hbelow := hsound.deeper item hitem
  have hdepth := h.depth
  rw [depth_eq hs] at hdepth
  exact ⟨hsound.items item hitem, by omega⟩

end Value

namespace Sequence

theorem depth_lt_depthOf {items : List Value} {item : Value} (h : item ∈ items) :
    item.depth < depthOf items := by
  have hfold : ∀ (rest : List Value) (start : Nat),
      start ≤ rest.foldl (fun d v => max d v.depth) start ∧
      ∀ v ∈ rest, v.depth ≤ rest.foldl (fun d v => max d v.depth) start := by
    intro rest
    induction rest with
    | nil => exact fun start => ⟨Nat.le_refl _, fun _ hnone => absurd hnone List.not_mem_nil⟩
    | cons first rest ih =>
      intro start
      obtain ⟨hstart, hall⟩ := ih (max start first.depth)
      rw [List.foldl_cons]
      refine ⟨by omega, fun v hv => ?_⟩
      rcases List.mem_cons.1 hv with rfl | htail
      · omega
      · exact hall v htail
  have hitem := (hfold items 0).2 item h
  rw [depthOf]
  omega

/-- The depth of new items is no more than what lies above all of them. -/
theorem depthOf_le {items : List Value} {depth : Nat} (hd : 1 ≤ depth)
    (h : ∀ item ∈ items, item.depth < depth) : depthOf items ≤ depth := by
  have hfold : ∀ (rest : List Value) (start : Nat), start < depth →
      (∀ item ∈ rest, item.depth < depth) → rest.foldl (fun d v => max d v.depth) start < depth := by
    intro rest
    induction rest with
    | nil => exact fun _ hstart _ => hstart
    | cons first rest ih =>
      intro start hstart hrest
      have hfirst := hrest first List.mem_cons_self
      exact ih (max start first.depth) (by omega) fun item hitem =>
        hrest item (List.mem_cons_of_mem _ hitem)
  have hall := hfold items 0 (by omega) h
  rw [depthOf]
  omega

namespace Sound

variable {s t : Sequence Value} {item : Value}

theorem ofItems {items : List Value} (hl : items.length ≤ b.items)
    (hi : ∀ item ∈ items, item.Sound b) (stamp : Nat) : (ofItems items stamp).Sound b :=
  ⟨hl, Nat.le_add_right 1 _, hi, fun _ hitem => depth_lt_depthOf hitem⟩

/-- The new item is counted, and what lay above the old items stays above them. -/
theorem set (h : s.Sound b) (hi : item.Sound b) (position stamp : Nat) :
    (s.set position item stamp).Sound b := by
  have hpositive := h.positive
  refine ⟨by simpa [Sequence.set] using h.length, ?_, fun v hv => ?_, fun v hv => ?_⟩
  · change 1 ≤ max s.depth (item.depth + 1)
    omega
  · rcases List.mem_or_eq_of_mem_set hv with hold | rfl
    · exact h.items v hold
    · exact hi
  · change v.depth < max s.depth (item.depth + 1)
    rcases List.mem_or_eq_of_mem_set hv with hold | rfl
    · have hbelow := h.deeper v hold
      omega
    · omega

theorem push (h : s.Sound b) (hi : item.Sound b) (hl : s.length + 1 ≤ b.items) (stamp : Nat) :
    (s.push item stamp).Sound b := by
  have hpositive := h.positive
  refine ⟨by simpa [Sequence.push, Sequence.length] using hl, ?_, fun v hv => ?_, fun v hv => ?_⟩
  · change 1 ≤ max s.depth (item.depth + 1)
    omega
  · rcases List.mem_append.1 hv with hold | hnew
    · exact h.items v hold
    · rw [List.mem_singleton.1 hnew]
      exact hi
  · change v.depth < max s.depth (item.depth + 1)
    rcases List.mem_append.1 hv with hold | hnew
    · have hbelow := h.deeper v hold
      omega
    · rw [List.mem_singleton.1 hnew]
      omega

/-- Fewer items under the same depth are sound. -/
theorem fewer {items : List Value} (h : s.Sound b) (hl : items.length ≤ s.items.length)
    (hi : ∀ item ∈ items, item ∈ s.items) (stamp : Nat) :
    Sound b ⟨items, s.depth, stamp⟩ :=
  ⟨Nat.le_trans hl h.length, h.positive, fun v hv => h.items v (hi v hv),
    fun v hv => h.deeper v (hi v hv)⟩

theorem erase (h : s.Sound b) (position stamp : Nat) : (s.erase position stamp).Sound b :=
  h.fewer (List.length_eraseIdx_le _ _) (fun _ hv => List.mem_of_mem_eraseIdx hv) stamp

theorem pop? {stamp : Nat} {rest : Sequence Value} {last : Value} (h : s.Sound b)
    (hp : s.pop? stamp = some (rest, last)) :
    rest.Sound b ∧ rest.depth = s.depth ∧ last ∈ s.items := by
  obtain ⟨found, hfound, heq⟩ := Option.map_eq_some_iff.1 hp
  cases heq
  refine ⟨h.fewer ?_ (fun _ hv => (List.dropLast_sublist _).mem hv) stamp, rfl,
    List.mem_of_getLast? hfound⟩
  rw [List.length_dropLast]
  omega

theorem append (hs : s.Sound b) (ht : t.Sound b) (hl : s.length + t.length ≤ b.items)
    (stamp : Nat) : (s.append t stamp).Sound b := by
  have hpositive := hs.positive
  refine ⟨by simpa [Sequence.append, Sequence.length] using hl, ?_, fun v hv => ?_, fun v hv => ?_⟩
  · change 1 ≤ max s.depth t.depth
    omega
  · rcases List.mem_append.1 hv with hleft | hright
    · exact hs.items v hleft
    · exact ht.items v hright
  · change v.depth < max s.depth t.depth
    rcases List.mem_append.1 hv with hleft | hright
    · have hbelow := hs.deeper v hleft
      omega
    · have hbelow := ht.deeper v hright
      omega

end Sound

end Sequence

/-- A new list of values without items has one level. -/
theorem Value.within_atoms {items : List Value} (hl : items.length ≤ b.items)
    (hi : ∀ item ∈ items, item.Sound b ∧ item.sequence? = none) (stamp : Nat) :
    (Value.list (Sequence.ofItems items stamp)).Within b := by
  refine within_list (.ofItems hl (fun item hitem => (hi item hitem).1) stamp) ?_
  refine Nat.le_trans (Sequence.depthOf_le (Nat.le_refl 1) fun item hitem => ?_) b.one_le_depth
  rw [depth_eq_zero (hi item hitem).2]
  exact Nat.zero_lt_one

end LandPattern
