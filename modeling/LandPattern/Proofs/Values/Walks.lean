import LandPattern.Proofs.Values.Bounds
import LandPattern.Run.Result

/-!
# Walks over values

Taking a value apart into elements and writing its literal form go through its lists, tuples and
leaves one by one, a shared part once for every place where it stands. Each walk is given here with
a count of what it comes to, beside the result that it has anyway.
-/

namespace LandPattern.Value

-- Powers are those of the core library, whatever else stands before this in a file.
attribute [local instance] Number.corePow

/-! ## Sizes -/

mutual

/-- The lists, tuples and leaves of a value, counted wherever they stand. -/
def nodes (v : Value) : Nat :=
  match v with
  | .list s | .tuple s => itemNodes s.items + 1
  | _ => 1
termination_by structural v

/-- The lists, tuples and leaves of items. -/
def itemNodes (items : List Value) : Nat :=
  match items with
  | [] => 0
  | v :: rest => v.nodes + itemNodes rest
termination_by structural items

end

theorem nodes_of_sequence? {v : Value} {s : Sequence Value} (hs : v.sequence? = some s) :
    v.nodes = itemNodes s.items + 1 := by
  cases v <;> cases hs <;> rfl

theorem nodes_of_none {v : Value} (hs : v.sequence? = none) : v.nodes = 1 := by
  cases v <;> first | rfl | cases hs

/-- The nodes of items, none of which has more than so many. -/
theorem itemNodes_le {items : List Value} {most : Nat} (h : ∀ item ∈ items, item.nodes ≤ most) :
    itemNodes items ≤ items.length * most := by
  induction items with
  | nil => exact Nat.zero_le _
  | cons v rest ih =>
    have hfirst := h v List.mem_cons_self
    have hrest := ih fun item hitem => h item (List.mem_cons_of_mem _ hitem)
    rw [itemNodes, List.length_cons, Nat.add_mul, Nat.one_mul]
    omega

/-- The nodes of the largest value with so many items in every list and so many levels of lists. -/
def fullNodes (items : Nat) : Nat → Nat
  | 0 => 1
  | depth + 1 => items * fullNodes items depth + 1

theorem fullNodes_pos (items depth : Nat) : 1 ≤ fullNodes items depth := by
  cases depth with
  | zero => exact Nat.le_refl 1
  | succ depth => exact Nat.le_add_left 1 _

theorem fullNodes_le_succ (items depth : Nat) :
    fullNodes items depth ≤ fullNodes items (depth + 1) := by
  induction depth with
  | zero => exact fullNodes_pos items 1
  | succ depth ih => exact Nat.succ_le_succ (Nat.mul_le_mul_left items ih)

theorem fullNodes_mono {items depth deeper : Nat} (h : depth ≤ deeper) :
    fullNodes items depth ≤ fullNodes items deeper := by
  induction h with
  | refl => exact Nat.le_refl _
  | step _ ih => exact Nat.le_trans ih (fullNodes_le_succ items _)

/-- A sound value has no more nodes than the largest of its depth. -/
theorem Sound.nodes_le {b : Bounds} {v : Value} (h : v.Sound b) :
    v.nodes ≤ fullNodes b.items v.depth := by
  induction h with
  | atom hs ha =>
    rw [nodes_of_none hs]
    exact fullNodes_pos _ _
  | @sequence v s hs length positive items deeper ih =>
    rw [nodes_of_sequence? hs, depth_eq hs]
    obtain ⟨depth, hdepth⟩ := Nat.exists_eq_add_of_le' positive
    have hitems : itemNodes s.items ≤ s.items.length * fullNodes b.items depth := by
      refine itemNodes_le fun item hitem => Nat.le_trans (ih item hitem) ?_
      have hbelow := deeper item hitem
      exact fullNodes_mono (by omega)
    have hlength := Nat.mul_le_mul_right (fullNodes b.items depth) length
    rw [hdepth, fullNodes]
    omega

theorem Within.nodes_le {b : Bounds} {v : Value} (h : v.Within b) :
    v.nodes ≤ fullNodes b.items b.depth :=
  Nat.le_trans h.sound.nodes_le (fullNodes_mono h.depth)

/-! ## Taking apart -/

mutual

/-- What a value is taken apart into, and how many nodes are looked at on the way. -/
def toNestedCounted (limit : Nat) (path : List Nat) (count : Nat) (v : Value) :
    Except Fault (Nested Element × Nat) × Nat :=
  match v with
  | .element e =>
    if limit < count + 1 then (.error (Fault.of (.tooManyElements limit)), 1)
    else (.ok (.leaf e, count + 1), 1)
  | .list s | .tuple s =>
    let walked := toNestedItemsCounted limit path 0 count s.items
    (walked.1.map fun found => (.list found.1, found.2), walked.2 + 1)
  | other => (.error (Fault.of (.notAnElement path.reverse other.describe)), 1)
termination_by structural v

/-- The same for items from a position on. What comes after a fault is not looked at. -/
def toNestedItemsCounted (limit : Nat) (path : List Nat) (position count : Nat)
    (items : List Value) : Except Fault (List (Nested Element) × Nat) × Nat :=
  match items with
  | [] => (.ok ([], count), 0)
  | v :: rest =>
    match toNestedCounted limit (position :: path) count v with
    | (.error fault, looked) => (.error fault, looked)
    | (.ok (nested, counted), looked) =>
      let walked := toNestedItemsCounted limit path (position + 1) counted rest
      (walked.1.map fun found => (nested :: found.1, found.2), looked + walked.2)
termination_by structural items

end

mutual

/-- Counting changes nothing in what a value is taken apart into. -/
theorem toNestedCounted_fst (limit : Nat) (path : List Nat) (count : Nat) (v : Value) :
    (v.toNestedCounted limit path count).1 = v.toNested limit path count := by
  match v with
  | .element e =>
    unfold toNestedCounted toNested
    split <;> rfl
  | .list s | .tuple s =>
    have hitems := toNestedItemsCounted_fst limit path 0 count s.items
    simp only [toNestedCounted, toNested, hitems]
    rfl
  | .nothing | .bool _ | .int _ | .float _ | .text _ | .function _ | .builtin _ => rfl
termination_by structural v

theorem toNestedItemsCounted_fst (limit : Nat) (path : List Nat) (position count : Nat)
    (items : List Value) :
    (toNestedItemsCounted limit path position count items).1 =
      toNestedItems limit path position count items := by
  match items with
  | [] => rfl
  | v :: rest =>
    have hfirst := toNestedCounted_fst limit (position :: path) count v
    unfold toNestedItemsCounted toNestedItems
    rw [← hfirst]
    rcases v.toNestedCounted limit (position :: path) count with ⟨fault | ⟨nested, counted⟩, looked⟩
    · rfl
    · have hrest := toNestedItemsCounted_fst limit path (position + 1) counted rest
      dsimp only
      rw [hrest]
      rfl
termination_by structural items

end

mutual

/-- No node is looked at twice, and all of them are when there is no fault. -/
theorem toNestedCounted_snd (limit : Nat) (path : List Nat) (count : Nat) (v : Value) :
    (v.toNestedCounted limit path count).2 ≤ v.nodes ∧
      ((v.toNestedCounted limit path count).1.isOk →
        (v.toNestedCounted limit path count).2 = v.nodes) := by
  match v with
  | .element e =>
    unfold toNestedCounted
    split <;> exact ⟨Nat.le_refl 1, fun _ => rfl⟩
  | .list s | .tuple s =>
    obtain ⟨hle, heq⟩ := toNestedItemsCounted_snd limit path 0 count s.items
    simp only [toNestedCounted, nodes]
    refine ⟨Nat.succ_le_succ hle, fun hok => congrArg (· + 1) (heq ?_)⟩
    revert hok
    cases (toNestedItemsCounted limit path 0 count s.items).1 <;> exact id
  | .nothing | .bool _ | .int _ | .float _ | .text _ | .function _ | .builtin _ =>
    exact ⟨Nat.le_refl 1, fun _ => rfl⟩
termination_by structural v

theorem toNestedItemsCounted_snd (limit : Nat) (path : List Nat) (position count : Nat)
    (items : List Value) :
    (toNestedItemsCounted limit path position count items).2 ≤ itemNodes items ∧
      ((toNestedItemsCounted limit path position count items).1.isOk →
        (toNestedItemsCounted limit path position count items).2 = itemNodes items) := by
  match items with
  | [] => exact ⟨Nat.le_refl 0, fun _ => rfl⟩
  | v :: rest =>
    obtain ⟨hle, heq⟩ := toNestedCounted_snd limit (position :: path) count v
    unfold toNestedItemsCounted itemNodes
    revert hle heq
    rcases v.toNestedCounted limit (position :: path) count with ⟨fault | ⟨nested, counted⟩, looked⟩
    · intro hle heq
      exact ⟨Nat.le_trans hle (Nat.le_add_right _ _), fun hok => by cases hok⟩
    · intro hle heq
      obtain ⟨hless, hrest⟩ := toNestedItemsCounted_snd limit path (position + 1) counted rest
      have hfirst := heq rfl
      dsimp only at hfirst ⊢
      refine ⟨by omega, fun hok => ?_⟩
      have hall : (toNestedItemsCounted limit path (position + 1) counted rest).1.isOk := by
        revert hok
        cases (toNestedItemsCounted limit path (position + 1) counted rest).1 <;> exact id
      have hmore := hrest hall
      omega
termination_by structural items

end

/-! ## Literal forms -/

mutual

/-- The literal form of a value, and how many nodes are written. -/
def literalCounted (v : Value) : String × Nat :=
  match v with
  | .list s =>
    let written := literalsCounted "" s.items
    (listBrackets.opening ++ written.1 ++ listBrackets.closing, written.2 + 1)
  | .tuple s =>
    let brackets := tupleBrackets s.items.length
    let written := literalsCounted "" s.items
    (brackets.opening ++ written.1 ++ brackets.closing, written.2 + 1)
  | other => (other.atom, 1)
termination_by structural v

/-- The same for items; `separator` goes before the first of them. -/
def literalsCounted (separator : String) (items : List Value) : String × Nat :=
  match items with
  | [] => ("", 0)
  | v :: rest =>
    let first := v.literalCounted
    let others := literalsCounted ", " rest
    (separator ++ first.1 ++ others.1, first.2 + others.2)
termination_by structural items

end

mutual

/-- Every node is written once. -/
theorem literalCounted_eq (v : Value) : v.literalCounted = (v.literal, v.nodes) := by
  match v with
  | .list s | .tuple s =>
    have hitems := literalsCounted_eq "" s.items
    simp only [literalCounted, literal, nodes, hitems]
  | .nothing | .bool _ | .int _ | .float _ | .text _ | .element _ | .function _ | .builtin _ => rfl
termination_by structural v

theorem literalsCounted_eq (separator : String) (items : List Value) :
    literalsCounted separator items = (literals separator items, itemNodes items) := by
  match items with
  | [] => rfl
  | v :: rest =>
    have hfirst := literalCounted_eq v
    have hrest := literalsCounted_eq ", " rest
    simp only [literalsCounted, literals, itemNodes, hfirst, hrest]
termination_by structural items

end

/-! ## Shared items -/

/-- A list of twice the same list, of twice the same list, and so on so many times; the innermost
list is empty. -/
def doubled : Nat → Value
  | 0 => .list (Sequence.ofItems [] 0)
  | times + 1 => .list (Sequence.ofItems [doubled times, doubled times] (times + 1))

theorem depth_doubled (times : Nat) : (doubled times).depth = times + 1 := by
  induction times with
  | zero => rfl
  | succ times ih =>
    change Sequence.depthOf [doubled times, doubled times] = times + 1 + 1
    simp only [Sequence.depthOf, List.foldl_cons, List.foldl_nil, ih]
    omega

/-- Every doubling takes one list more, and has twice the nodes. -/
theorem nodes_doubled (times : Nat) : (doubled times).nodes = 2 ^ (times + 1) - 1 := by
  induction times with
  | zero => rfl
  | succ times ih =>
    have hnodes : (doubled (times + 1)).nodes = 2 * (doubled times).nodes + 1 := by
      simp only [doubled, nodes, Sequence.ofItems, itemNodes]
      omega
    have hpos := Nat.one_le_two_pow (n := times + 1)
    rw [hnodes, ih, Nat.pow_succ 2 (times + 1)]
    omega

/-- It holds no elements, so none is counted and nothing is refused. -/
theorem toNested_doubled (limit : Nat) (path : List Nat) (count times : Nat) :
    ∃ nested, (doubled times).toNested limit path count = .ok (nested, count) := by
  induction times generalizing path with
  | zero => exact ⟨.list [], rfl⟩
  | succ times ih =>
    obtain ⟨left, hleft⟩ := ih (0 :: path)
    obtain ⟨right, hright⟩ := ih (1 :: path)
    refine ⟨.list [left, right], ?_⟩
    simp only [doubled, Sequence.ofItems, toNested, toNestedItems, Nat.zero_add]
    rw [hleft]
    simp only [bind, Except.bind]
    rw [hright]
    rfl

/-- All of it is looked at, to find no element. -/
theorem looked_doubled (limit times : Nat) :
    ((doubled times).toNestedCounted limit [] 0).2 = 2 ^ (times + 1) - 1 := by
  obtain ⟨nested, hnested⟩ := toNested_doubled limit [] 0 times
  have hall := ((doubled times).toNestedCounted_snd limit [] 0).2
  rw [toNestedCounted_fst, hnested] at hall
  rw [hall rfl, nodes_doubled]

end LandPattern.Value
