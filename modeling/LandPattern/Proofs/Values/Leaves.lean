import LandPattern.Proofs.Run.Endings
import LandPattern.Proofs.Run.Flattening

/-!
# Results by their leaves

What a footprint returns is judged leaf by leaf, from the left, each with the path of positions that
leads to it. The elements come out in that order when every leaf is one and there are not too many;
otherwise the first leaf that is no element, or that is one too many, decides the fault.
-/

namespace LandPattern

namespace Value

/-! ## Leaves and their paths -/

/-- What a path of positions leads to, through lists and tuples. -/
def follow (v : Value) : List Nat → Option Value
  | [] => some v
  | position :: path =>
    (v.sequence?.bind fun s => s.items[position]?).bind fun item => item.follow path

mutual

/-- The leaves of a value, depth first and from the left, with the paths that lead to them. -/
def leaves (v : Value) : List (List Nat × Value) :=
  match v with
  | .list s | .tuple s => itemLeaves 0 s.items
  | other => [([], other)]
termination_by structural v

/-- The leaves of the items from a position on. -/
def itemLeaves (position : Nat) (items : List Value) : List (List Nat × Value) :=
  match items with
  | [] => []
  | v :: rest =>
    (v.leaves.map fun leaf => (position :: leaf.1, leaf.2)) ++ itemLeaves (position + 1) rest
termination_by structural items

end

theorem leaves_of_sequence? {v : Value} {s : Sequence Value} (hs : v.sequence? = some s) :
    v.leaves = itemLeaves 0 s.items := by
  cases v <;> cases hs <;> rfl

theorem leaves_of_none {v : Value} (hs : v.sequence? = none) : v.leaves = [([], v)] := by
  cases v <;> first | rfl | cases hs

theorem itemLeaves_eq (position : Nat) (items : List Value) :
    itemLeaves position items = numbered leaves position items := by
  induction items generalizing position with
  | nil => rfl
  | cons v rest ih => rw [itemLeaves, numbered, ih]

/-- A leaf of the items is a leaf of one of them, behind the position of that item. -/
theorem mem_itemLeaves {position : Nat} {items : List Value} {path : List Nat} {leaf : Value} :
    (path, leaf) ∈ itemLeaves position items ↔ ∃ i inner item, path = (position + i) :: inner ∧
      items[i]? = some item ∧ (inner, leaf) ∈ item.leaves := by
  rw [itemLeaves_eq, mem_numbered]

/-- The leaves are what paths lead to that is no list or tuple. -/
theorem mem_leaves {v leaf : Value} {path : List Nat} :
    (path, leaf) ∈ v.leaves ↔ v.follow path = some leaf ∧ leaf.sequence? = none := by
  induction path generalizing v with
  | nil =>
    rw [follow, Option.some.injEq]
    cases hs : v.sequence? with
    | none =>
      rw [leaves_of_none hs, List.mem_singleton, Prod.mk.injEq]
      constructor
      · rintro ⟨-, rfl⟩
        exact ⟨rfl, hs⟩
      · rintro ⟨rfl, -⟩
        exact ⟨rfl, rfl⟩
    | some s =>
      rw [leaves_of_sequence? hs, mem_itemLeaves]
      constructor
      · rintro ⟨_, _, _, hpath, -⟩
        cases hpath
      · rintro ⟨rfl, hnone⟩
        rw [hs] at hnone
        cases hnone
  | cons position path ih =>
    rw [follow]
    cases hs : v.sequence? with
    | none =>
      rw [leaves_of_none hs, List.mem_singleton, Prod.mk.injEq]
      constructor
      · rintro ⟨hpath, -⟩
        cases hpath
      · rintro ⟨hfound, -⟩
        cases hfound
    | some s =>
      rw [leaves_of_sequence? hs, mem_itemLeaves, Option.bind_some]
      constructor
      · rintro ⟨i, inner, item, hpath, hitem, hmem⟩
        obtain ⟨rfl, rfl⟩ := List.cons.inj hpath
        rw [Nat.zero_add, hitem]
        exact ih.1 hmem
      · rintro ⟨hfound, hleaf⟩
        obtain ⟨item, hitem, hrest⟩ := Option.bind_eq_some_iff.1 hfound
        exact ⟨position, path, item, by rw [Nat.zero_add], hitem, ih.2 ⟨hrest, hleaf⟩⟩

mutual

/-- The paths of the leaves ascend in the order of words in a dictionary. -/
theorem leaves_ascend (v : Value) : v.leaves.Pairwise fun a b => a.1 < b.1 := by
  match v with
  | .list s | .tuple s => exact itemLeaves_ascend 0 s.items
  | .nothing | .bool _ | .int _ | .float _ | .text _ | .element _ | .function _ | .builtin _ =>
    exact List.pairwise_singleton _ _
termination_by structural v

theorem itemLeaves_ascend (position : Nat) (items : List Value) :
    (itemLeaves position items).Pairwise fun a b => a.1 < b.1 := by
  match items with
  | [] => exact .nil
  | v :: rest =>
    have hrest := itemLeaves_ascend (position + 1) rest
    rw [itemLeaves_eq] at hrest ⊢
    exact numbered_ascend (leaves_ascend v) hrest
termination_by structural items

end

/-! ## Judging leaves one by one -/

/-- The elements that leaves are, with how many there were when these were counted on; or the fault
of the first leaf that is no element, or that is one too many. -/
def judge (limit count : Nat) : List (List Nat × Value) → Except Fault (List Element × Nat)
  | [] => .ok ([], count)
  | (_, .element e) :: rest =>
    if limit < count + 1 then .error (Fault.of (.tooManyElements limit))
    else (judge limit (count + 1) rest).map fun found => (e :: found.1, found.2)
  | (path, other) :: _ => .error (Fault.of (.notAnElement path other.describe))

variable {limit count : Nat}

theorem judge_element {path : List Nat} {e : Element} {rest : List (List Nat × Value)} :
    judge limit count ((path, .element e) :: rest) =
      if limit < count + 1 then .error (Fault.of (.tooManyElements limit))
      else (judge limit (count + 1) rest).map fun found => (e :: found.1, found.2) := rfl

theorem judge_stranger {path : List Nat} {leaf : Value} {rest : List (List Nat × Value)}
    (h : ∀ e, leaf ≠ .element e) :
    judge limit count ((path, leaf) :: rest) =
      .error (Fault.of (.notAnElement path leaf.describe)) := by
  cases leaf with
  | element e => exact absurd rfl (h e)
  | _ => rfl

/-- Leaves are judged after those before them. -/
theorem judge_append (front rest : List (List Nat × Value)) :
    judge limit count (front ++ rest) = (do
      let (elements, counted) ← judge limit count front
      let (others, total) ← judge limit counted rest
      return (elements ++ others, total)) := by
  induction front generalizing count with
  | nil =>
    change judge limit count rest = (judge limit count rest >>= fun found =>
      pure ([] ++ found.1, found.2))
    cases judge limit count rest <;> rfl
  | cons leaf front ih =>
    obtain ⟨path, v⟩ := leaf
    by_cases h : ∃ e, v = .element e
    · obtain ⟨e, rfl⟩ := h
      rw [List.cons_append, judge_element, judge_element]
      split
      · rfl
      · rw [ih]
        rcases judge limit (count + 1) front with fault | ⟨elements, counted⟩
        · rfl
        · change Except.map _ (judge limit counted rest >>= _) = (judge limit counted rest >>= _)
          cases judge limit counted rest <;> rfl
    · have hstranger : ∀ e, v ≠ .element e := fun e heq => h ⟨e, heq⟩
      rw [List.cons_append, judge_stranger hstranger, judge_stranger hstranger]
      rfl

mutual

/-- Taking a value apart is judging its leaves; `path` leads to the value, the last step first. -/
theorem toNested_eq_judge (limit : Nat) (path : List Nat) (count : Nat) (v : Value) :
    (v.toNested limit path count).map (fun found => (found.1.leaves, found.2)) =
      judge limit count (v.leaves.map fun leaf => (path.reverse ++ leaf.1, leaf.2)) := by
  match v with
  | .element e =>
    rw [toNested, leaves_of_none rfl, List.map_singleton, judge_element]
    split <;> rfl
  | .list s | .tuple s =>
    rw [leaves_of_sequence? rfl, ← toNestedItems_eq_judge limit path 0 count s.items, toNested]
    cases toNestedItems limit path 0 count s.items <;> rfl
  | .nothing | .bool _ | .int _ | .float _ | .text _ | .function _ | .builtin _ =>
    rw [leaves_of_none rfl, List.map_singleton, List.append_nil]
    rfl
termination_by structural v

theorem toNestedItems_eq_judge (limit : Nat) (path : List Nat) (position count : Nat)
    (items : List Value) :
    (toNestedItems limit path position count items).map
        (fun found => (Nested.listLeaves found.1, found.2)) =
      judge limit count ((itemLeaves position items).map fun leaf =>
        (path.reverse ++ leaf.1, leaf.2)) := by
  match items with
  | [] => rfl
  | v :: rest =>
    have hfirst := toNested_eq_judge limit (position :: path) count v
    have hpaths : (v.leaves.map fun leaf => (position :: leaf.1, leaf.2)).map
        (fun leaf => (path.reverse ++ leaf.1, leaf.2)) =
          v.leaves.map fun leaf => ((position :: path).reverse ++ leaf.1, leaf.2) := by
      simp
    rw [itemLeaves, List.map_append, hpaths, judge_append, ← hfirst, toNestedItems]
    rcases v.toNested limit (position :: path) count with fault | ⟨nested, counted⟩
    · rfl
    · have hrest := toNestedItems_eq_judge limit path (position + 1) counted rest
      change Except.map _ (toNestedItems limit path (position + 1) counted rest >>= _) =
        (judge limit counted _ >>= _)
      rw [← hrest]
      cases toNestedItems limit path (position + 1) counted rest <;> rfl
termination_by structural items

end

/-- The elements of a value are what its leaves are judged to be. -/
theorem elements_eq_judge (limit : Nat) (v : Value) :
    v.elements limit = (judge limit 0 v.leaves).map Prod.fst := by
  have h := toNested_eq_judge limit [] 0 v
  simp only [List.reverse_nil, List.nil_append, List.map_id'] at h
  rw [elements_eq, ← h]
  cases v.toNested limit [] 0 <;> rfl

/-! ## The first offender -/

/-- Leaves that are elements are judged one after another, as long as there is room for them. -/
theorem judge_elements {front : List (List Nat × Value)} {elements : List Element}
    (helements : front.map Prod.snd = elements.map .element)
    (hroom : count + elements.length ≤ limit) :
    judge limit count front = .ok (elements, count + elements.length) := by
  induction front generalizing count elements with
  | nil =>
    obtain rfl := List.map_eq_nil_iff.1 helements.symm
    rfl
  | cons leaf front ih =>
    obtain ⟨path, v⟩ := leaf
    cases elements with
    | nil => cases helements
    | cons e elements =>
      obtain ⟨rfl, hrest⟩ := List.cons.inj helements
      rw [List.length_cons] at hroom
      rw [judge_element, if_neg (by omega), ih hrest (by omega), List.length_cons, Except.map,
        Nat.add_assoc, Nat.add_comm 1]

/-- Leaves that are judged to be elements are these elements, and there is room for them. -/
theorem elements_of_judge {front : List (List Nat × Value)} {elements : List Element} {total : Nat}
    (h : judge limit count front = .ok (elements, total)) (hcount : count ≤ limit) :
    front.map Prod.snd = elements.map .element ∧ count + elements.length ≤ limit := by
  induction front generalizing count elements total with
  | nil =>
    cases h
    exact ⟨rfl, hcount⟩
  | cons leaf front ih =>
    obtain ⟨path, v⟩ := leaf
    by_cases helement : ∃ e, v = .element e
    · obtain ⟨e, rfl⟩ := helement
      rw [judge_element] at h
      split at h
      · cases h
      · cases hrest : judge limit (count + 1) front with
        | error fault =>
          rw [hrest] at h
          cases h
        | ok found =>
          rw [hrest] at h
          cases h
          obtain ⟨hsame, hroom⟩ := ih hrest (by omega)
          rw [List.map_cons, List.map_cons, hsame, List.length_cons]
          exact ⟨rfl, by omega⟩
    · rw [judge_stranger fun e heq => helement ⟨e, heq⟩] at h
      cases h

/-- More elements than there is room for are too many, whatever follows them. -/
theorem judge_surplus {front rest : List (List Nat × Value)} {elements : List Element}
    (helements : front.map Prod.snd = elements.map .element)
    (hsurplus : limit < count + elements.length) (hcount : count ≤ limit) :
    judge limit count (front ++ rest) = .error (Fault.of (.tooManyElements limit)) := by
  induction front generalizing count elements with
  | nil =>
    obtain rfl := List.map_eq_nil_iff.1 helements.symm
    rw [List.length_nil] at hsurplus
    omega
  | cons leaf front ih =>
    obtain ⟨path, v⟩ := leaf
    cases elements with
    | nil => cases helements
    | cons e elements =>
      obtain ⟨rfl, hrest⟩ := List.cons.inj helements
      rw [List.length_cons] at hsurplus
      rw [List.cons_append, judge_element]
      split
      · rfl
      · rw [ih hrest (by omega) (by omega)]
        rfl

/-- Leaves that are all elements are the leaves of as many elements. -/
theorem exists_elements {front : List (List Nat × Value)}
    (h : ∀ entry ∈ front, ∃ e, entry.2 = .element e) :
    ∃ elements : List Element, front.map Prod.snd = elements.map .element ∧
      elements.length = front.length := by
  induction front with
  | nil => exact ⟨[], rfl, rfl⟩
  | cons leaf front ih =>
    obtain ⟨e, he⟩ := h leaf List.mem_cons_self
    obtain ⟨elements, hsame, hlength⟩ :=
      ih fun entry hentry => h entry (List.mem_cons_of_mem _ hentry)
    refine ⟨e :: elements, ?_, ?_⟩
    · rw [List.map_cons, List.map_cons, he, hsame]
    · rw [List.length_cons, List.length_cons, hlength]

/-- A result is converted exactly. Its leaves are what paths lead to that is no list or tuple, and
they are looked at in the order of their paths. The conversion succeeds if and only if all of them
are elements and there are not too many, and then gives these elements in this order; every fault is
one of the shape of the result. A leaf that is no element, with no more elements before it than
there may be, is named by its path; more elements than there may be, with nothing else before them,
are too many. -/
theorem elements_exact (limit : Nat) (v : Value) :
    (∀ path leaf, (path, leaf) ∈ v.leaves ↔ v.follow path = some leaf ∧ leaf.sequence? = none) ∧
    (v.leaves.Pairwise fun a b => a.1 < b.1) ∧
    (∀ elements, v.elements limit = .ok elements ↔
      v.leaves.map Prod.snd = elements.map .element ∧ elements.length ≤ limit) ∧
    (∀ fault, v.elements limit = .error fault → fault.kind = .shape) ∧
    (∀ before path leaf after, v.leaves = before ++ (path, leaf) :: after →
      (∀ entry ∈ before, ∃ e, entry.2 = .element e) → (∀ e, leaf ≠ .element e) →
      before.length ≤ limit →
      ∃ fault, v.elements limit = .error fault ∧
        fault.message = "footprint result" ++ String.join (path.map fun index => s!"[{index}]") ++
          s!" is {leaf.describe}, expected an element") ∧
    (∀ before after, v.leaves = before ++ after →
      (∀ entry ∈ before, ∃ e, entry.2 = .element e) → limit < before.length →
      ∃ fault, v.elements limit = .error fault ∧
        fault.message = s!"footprint returned more than {limit} elements") := by
  refine ⟨fun _ _ => mem_leaves, v.leaves_ascend, fun elements => ⟨fun h => ?_, ?_⟩, ?_, ?_, ?_⟩
  · rw [elements_eq_judge] at h
    cases hjudge : judge limit 0 v.leaves with
    | error fault =>
      rw [hjudge] at h
      cases h
    | ok found =>
      rw [hjudge] at h
      cases h
      obtain ⟨hsame, hroom⟩ := elements_of_judge hjudge (Nat.zero_le limit)
      exact ⟨hsame, by omega⟩
  · rintro ⟨hsame, hroom⟩
    rw [elements_eq_judge, judge_elements hsame (by omega)]
    rfl
  · intro fault h
    obtain ⟨cause, hkind, rfl⟩ := elements_error h
    exact hkind
  · intro before path leaf after hleaves hbefore hleaf hroom
    obtain ⟨elements, hsame, hlength⟩ := exists_elements hbefore
    refine ⟨Fault.of (.notAnElement path leaf.describe), ?_, rfl⟩
    rw [elements_eq_judge, hleaves, judge_append, judge_elements hsame (by omega)]
    change Except.map _ (judge limit _ ((path, leaf) :: after) >>= _) = _
    rw [judge_stranger hleaf]
    rfl
  · intro before after hleaves hbefore hsurplus
    obtain ⟨elements, hsame, hlength⟩ := exists_elements hbefore
    refine ⟨Fault.of (.tooManyElements limit), ?_, rfl⟩
    rw [elements_eq_judge, hleaves, judge_surplus hsame (by omega) (Nat.zero_le limit)]
    rfl

/-- Of two models and a truth value, the latter in a tuple behind one of the models, the truth value
is named where two elements are allowed; where only one is, the models are too many. -/
theorem elements_exact_nested :
    let model : Value := .element (.model ⟨"part.wrl"⟩)
    let result : Value := .list (Sequence.ofItems
      [model, .tuple (Sequence.ofItems [model, .bool true] 0)] 1)
    (∃ fault, result.elements 2 = .error fault ∧
      fault.message = "footprint result[1][1] is bool `true`, expected an element") ∧
    (∃ fault, result.elements 1 = .error fault ∧
      fault.message = "footprint returned more than 1 elements") ∧
    (Value.list (Sequence.ofItems [model, model] 0)).elements 2 =
      .ok [.model ⟨"part.wrl"⟩, .model ⟨"part.wrl"⟩] := by
  intro model result
  have hmodels : ∀ entry ∈ [([0], model), ([1, 0], model)], ∃ e, entry.2 = .element e := by
    intro entry hentry
    rcases List.mem_cons.1 hentry with rfl | hentry
    · exact ⟨_, rfl⟩
    · obtain rfl := List.mem_singleton.1 hentry
      exact ⟨_, rfl⟩
  obtain ⟨-, -, -, -, hstranger, -⟩ := elements_exact 2 result
  obtain ⟨-, -, -, -, -, hsurplus⟩ := elements_exact 1 result
  obtain ⟨-, -, hexact, -⟩ := elements_exact 2 (.list (Sequence.ofItems [model, model] 0))
  refine ⟨?_, ?_, (hexact _).2 ⟨rfl, by decide⟩⟩
  · obtain ⟨fault, hfault, hmessage⟩ := hstranger [([0], model), ([1, 0], model)] [1, 1]
      (.bool true) [] rfl hmodels (fun e heq => by cases heq) (by decide)
    refine ⟨fault, hfault, hmessage.trans ?_⟩
    decide
  · exact hsurplus [([0], model), ([1, 0], model)] [([1, 1], .bool true)] rfl hmodels (by decide)

end Value

end LandPattern
