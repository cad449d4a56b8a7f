import LandPattern.Proofs.Run.Elementwise

/-!
# Flattening in rounds

A walk through nested lists goes in rounds. Each of them takes one item of the innermost list that is
still to be walked, or leaves that list when it has no items left, so that a walk is over after
exactly as many rounds as it has weight. It finds what the structure of the nested list tells: every
leaf once, in the order of the paths that lead to the leaves. How adjacent items are grouped into lists
plays no part.
-/

namespace LandPattern

/-! ## Paths through rows of items -/

section

variable {α β : Type} {leaves : β → List (List Nat × α)}

/-- What stands at the ends of paths in the items of a row, each path behind the position of its
item; the positions are counted on from the first. -/
def numbered (leaves : β → List (List Nat × α)) (position : Nat) :
    List β → List (List Nat × α)
  | [] => []
  | item :: rest =>
    ((leaves item).map fun leaf => (position :: leaf.1, leaf.2)) ++
      numbered leaves (position + 1) rest

theorem mem_numbered {position : Nat} {items : List β} {path : List Nat} {leaf : α} :
    (path, leaf) ∈ numbered leaves position items ↔ ∃ i inner item, path = (position + i) :: inner ∧
      items[i]? = some item ∧ (inner, leaf) ∈ leaves item := by
  induction items generalizing position with
  | nil => simp [numbered]
  | cons item rest ih =>
    rw [numbered, List.mem_append, ih, List.mem_map]
    constructor
    · rintro (⟨⟨inner, found⟩, hmem, heq⟩ | ⟨i, inner, other, rfl, hother, hmem⟩)
      · obtain ⟨rfl, rfl⟩ := Prod.mk.inj heq
        exact ⟨0, inner, item, rfl, rfl, hmem⟩
      · refine ⟨i + 1, inner, other, ?_, hother, hmem⟩
        rw [Nat.add_assoc, Nat.add_comm 1 i]
    · rintro ⟨i, inner, other, rfl, hother, hmem⟩
      cases i with
      | zero =>
        cases hother
        exact .inl ⟨(inner, leaf), hmem, rfl⟩
      | succ i =>
        refine .inr ⟨i, inner, other, ?_, hother, hmem⟩
        rw [Nat.add_assoc, Nat.add_comm 1 i]

/-- Paths that ascend in the first item and in the others ascend in the row. -/
theorem numbered_ascend {position : Nat} {item : β} {rest : List β}
    (h : (leaves item).Pairwise fun a b => a.1 < b.1)
    (hr : (numbered leaves (position + 1) rest).Pairwise fun a b => a.1 < b.1) :
    (numbered leaves position (item :: rest)).Pairwise fun a b => a.1 < b.1 := by
  rw [numbered]
  refine List.pairwise_append.2 ⟨?_, hr, ?_⟩
  · exact List.pairwise_map.2 (h.imp fun hless => List.cons_lt_cons_self.2 hless)
  · rintro ⟨path, leaf⟩ hleft ⟨other, more⟩ hright
    obtain ⟨⟨inner, found⟩, -, heq⟩ := List.mem_map.1 hleft
    cases heq
    obtain ⟨i, inner, item, rfl, -⟩ := mem_numbered.1 hright
    exact List.Lex.rel (by omega)

end

namespace Nested

variable {α : Type}

/-! ## Rounds of a walk -/

/-- A walk between two of its rounds. -/
structure Walk (α : Type) where
  /-- The lists that are still to be walked, the innermost first. -/
  stack : List (List (Nested α))
  /-- The leaves found so far, in reverse. -/
  found : List α

namespace Walk

/-- The walk after its next round; nothing, when no list is left. -/
def next? : Walk α → Option (Walk α)
  | ⟨[], _⟩ => none
  | ⟨[] :: outer, found⟩ => some ⟨outer, found⟩
  | ⟨(.leaf value :: rest) :: outer, found⟩ => some ⟨rest :: outer, value :: found⟩
  | ⟨(.list items :: rest) :: outer, found⟩ => some ⟨items :: rest :: outer, found⟩

/-- The walk after so many rounds, if it is not over before. -/
def after? : Nat → Walk α → Option (Walk α)
  | 0, w => some w
  | rounds + 1, w => w.next?.bind (after? rounds)

/-- How many rounds are left. -/
def weight (w : Walk α) : Nat := stackWeight w.stack

/-- What the walk ends with. -/
def result (w : Walk α) : List α := walk w.stack w.found

/-- A round takes one from the weight, and keeps what the walk ends with. -/
theorem next?_keeps {w later : Walk α} (h : w.next? = some later) :
    w.weight = later.weight + 1 ∧ w.result = later.result := by
  match w with
  | ⟨[], found⟩ => cases h
  | ⟨[] :: outer, found⟩ =>
    cases h
    refine ⟨?_, by simp only [result, walk]⟩
    simp only [weight, stackWeight, listWeight]
    omega
  | ⟨(.leaf value :: rest) :: outer, found⟩ =>
    cases h
    refine ⟨?_, by simp only [result, walk]⟩
    simp only [weight, stackWeight, listWeight, Nested.weight]
    omega
  | ⟨(.list items :: rest) :: outer, found⟩ =>
    cases h
    refine ⟨?_, by simp only [result, walk]⟩
    simp only [weight, stackWeight, listWeight, Nested.weight]
    omega

/-- There is another round as long as there are lists to be walked. -/
theorem exists_next? {w : Walk α} (h : w.stack ≠ []) : ∃ later, w.next? = some later := by
  match w with
  | ⟨[], found⟩ => exact absurd rfl h
  | ⟨[] :: outer, found⟩ => exact ⟨_, rfl⟩
  | ⟨(.leaf value :: rest) :: outer, found⟩ => exact ⟨_, rfl⟩
  | ⟨(.list items :: rest) :: outer, found⟩ => exact ⟨_, rfl⟩

theorem listWeight_pos (items : List (Nested α)) : 0 < listWeight items := by
  induction items with
  | nil => exact Nat.one_pos
  | cons n rest ih =>
    rw [listWeight]
    omega

theorem weight_eq_zero_iff {w : Walk α} : w.weight = 0 ↔ w.stack = [] := by
  obtain ⟨stack, found⟩ := w
  cases stack with
  | nil => exact ⟨fun _ => rfl, fun _ => rfl⟩
  | cons items outer =>
    have hpos := listWeight_pos items
    simp only [weight, stackWeight]
    constructor
    · omega
    · intro h
      cases h

/-- A walk is over after as many rounds as it has weight. -/
theorem after?_weight (w : Walk α) : w.after? w.weight = some ⟨[], w.result.reverse⟩ := by
  generalize hweight : w.weight = rounds
  induction rounds generalizing w with
  | zero =>
    obtain ⟨stack, found⟩ := w
    obtain rfl : stack = [] := weight_eq_zero_iff.1 hweight
    simp only [after?, result, walk, List.reverse_reverse]
  | succ rounds ih =>
    have hmore : w.stack ≠ [] := fun hnil => by
      have hzero := weight_eq_zero_iff.2 hnil
      omega
    obtain ⟨later, hnext⟩ := exists_next? hmore
    obtain ⟨hround, hresult⟩ := next?_keeps hnext
    rw [after?, hnext, Option.bind_some, hresult]
    exact ih later (by omega)

end Walk

/-! ## Structure -/

theorem listLeaves_eq (items : List (Nested α)) : listLeaves items = items.flatMap flatten := by
  induction items with
  | nil => rfl
  | cons n rest ih => rw [listLeaves, List.flatMap_cons, n.flatten_eq, ih]

theorem flatten_leaf (value : α) : (leaf value).flatten = [value] := by
  rw [flatten_eq, leaves]

theorem flatten_list (items : List (Nested α)) : (list items).flatten = items.flatMap flatten := by
  rw [flatten_eq, leaves, listLeaves_eq]

/-! ## Grouping -/

/-- Nested lists that differ only in how adjacent items are grouped into lists, at any depth. -/
inductive Regrouped : Nested α → Nested α → Prop
  | group (front middle back : List (Nested α)) :
    Regrouped (.list (front ++ middle ++ back)) (.list (front ++ .list middle :: back))
  | inside (front back : List (Nested α)) {n m : Nested α} (h : Regrouped n m) :
    Regrouped (.list (front ++ n :: back)) (.list (front ++ m :: back))
  | refl (n : Nested α) : Regrouped n n
  | symm {n m : Nested α} (h : Regrouped n m) : Regrouped m n
  | trans {n m k : Nested α} (h : Regrouped n m) (hm : Regrouped m k) : Regrouped n k

theorem Regrouped.flatten_eq {n m : Nested α} (h : Regrouped n m) : n.flatten = m.flatten := by
  induction h with
  | group front middle back =>
    simp only [flatten_list, List.flatMap_append, List.flatMap_cons, List.append_assoc]
  | inside front back _ ih => simp only [flatten_list, List.flatMap_append, List.flatMap_cons, ih]
  | refl n => rfl
  | symm _ ih => exact ih.symm
  | trans _ _ ih ihm => exact ih.trans ihm

mutual

/-- In a list, an item may be replaced by its leaves. -/
theorem regrouped_item (n : Nested α) (front back : List (Nested α)) :
    Regrouped (.list (front ++ n :: back)) (.list (front ++ n.leaves.map .leaf ++ back)) := by
  match n with
  | .leaf value =>
    rw [leaves, List.map_singleton, List.append_assoc]
    exact .refl _
  | .list items =>
    rw [leaves]
    exact .trans (.symm (.group front items back)) (regrouped_items items front back)
termination_by structural n

theorem regrouped_items (items front back : List (Nested α)) :
    Regrouped (.list (front ++ items ++ back))
      (.list (front ++ (listLeaves items).map .leaf ++ back)) := by
  match items with
  | [] => exact .refl _
  | n :: rest =>
    have hitem := regrouped_item n front (rest ++ back)
    have hrest := regrouped_items rest (front ++ n.leaves.map .leaf) back
    simp only [listLeaves, List.map_append, List.append_assoc, List.cons_append] at hitem hrest ⊢
    exact hitem.trans hrest
termination_by structural items

end

/-- Lists with the same leaves differ in grouping alone. -/
theorem regrouped_of_flatten_eq {items others : List (Nested α)}
    (h : (list items).flatten = (list others).flatten) :
    Regrouped (.list items) (.list others) := by
  have hfirst := regrouped_items items [] []
  have hsecond := regrouped_items others [] []
  simp only [List.nil_append, List.append_nil, listLeaves_eq, ← flatten_list] at hfirst hsecond
  rw [h] at hfirst
  exact hfirst.trans hsecond.symm

/-! ## Paths -/

/-- What a path of positions leads to. -/
def follow (n : Nested α) : List Nat → Option (Nested α)
  | [] => some n
  | position :: path =>
    match n with
    | .leaf _ => none
    | .list items => items[position]?.bind fun item => item.follow path

mutual

/-- The leaves with the paths that lead to them, depth first and from the left. -/
def trails (n : Nested α) : List (List Nat × α) :=
  match n with
  | .leaf value => [([], value)]
  | .list items => itemTrails 0 items
termination_by structural n

/-- The leaves of the items from a position on. -/
def itemTrails (position : Nat) (items : List (Nested α)) : List (List Nat × α) :=
  match items with
  | [] => []
  | n :: rest =>
    (n.trails.map fun trail => (position :: trail.1, trail.2)) ++ itemTrails (position + 1) rest
termination_by structural items

end

theorem itemTrails_eq (position : Nat) (items : List (Nested α)) :
    itemTrails position items = numbered trails position items := by
  induction items generalizing position with
  | nil => rfl
  | cons n rest ih => rw [itemTrails, numbered, ih]

/-- The trails are the paths that lead to leaves. -/
theorem mem_trails {n : Nested α} {path : List Nat} {value : α} :
    (path, value) ∈ n.trails ↔ n.follow path = some (.leaf value) := by
  induction path generalizing n with
  | nil =>
    cases n with
    | leaf held => simp only [trails, follow, List.mem_singleton, Prod.mk.injEq, true_and,
        Option.some.injEq, leaf.injEq, eq_comm]
    | list items =>
      rw [trails, itemTrails_eq, mem_numbered, follow]
      constructor
      · rintro ⟨_, _, _, hpath, -⟩
        cases hpath
      · intro h
        cases h
  | cons position path ih =>
    cases n with
    | leaf held => simp [trails, follow]
    | list items =>
      rw [trails, itemTrails_eq, mem_numbered, follow, Option.bind_eq_some_iff]
      constructor
      · rintro ⟨i, inner, item, hpath, hitem, hmem⟩
        obtain ⟨rfl, rfl⟩ := List.cons.inj hpath
        rw [Nat.zero_add]
        exact ⟨item, hitem, ih.1 hmem⟩
      · rintro ⟨item, hitem, hmem⟩
        exact ⟨position, path, item, by rw [Nat.zero_add], hitem, ih.2 hmem⟩

mutual

/-- The trails ascend in the order of words in a dictionary. -/
theorem trails_ascend (n : Nested α) : n.trails.Pairwise fun a b => a.1 < b.1 := by
  match n with
  | .leaf value => exact List.pairwise_singleton _ _
  | .list items => exact itemTrails_ascend 0 items
termination_by structural n

theorem itemTrails_ascend (position : Nat) (items : List (Nested α)) :
    (itemTrails position items).Pairwise fun a b => a.1 < b.1 := by
  match items with
  | [] => exact .nil
  | n :: rest =>
    have hrest := itemTrails_ascend (position + 1) rest
    rw [itemTrails_eq] at hrest ⊢
    exact numbered_ascend (trails_ascend n) hrest
termination_by structural items

end

mutual

/-- At the ends of the trails stand the leaves. -/
theorem map_snd_trails (n : Nested α) : n.trails.map Prod.snd = n.leaves := by
  match n with
  | .leaf value => rfl
  | .list items => exact map_snd_itemTrails 0 items
termination_by structural n

theorem map_snd_itemTrails (position : Nat) (items : List (Nested α)) :
    (itemTrails position items).map Prod.snd = listLeaves items := by
  match items with
  | [] => rfl
  | n :: rest =>
    rw [itemTrails, listLeaves, List.map_append, List.map_map,
      map_snd_itemTrails (position + 1) rest, ← map_snd_trails n]
    rfl
termination_by structural items

end

/-- Flattening is what the structure tells, whatever the leaves are. The walk is over after exactly as
many rounds as the weight of its stack, and then it has found the leaves: a leaf alone for a leaf, and
what the items give, one after the other, for a list. Lists that differ in grouping alone, and only
these, give the same. Every leaf comes out once, in the order of the paths that lead to them. -/
theorem flatten_structural :
    (∀ n : Nested α, Walk.after? (n.weight + 1) ⟨[[n]], []⟩ = some ⟨[], n.flatten.reverse⟩ ∧
      n.flatten = n.leaves) ∧
    (∀ value : α, (leaf value).flatten = [value]) ∧
    (∀ items : List (Nested α), (list items).flatten = items.flatMap flatten) ∧
    (∀ items others : List (Nested α),
      Regrouped (list items) (list others) ↔ (list items).flatten = (list others).flatten) ∧
    (∀ n : Nested α, ∃ found : List (List Nat × α), found.map Prod.snd = n.flatten ∧
      (∀ path value, (path, value) ∈ found ↔ n.follow path = some (.leaf value)) ∧
      found.Pairwise fun a b => a.1 < b.1) := by
  refine ⟨fun n => ⟨?_, n.flatten_eq⟩, flatten_leaf, flatten_list,
    fun _ _ => ⟨Regrouped.flatten_eq, regrouped_of_flatten_eq⟩, fun n => ?_⟩
  · have hover := Walk.after?_weight (⟨[[n]], []⟩ : Walk α)
    have hweight : Walk.weight (⟨[[n]], []⟩ : Walk α) = n.weight + 1 := rfl
    rw [hweight] at hover
    exact hover
  · refine ⟨n.trails, ?_, fun _ _ => mem_trails, n.trails_ascend⟩
    rw [map_snd_trails, flatten_eq]

end Nested

end LandPattern
