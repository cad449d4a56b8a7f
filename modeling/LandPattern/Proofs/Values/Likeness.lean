import LandPattern.Proofs.Run.Budget
import LandPattern.Proofs.Values.Restamping

/-!
# Results that are alike

Two values are alike if they differ in their stamps alone. Arithmetic, the assignments and the methods
that write to a list compute from alike values alike results, whenever they are done. Methods that look
for an item compare stamps: of them the values must differ by an injective change of their stamps.
-/

namespace LandPattern

open Metered (refuse charge checkLength checkRepetition checkDepth checkSequence freshStamp)

/-! ## Ends that are alike -/

/-- Both end with a fault, or both with related results, unless one of them ran out of its budget. -/
def Act.EndsLike {α β : Type} (same : α → β → Prop) : Except Fault α → Except Fault β → Prop
  | .ok value, .ok found => same value found
  | .ok _, .error fault => fault.cause.kind = .timeout
  | .error fault, .ok _ => fault.cause.kind = .timeout
  | .error _, .error _ => True

/-- From all meters the two acts have ends that are alike. -/
def Metered.Coincide {α β : Type} (limits : Limits) (same : α → β → Prop) (act : Metered α)
    (other : Metered β) : Prop :=
  ∀ meter another, Act.EndsLike same (act.outcome limits meter).1 (other.outcome limits another).1

namespace Metered.Coincide

variable {α β γ δ : Type} {limits : Limits} {same : α → β → Prop} {act : Metered α}
  {other : Metered β}

theorem pure {value : α} {found : β} (h : same value found) :
    Coincide limits same (pure value) (pure found) := fun _ _ => h

theorem refuse (why another : Refusal) :
    Coincide limits same (refuse why) (refuse another) := fun _ _ => trivial

theorem bind {more : γ → δ → Prop} {next : α → Metered γ} {later : β → Metered δ}
    (h : Coincide limits same act other)
    (hn : ∀ value found, same value found → Coincide limits more (next value) (later found)) :
    Coincide limits more (act >>= next) (other >>= later) := by
  intro meter another
  have hfirst := h meter another
  rw [Act.outcome_bind, Act.outcome_bind]
  generalize act.outcome limits meter = ended at hfirst ⊢
  generalize other.outcome limits another = met at hfirst ⊢
  rcases ended with ⟨value | value, reached⟩ <;> rcases met with ⟨found | found, last⟩
  · trivial
  · dsimp only
    cases ((later found).outcome limits last).1 with
    | ok _ => exact hfirst
    | error _ => trivial
  · dsimp only
    cases ((next value).outcome limits reached).1 with
    | ok _ => exact hfirst
    | error _ => trivial
  · exact hn value found hfirst reached last

theorem ofExcept {result : Except Refusal α} {found : Except Refusal β} (change : α → γ)
    (changed : β → γ) (h : result.map change = found.map changed)
    (hs : ∀ value another, change value = changed another → same value another) :
    Coincide limits same (Act.ofExcept result) (Act.ofExcept found) := by
  cases result with
  | error why =>
    cases found with
    | error _ => exact .refuse _ _
    | ok value => cases h
  | ok value =>
    cases found with
    | error _ => cases h
    | ok another => exact .pure (hs value another (Except.ok.inj h))

theorem charge (cost : Nat) : Coincide limits (fun _ _ => True) (charge cost) (charge cost) := by
  intro meter another
  rw [Metered.outcome_charge, Metered.outcome_charge]
  split <;> split <;> trivial

theorem freshStamp : Coincide limits (fun _ _ => True) freshStamp freshStamp := fun _ _ => trivial

theorem countRounds (rounds : Rounds) :
    Coincide limits (fun _ _ => True) (countRounds rounds) (countRounds rounds) :=
  fun _ _ => trivial

theorem check (bound : Limits → Nat) (size : Nat) (why : Nat → Refusal) :
    Coincide limits (fun _ _ => True)
      (do
        let limit := bound (← read)
        if limit < size then Metered.refuse (why limit) : Metered Unit)
      (do
        let limit := bound (← read)
        if limit < size then Metered.refuse (why limit)) := by
  intro meter another
  simp only [Act.outcome_bind, Act.outcome_read]
  split <;> trivial

theorem checkLength (length : Nat) :
    Coincide limits (fun _ _ => True) (checkLength length) (checkLength length) :=
  check Limits.collection length fun limit => .tooLong length limit

theorem checkRepetition (length times : Nat) :
    Coincide limits (fun _ _ => True) (checkRepetition length times)
      (checkRepetition length times) :=
  check Limits.collection (length * times) fun limit =>
    .tooLong (saturatingProduct length times) limit

theorem checkDepth (depth : Nat) :
    Coincide limits (fun _ _ => True) (checkDepth depth) (checkDepth depth) :=
  check Limits.valueDepth depth fun limit => .tooDeep limit

end Metered.Coincide

/-! ## Values that are alike -/

/-- The values differ in their stamps alone. -/
def Value.Like (v w : Value) : Prop := v.unstamped = w.unstamped

/-- The sequences differ in their stamps alone. -/
structure Sequence.Like (s t : Sequence Value) : Prop where
  items : s.items.map Value.unstamped = t.items.map Value.unstamped
  depth : s.depth = t.depth

namespace Sequence.Like

variable {s t u w : Sequence Value}

theorem length (h : s.Like t) : s.length = t.length := by
  have hlength := congrArg List.length h.items
  rwa [List.length_map, List.length_map] at hlength

theorem append (h : s.Like t) (hu : u.Like w) (stamp another : Nat) :
    (s.append u stamp).Like (t.append w another) := by
  refine ⟨?_, ?_⟩
  · simp only [Sequence.append, List.map_append, h.items, hu.items]
  · simp only [Sequence.append, h.depth, hu.depth]

theorem push {v v' : Value} (h : s.Like t) (hv : v.Like v') (stamp another : Nat) :
    (s.push v stamp).Like (t.push v' another) := by
  have hdepth : v.depth = v'.depth := by
    rw [← Value.depth_restamp (fun _ => 0) v, ← Value.depth_restamp (fun _ => 0) v']
    exact congrArg Value.depth hv
  refine ⟨?_, ?_⟩
  · rw [Sequence.push, Sequence.push, List.map_append, List.map_append, h.items]
    exact congrArg (_ ++ [·]) hv
  · simp only [Sequence.push, h.depth, hdepth]

theorem ofItems {items others : List Value}
    (h : items.map Value.unstamped = others.map Value.unstamped) (stamp another : Nat) :
    (Sequence.ofItems items stamp).Like (Sequence.ofItems others another) := by
  refine ⟨h, ?_⟩
  change depthOf items = depthOf others
  rw [← depthOf_restamp (fun _ => 0) items, ← depthOf_restamp (fun _ => 0) others]
  exact congrArg depthOf h

end Sequence.Like

namespace Value

variable {a b a' b' v w : Value} {s t : Sequence Value}

theorem Like.refl (v : Value) : v.Like v := rfl

theorem like_restamp (f g : Nat → Nat) (v : Value) : (v.restamp f).Like (v.restamp g) := by
  rw [Like, unstamped_restamp, unstamped_restamp]

theorem like_list : (list s).Like (list t) ↔ s.Like t := by
  simp only [Like, unstamped, restamp_list, list.injEq, Sequence.restamp, Sequence.mk.injEq,
    and_true]
  exact ⟨fun h => ⟨h.1, h.2⟩, fun h => ⟨h.items, h.depth⟩⟩

theorem like_tuple : (tuple s).Like (tuple t) ↔ s.Like t := by
  simp only [Like, unstamped, restamp_tuple, tuple.injEq, Sequence.restamp, Sequence.mk.injEq,
    and_true]
  exact ⟨fun h => ⟨h.1, h.2⟩, fun h => ⟨h.items, h.depth⟩⟩

/-- What is alike is the same value without items, or two lists, or two tuples. -/
theorem Like.cases (h : a.Like b) : (a = b ∧ a.sequence? = none) ∨
    (∃ s t, a = list s ∧ b = list t ∧ s.Like t) ∨ ∃ s t, a = tuple s ∧ b = tuple t ∧ s.Like t := by
  cases a with
  | list s =>
    cases b with
    | list t => exact .inr (.inl ⟨s, t, rfl, rfl, like_list.1 h⟩)
    | _ => cases h
  | tuple s =>
    cases b with
    | tuple t => exact .inr (.inr ⟨s, t, rfl, rfl, like_tuple.1 h⟩)
    | _ => cases h
  | _ =>
    refine .inl ⟨?_, rfl⟩
    cases b <;> first | exact h | cases h

end Value

namespace Metered

open Value (Like)

variable {limits : Limits} {a b a' b' v w : Value} {s t u z : Sequence Value}

/-! ## Operators -/

theorem coincide_numbers {operation : Value → Value → Except Refusal Value}
    (ho : ∀ a b : Value, operation (a.restamp fun _ => 0) (b.restamp fun _ => 0) =
      (operation a b).map (Value.restamp fun _ => 0)) (ha : a.Like a') (hb : b.Like b') :
    Coincide limits Like (Act.ofExcept (operation a b)) (Act.ofExcept (operation a' b')) := by
  refine .ofExcept Value.unstamped Value.unstamped ?_ fun _ _ => id
  have hsame := congrArg₂ operation ha hb
  rwa [Value.unstamped, Value.unstamped, ho, Value.unstamped, Value.unstamped, ho] at hsame

theorem coincide_checkSequence (h : s.Like t) :
    Coincide limits (fun _ _ => True) (checkSequence s) (checkSequence t) := by
  unfold Metered.checkSequence
  rw [h.length, h.depth]
  exact .bind (.checkLength _) fun _ _ _ => .checkDepth _

theorem coincide_concat (h : s.Like t) (hu : u.Like z) :
    Coincide limits Sequence.Like (Value.concat s u) (Value.concat t z) := by
  unfold Value.concat
  rw [h.length, hu.length]
  refine .bind (.checkLength _) fun _ _ _ => .bind (.charge _) fun _ _ _ =>
    .bind .freshStamp fun stamp another _ => ?_
  have happend := h.append hu stamp another
  exact .bind (coincide_checkSequence happend) fun _ _ _ => .pure happend

theorem coincide_add (ha : a.Like a') (hb : b.Like b') :
    Coincide limits Like (a.add b) (a'.add b') := by
  have hnumbers : Coincide limits Like
      (Act.ofExcept (Value.arithmetic .add (· + ·) (· + ·) a b))
      (Act.ofExcept (Value.arithmetic .add (· + ·) (· + ·) a' b')) :=
    coincide_numbers (fun a b => Value.arithmetic_restamp _ a b _ _ _) ha hb
  rcases ha.cases with ⟨rfl, hatom⟩ | ⟨s, t, rfl, rfl, hs⟩ | ⟨s, t, rfl, rfl, hs⟩
  · rcases hb.cases with ⟨rfl, hother⟩ | ⟨u, z, rfl, rfl, hu⟩ | ⟨u, z, rfl, rfl, hu⟩
    · cases a with
      | text s =>
        cases b with
        | text t =>
          exact .bind (.checkLength _) fun _ _ _ => .bind (.charge _) fun _ _ _ => .pure rfl
        | _ => exact hnumbers
      | _ => cases b <;> first | exact hnumbers | cases hatom
    · cases a <;> first | exact hnumbers | cases hatom
    · cases a <;> first | exact hnumbers | cases hatom
  · rcases hb.cases with ⟨rfl, hother⟩ | ⟨u, z, rfl, rfl, hu⟩ | ⟨u, z, rfl, rfl, hu⟩
    · cases b <;> first | exact hnumbers | cases hother
    · exact .bind (coincide_concat hs hu) fun _ _ hjoined => .pure (Value.like_list.2 hjoined)
    · exact hnumbers
  · rcases hb.cases with ⟨rfl, hother⟩ | ⟨u, z, rfl, rfl, hu⟩ | ⟨u, z, rfl, rfl, hu⟩
    · cases b <;> first | exact hnumbers | cases hother
    · exact hnumbers
    · exact .bind (coincide_concat hs hu) fun _ _ hjoined => .pure (Value.like_tuple.2 hjoined)

theorem coincide_repeatList (h : s.Like t) (times : Nat) :
    Coincide limits Like (Value.repeatList s times) (Value.repeatList t times) := by
  unfold Value.repeatList
  rw [h.length]
  refine .bind (.checkRepetition _ _) fun _ _ _ =>
    .bind (.bind (.charge _) fun _ _ _ => .countRounds _) fun _ _ _ =>
      .bind (.bind .freshStamp fun stamp another _ => .pure ?_) fun _ _ hs =>
        .pure (Value.like_list.2 hs)
  refine Sequence.Like.ofItems ?_ stamp another
  rw [Value.map_repeated, Value.map_repeated, h.items]

theorem coincide_multiply (ha : a.Like a') (hb : b.Like b') :
    Coincide limits Like (a.multiply b) (a'.multiply b') := by
  have hnumbers : Coincide limits Like
      (Act.ofExcept (Value.arithmetic .mul (· * ·) (· * ·) a b))
      (Act.ofExcept (Value.arithmetic .mul (· * ·) (· * ·) a' b')) :=
    coincide_numbers (fun a b => Value.arithmetic_restamp _ a b _ _ _) ha hb
  have htext (s : String) (times : Nat) :
      Coincide limits Like (Value.repeatText s times) (Value.repeatText s times) :=
    .bind (.checkRepetition _ _) fun _ _ _ => .bind (.charge _) fun _ _ _ => .pure rfl
  rcases ha.cases with ⟨rfl, hatom⟩ | ⟨s, t, rfl, rfl, hs⟩ | ⟨s, t, rfl, rfl, hs⟩
  · rcases hb.cases with ⟨rfl, hother⟩ | ⟨u, z, rfl, rfl, hu⟩ | ⟨u, z, rfl, rfl, hu⟩
    · cases a with
      | text s =>
        cases b with
        | int n => exact htext s n.toNat
        | _ => exact hnumbers
      | int n =>
        cases b with
        | text s => exact htext s n.toNat
        | list s => cases hother
        | _ => exact hnumbers
      | _ => cases b <;> first | exact hnumbers | cases hatom
    · cases a with
      | int n => exact coincide_repeatList hu n.toNat
      | _ => exact hnumbers
    · cases a <;> exact hnumbers
  · rcases hb.cases with ⟨rfl, hother⟩ | ⟨u, z, rfl, rfl, hu⟩ | ⟨u, z, rfl, rfl, hu⟩
    · cases b with
      | int n => exact coincide_repeatList hs n.toNat
      | _ => exact hnumbers
    · exact hnumbers
    · exact hnumbers
  · rcases hb.cases with ⟨rfl, hother⟩ | ⟨u, z, rfl, rfl, hu⟩ | ⟨u, z, rfl, rfl, hu⟩
    · cases b <;> exact hnumbers
    · exact hnumbers
    · exact hnumbers

/-- An assignment of alike values to alike values gives alike values. -/
theorem coincide_assigned (op : Script.AssignOp) (ha : a.Like a') (hb : b.Like b') :
    Coincide limits Like (a.assigned op b) (a'.assigned op b') := by
  cases op with
  | set => exact .pure hb
  | add => exact coincide_add ha hb
  | mul => exact coincide_multiply ha hb
  | sub => exact coincide_numbers (fun a b => Value.arithmetic_restamp _ a b _ _ _) ha hb
  | div => exact coincide_numbers (fun a b => Value.divide_restamp _ a b) ha hb

/-! ## Equality -/

section Equality

variable {f g : Nat → Nat}

/-- Two sequences share their items under all injective changes of stamps or under none. -/
theorem coincide_shared (hf : f.Injective) (hg : g.Injective) (s t : Sequence Value)
    (h : Coincide limits Eq
      (Value.allEqual (s.items.map (Value.restamp f)) (t.items.map (Value.restamp f)))
      (Value.allEqual (s.items.map (Value.restamp g)) (t.items.map (Value.restamp g)))) :
    Coincide limits Eq
      (if (s.restamp f).stamp = (t.restamp f).stamp then return true
        else if (s.restamp f).items.length ≠ (t.restamp f).items.length then return false
        else Value.allEqual (s.restamp f).items (t.restamp f).items)
      (if (s.restamp g).stamp = (t.restamp g).stamp then return true
        else if (s.restamp g).items.length ≠ (t.restamp g).items.length then return false
        else Value.allEqual (s.restamp g).items (t.restamp g).items) := by
  have hstamp {k : Nat → Nat} (hk : k.Injective) :
      ((s.restamp k).stamp = (t.restamp k).stamp) = (s.stamp = t.stamp) := propext hk.eq_iff
  have hlength (k : Nat → Nat) (u : Sequence Value) :
      (u.restamp k).items.length = u.items.length := Sequence.length_restamp k u
  simp only [hstamp hf, hstamp hg, hlength]
  split
  · exact .pure rfl
  · split
    · exact .pure rfl
    · exact h

mutual

theorem coincide_equals (hf : f.Injective) (hg : g.Injective) (a b : Value) :
    Coincide limits Eq ((a.restamp f).equals (b.restamp f))
      ((a.restamp g).equals (b.restamp g)) := by
  match a with
  | .list s =>
    cases b with
    | list t =>
      simp only [Value.restamp_list]
      exact .bind (.charge 1) fun _ _ _ => coincide_shared hf hg s t
        (coincide_allEqual hf hg s.items t.items)
    | _ => exact .bind (.charge 1) fun _ _ _ => .pure rfl
  | .tuple s =>
    cases b with
    | tuple t =>
      simp only [Value.restamp_tuple]
      exact .bind (.charge 1) fun _ _ _ => coincide_shared hf hg s t
        (coincide_allEqual hf hg s.items t.items)
    | _ => exact .bind (.charge 1) fun _ _ _ => .pure rfl
  | .nothing | .bool _ | .int _ | .float _ | .text _ | .element _ | .function _ | .builtin _ =>
    cases b <;> exact .bind (.charge 1) fun _ _ _ => .pure rfl
termination_by structural a

theorem coincide_allEqual (hf : f.Injective) (hg : g.Injective) (items others : List Value) :
    Coincide limits Eq
      (Value.allEqual (items.map (Value.restamp f)) (others.map (Value.restamp f)))
      (Value.allEqual (items.map (Value.restamp g)) (others.map (Value.restamp g))) := by
  match items, others with
  | a :: rest, b :: more =>
    refine .bind (coincide_equals hf hg a b) fun same found heq => ?_
    subst heq
    cases same with
    | true => exact coincide_allEqual hf hg rest more
    | false => exact .pure rfl
  | [], _ => exact .pure rfl
  | _ :: _, [] => exact .pure rfl
termination_by structural items

end

/-- A value is found at the same position, if the changes leave the items as they are. -/
theorem coincide_findIn (hf : f.Injective) (hg : g.Injective) (v : Value) {items : List Value}
    (hfi : items.map (Value.restamp f) = items) (hgi : items.map (Value.restamp g) = items) :
    Coincide limits Eq ((v.restamp f).findIn items) ((v.restamp g).findIn items) := by
  have hfrom (row : List Value) (position : Nat) :
      Coincide limits Eq (Value.findIn.go (v.restamp f) (row.map (Value.restamp f)) position)
        (Value.findIn.go (v.restamp g) (row.map (Value.restamp g)) position) := by
    induction row generalizing position with
    | nil => exact .pure rfl
    | cons item rest ih =>
      refine .bind (coincide_equals hf hg item v) fun same found heq => ?_
      subst heq
      cases same with
      | true => exact .pure rfl
      | false => exact ih (position + 1)
  have hall := hfrom items 0
  rwa [hfi, hgi] at hall

end Equality

end Metered

/-! ## Methods -/

/-- The same value, or a list of the same items under another stamp. -/
def Value.Restocked (v w : Value) : Prop :=
  w = v ∨ ∃ s stamp, v = .list s ∧ w = .list { s with stamp := stamp }

namespace Value.Restocked

variable {v w : Value} {s : Sequence Value}

theorem like (h : v.Restocked w) : v.Like w := by
  rcases h with rfl | ⟨s, stamp, rfl, rfl⟩
  · exact rfl
  · exact like_list.2 ⟨rfl, rfl⟩

theorem of_list (h : (Value.list s).Restocked w) :
    ∃ t, w = .list t ∧ t.items = s.items ∧ t.depth = s.depth := by
  rcases h with rfl | ⟨t, stamp, heq, rfl⟩
  · exact ⟨s, rfl, rfl, rfl⟩
  · cases heq
    exact ⟨_, rfl, rfl, rfl⟩

theorem of_not_list (h : v.Restocked w) (hv : ∀ s, v ≠ .list s) : w = v := by
  rcases h with rfl | ⟨s, stamp, rfl, rfl⟩
  · rfl
  · exact absurd rfl (hv s)

end Value.Restocked

/-- Both the receiver afterwards and the result are alike. -/
def Method.Like (found other : Value × Value) : Prop :=
  found.1.Like other.1 ∧ found.2.Like other.2

namespace Metered

variable {limits : Limits} {f g : Nat → Nat} {s t u : Sequence Value}

theorem coincide_append (h : t.Like u) (item : Value) :
    Coincide limits Sequence.Like (Method.append t (item.restamp f))
      (Method.append u (item.restamp g)) := by
  unfold Method.append
  rw [h.length]
  refine .bind (.checkLength _) fun _ _ _ => .bind .freshStamp fun stamp another _ => ?_
  have hpush := h.push (Value.like_restamp f g item) stamp another
  exact .bind (coincide_checkSequence hpush) fun _ _ _ => .pure hpush

theorem coincide_extend (h : t.Like u) (items : Value) :
    Coincide limits Sequence.Like (Method.extend t (items.restamp f))
      (Method.extend u (items.restamp g)) := by
  unfold Method.extend
  rw [Value.sequence?_restamp, Value.sequence?_restamp]
  cases items.sequence? with
  | none => exact .refuse _ _
  | some other =>
    dsimp only [Option.map_some]
    rw [h.length, Sequence.length_restamp, Sequence.length_restamp]
    have hother : (other.restamp f).Like (other.restamp g) := by
      refine ⟨?_, rfl⟩
      simp only [Sequence.restamp, List.map_map, Function.comp_def, Value.unstamped_restamp]
    exact .bind (.checkLength _) fun _ _ _ => .bind (.charge _) fun _ _ _ =>
      .bind .freshStamp fun stamp another _ => .pure (h.append hother stamp another)

theorem coincide_remove (hf : f.Injective) (hg : g.Injective) (v : Value)
    (hitems : t.items = u.items) (hdepth : t.depth = u.depth)
    (hfi : u.items.map (Value.restamp f) = u.items)
    (hgi : u.items.map (Value.restamp g) = u.items) :
    Coincide limits Sequence.Like (Method.remove t (v.restamp f))
      (Method.remove u (v.restamp g)) := by
  unfold Method.remove
  rw [hitems]
  refine .bind (coincide_findIn hf hg v hfi hgi) fun found _ heq => ?_
  subst heq
  cases found with
  | none => exact .refuse _ _
  | some position =>
    refine .bind .freshStamp fun stamp another _ => .pure ⟨?_, hdepth⟩
    simp only [Sequence.erase, hitems]

theorem coincide_pop (hitems : t.items = u.items) (hdepth : t.depth = u.depth) :
    Coincide limits (fun found other => found.1.Like other.1 ∧ found.2 = other.2) (Method.pop t)
      (Method.pop u) := by
  refine .bind .freshStamp fun stamp another _ => ?_
  unfold Sequence.pop?
  rw [hitems]
  cases u.items.getLast? with
  | none => exact .refuse _ _
  | some last => exact .pure ⟨⟨rfl, hdepth⟩, rfl⟩

theorem coincide_onlyOfMethod (args : Arguments) (method : String) :
    Coincide limits (fun found other => ∃ v : Value, found = v.restamp f ∧ other = v.restamp g)
      (Act.ofExcept ((args.restamp f).onlyOfMethod method))
      (Act.ofExcept ((args.restamp g).onlyOfMethod method)) := by
  rw [Arguments.onlyOfMethod_restamp, Arguments.onlyOfMethod_restamp]
  cases args.onlyOfMethod method with
  | error why => exact .refuse _ _
  | ok v => exact .pure ⟨v, rfl, rfl⟩

/-- A method of the same list does the same with arguments under other stamps, if these leave the
items as they are. -/
theorem coincide_callOnList (hf : f.Injective) (hg : g.Injective) (hitems : t.items = u.items)
    (hdepth : t.depth = u.depth) (hfi : u.items.map (Value.restamp f) = u.items)
    (hgi : u.items.map (Value.restamp g) = u.items) (method : String) (args : Arguments) :
    Coincide limits Method.Like (Method.callOnList t method (args.restamp f))
      (Method.callOnList u method (args.restamp g)) := by
  have hlike : t.Like u := ⟨by rw [hitems], hdepth⟩
  unfold Method.callOnList
  split
  · refine .bind (coincide_onlyOfMethod args _) fun _ _ hone => ?_
    obtain ⟨v, rfl, rfl⟩ := hone
    exact .bind (coincide_append hlike v) fun _ _ hs => .pure ⟨Value.like_list.2 hs, rfl⟩
  · refine .bind (coincide_onlyOfMethod args _) fun _ _ hone => ?_
    obtain ⟨v, rfl, rfl⟩ := hone
    exact .bind (coincide_extend hlike v) fun _ _ hs => .pure ⟨Value.like_list.2 hs, rfl⟩
  · refine .bind (coincide_onlyOfMethod args _) fun _ _ hone => ?_
    obtain ⟨v, rfl, rfl⟩ := hone
    exact .bind (coincide_remove hf hg v hitems hdepth hfi hgi) fun _ _ hs =>
      .pure ⟨Value.like_list.2 hs, rfl⟩
  · rw [Arguments.noneOfMethod_restamp, Arguments.noneOfMethod_restamp]
    cases args.noneOfMethod "pop" with
    | error why => exact .refuse _ _
    | ok _ =>
      have hnone : Coincide limits (fun _ _ => True) (pure () : Metered Unit) (pure ()) :=
        .pure trivial
      refine .bind hnone fun _ _ _ =>
        .bind (coincide_pop hitems hdepth) fun found other hs => .pure ?_
      exact ⟨Value.like_list.2 hs.1, congrArg Value.unstamped hs.2⟩
  · refine .bind (coincide_onlyOfMethod args _) fun _ _ hone => ?_
    obtain ⟨v, rfl, rfl⟩ := hone
    rw [hitems]
    refine .bind (coincide_findIn hf hg v hfi hgi) fun found _ heq => ?_
    subst heq
    exact .pure ⟨Value.like_list.2 hlike, rfl⟩
  · exact .refuse _ _

/-- Methods do the same with the same receiver, a list under another stamp included. -/
theorem coincide_method {v w z : Value} {bound : Nat}
    (hv : ∀ s, v.sequence? = some s → ∀ item ∈ s.items, item.StampedBelow bound)
    (hw : v.Restocked w) (hz : v.Restocked z) (hf : f.Injective) (hg : g.Injective)
    (hfixed : ∀ stamp, stamp < bound → f stamp = stamp ∧ g stamp = stamp) (method : String)
    (args : Arguments) :
    Coincide limits Method.Like (Method.call w method (args.restamp f))
      (Method.call z method (args.restamp g)) := by
  cases v with
  | list s =>
    obtain ⟨t, rfl, ht, htd⟩ := hw.of_list
    obtain ⟨u, rfl, hu, hud⟩ := hz.of_list
    have hkept {k : Nat → Nat} (hk : ∀ stamp, stamp < bound → k stamp = stamp) :
        u.items.map (Value.restamp k) = u.items := by
      rw [hu]
      refine (List.map_congr_left fun item hitem => ?_).trans (List.map_id _)
      exact Value.restamp_eq_self hk item (hv s rfl item hitem)
    exact coincide_callOnList hf hg (ht.trans hu.symm) (htd.trans hud.symm)
      (hkept fun stamp h => (hfixed stamp h).1) (hkept fun stamp h => (hfixed stamp h).2) method args
  | element e =>
    rw [hw.of_not_list (fun _ heq => by cases heq), hz.of_not_list (fun _ heq => by cases heq)]
    refine .ofExcept (Prod.map Value.unstamped Value.unstamped)
      (Prod.map Value.unstamped Value.unstamped) ?_ fun _ _ heq => Prod.ext_iff.1 heq
    rw [Method.callOnElement_restamp, Method.callOnElement_restamp]
    cases Method.callOnElement e method args with
    | error why => rfl
    | ok found =>
      refine congrArg Except.ok (Prod.ext ?_ ?_)
      · exact Value.like_restamp f g found.1
      · exact Value.like_restamp f g found.2
  | _ =>
    rw [hw.of_not_list (fun _ heq => by cases heq), hz.of_not_list (fun _ heq => by cases heq)]
    exact .refuse _ _

end Metered

end LandPattern
