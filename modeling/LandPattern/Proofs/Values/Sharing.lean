import LandPattern.Proofs.Run.ReadsBack
import Mathlib.Data.List.InsertIdx

/-!
# Equality and sharing

Copies of a list or tuple share their items, which shows in their stamps, and equality takes what is
shared for equal without a look. Where nothing that is shared differs from itself, this is the answer
that a look at every item gives, and depends on contents alone.
-/

namespace LandPattern

open Metered (charge freshStamp refuse)

/-! ## Item by item -/

mutual

/-- Whether two values are equal when all their items are looked at, whether shared or not. -/
def Value.agrees (a b : Value) : Bool :=
  match a, b with
  | .int n, .float x => Float.ofInt n == x
  | .float x, .int n => Float.ofInt n == x
  | .list s, .list t => s.items.length == t.items.length && agreeItems s.items t.items
  | .tuple s, .tuple t => s.items.length == t.items.length && agreeItems s.items t.items
  | a, b => a.same b
termination_by structural a

/-- Whether the items of two lists are equal in pairs, as far as both go. -/
def agreeItems (items others : List Value) : Bool :=
  match items, others with
  | a :: rest, b :: more => a.agrees b && agreeItems rest more
  | _, _ => true
termination_by structural items

end

/-- Nothing inside the value differs from itself, as what is no number does. -/
def Value.Settled (v : Value) : Prop := v.agrees v = true

/-- Every list and tuple inside the value has the items that its stamp stands for. -/
def Value.Honest (held : Nat → List Value) (v : Value) : Prop :=
  ∀ (part : Value) (s : Sequence Value), part.Inside v → part.sequence? = some s →
    s.items = held s.stamp

/-- No list or tuple that two values share differs from itself. -/
def Value.ShareSettled (a b : Value) : Prop :=
  ∀ (part other : Value) (s t : Sequence Value), part.Inside a → other.Inside b →
    part.sequence? = some s → other.sequence? = some t → s.stamp = t.stamp → part.Settled

section

variable {held : Nat → List Value}

theorem Value.Honest.items_eq {v : Value} {s : Sequence Value} (h : v.Honest held)
    (hs : v.sequence? = some s) : s.items = held s.stamp :=
  h v s (.self v) hs

theorem Value.Honest.item {v item : Value} {s : Sequence Value} (h : v.Honest held)
    (hs : v.sequence? = some s) (hi : item ∈ s.items) : item.Honest held :=
  fun part t hpart => h part t (.item hs hi hpart)

theorem agreeItems_self {items : List Value} :
    agreeItems items items = true ↔ ∀ item ∈ items, item.Settled := by
  induction items with
  | nil => simp [agreeItems]
  | cons v rest ih => simp [agreeItems, ih, Value.Settled]

/-- A list or tuple is settled when its items are. -/
theorem Value.settled_iff {v : Value} {s : Sequence Value} (hs : v.sequence? = some s) :
    v.Settled ↔ ∀ item ∈ s.items, item.Settled := by
  rw [← agreeItems_self]
  cases v <;> cases hs <;> simp [Value.Settled, Value.agrees]

/-- Every part of a settled value is settled. -/
theorem Value.Settled.inside {v part : Value} (h : v.Settled) (hp : part.Inside v) :
    part.Settled := by
  induction hp with
  | self => exact h
  | item hs hi _ ih => exact ih ((Value.settled_iff hs).1 h _ hi)

theorem Value.Settled.shares {v : Value} (h : v.Settled) (other : Value) : v.ShareSettled other :=
  fun _ _ _ _ hpart _ _ _ _ => h.inside hpart

/-- What parts of two values share, the values share. -/
theorem Value.ShareSettled.items {a b : Value} {s t : Sequence Value} (h : a.ShareSettled b)
    (ha : a.sequence? = some s) (hb : b.sequence? = some t) :
    ∀ item ∈ s.items, ∀ other ∈ t.items, item.ShareSettled other :=
  fun _ hi _ ho part other p q hpart hother =>
    h part other p q (.item ha hi hpart) (.item hb ho hother)

theorem Value.ShareSettled.item {a b : Value} {s : Sequence Value} (h : a.ShareSettled b)
    (ha : a.sequence? = some s) : ∀ item ∈ s.items, item.ShareSettled b :=
  fun _ hi part other p q hpart hother => h part other p q (.item ha hi hpart) hother

theorem length_contentsOf (items : List Value) : (contentsOf items).length = items.length := by
  induction items with
  | nil => rfl
  | cons v rest ih => rw [contentsOf, List.length_cons, List.length_cons, ih]

theorem contentsOf_eq_map (items : List Value) : contentsOf items = items.map Value.contents := by
  induction items with
  | nil => rfl
  | cons v rest ih => rw [contentsOf, List.map_cons, ih]

mutual

/-- The answer depends on the contents alone. -/
theorem Value.agrees_contents (a b : Value) : a.contents.agrees b.contents = a.agrees b := by
  match a, b with
  | .list s, .list t | .tuple s, .tuple t =>
    simp only [Value.contents, Value.agrees, length_contentsOf, agreeItems_contents s.items t.items]
  | .list _, .nothing | .list _, .bool _ | .list _, .int _ | .list _, .float _ | .list _, .text _
  | .list _, .tuple _ | .list _, .element _ | .list _, .function _ | .list _, .builtin _
  | .tuple _, .nothing | .tuple _, .bool _ | .tuple _, .int _ | .tuple _, .float _
  | .tuple _, .text _ | .tuple _, .list _ | .tuple _, .element _ | .tuple _, .function _
  | .tuple _, .builtin _ => rfl
  | .nothing, b | .bool _, b | .int _, b | .float _, b | .text _, b | .element _, b
  | .function _, b | .builtin _, b => cases b <;> rfl
termination_by structural a

theorem agreeItems_contents (items others : List Value) :
    agreeItems (contentsOf items) (contentsOf others) = agreeItems items others := by
  match items, others with
  | [], _ => simp only [contentsOf, agreeItems]
  | _ :: _, [] => simp only [contentsOf, agreeItems]
  | a :: rest, b :: more =>
    simp only [contentsOf, agreeItems, Value.agrees_contents a b, agreeItems_contents rest more]
termination_by structural items

end

end

namespace Value

theorem sequence?_contents {v : Value} {s : Sequence Value} (hs : v.sequence? = some s) :
    v.contents.sequence? = some ⟨contentsOf s.items, 0, 0⟩ := by
  cases v <;> cases hs <;> simp only [contents, sequence?]

mutual

/-- The literal form shows the contents alone. -/
theorem literal_contents (v : Value) : v.contents.literal = v.literal := by
  match v with
  | .list s => simp only [contents, literal, literals_contentsOf]
  | .tuple s => simp only [contents, literal, literals_contentsOf, length_contentsOf]
  | .nothing | .bool _ | .int _ | .float _ | .text _ | .element _ | .function _ | .builtin _ => rfl
termination_by structural v

theorem literals_contentsOf (separator : String) (items : List Value) :
    literals separator (contentsOf items) = literals separator items := by
  match items with
  | [] => rfl
  | v :: rest => simp only [contentsOf, literals, literal_contents v, literals_contentsOf ", " rest]
termination_by structural items

end

/-- Values with the same contents hold the same where they are compared. -/
theorem agrees_congr {a b a' b' : Value} (ha : a'.contents = a.contents)
    (hb : b'.contents = b.contents) : a'.agrees b' = a.agrees b := by
  rw [← agrees_contents, ha, hb, agrees_contents]

end Value

/-! ## Up to the budget -/

namespace Metered

variable {α β : Type} {act : Metered α}

/-- Unless the budget is exceeded the act ends as promised, whatever the meter stands at. -/
def Comes (act : Metered α) (promise : Except Fault α → Prop) : Prop :=
  ∀ limits meter, (act.outcome limits meter).1 = .error (Fault.of (.budget limits.operations)) ∨
    promise (act.outcome limits meter).1

namespace Comes

theorem pure {value : α} {promise : Except Fault α → Prop} (h : promise (.ok value)) :
    (pure value : Metered α).Comes promise := fun _ _ => .inr h

theorem refuse {why : Refusal} {promise : Except Fault α → Prop}
    (h : promise (.error (Fault.refusal why))) : (refuse why : Metered α).Comes promise :=
  fun _ _ => .inr h

theorem weaken {promise other : Except Fault α → Prop} (h : act.Comes promise)
    (hw : ∀ result, promise result → other result) : act.Comes other :=
  fun limits meter => (h limits meter).imp_right (hw _)

/-- The second act is entered with a result that the first one promises. -/
theorem bind {next : α → Metered β} {good : α → Prop} {promise : Except Fault β → Prop}
    (h : act.Comes fun result => ∃ value, result = .ok value ∧ good value)
    (hn : ∀ value, good value → (next value).Comes promise) : (act >>= next).Comes promise := by
  intro limits meter
  have hact := h limits meter
  rcases hrun : act.outcome limits meter with ⟨result, after⟩
  rw [hrun] at hact
  rcases hact with hover | ⟨value, hvalue, hgood⟩
  · dsimp only at hover
    subst hover
    exact .inl (by rw [Act.outcome_bind_error _ _ hrun])
  · dsimp only at hvalue
    subst hvalue
    rw [Act.outcome_bind_ok _ _ hrun]
    exact hn value hgood limits after

/-- The first act has one result only. -/
theorem bindOk {next : α → Metered β} {value : α} {promise : Except Fault β → Prop}
    (h : act.Comes (· = .ok value)) (hn : (next value).Comes promise) :
    (act >>= next).Comes promise := by
  have hone : act.Comes fun result => ∃ found, result = .ok found ∧ found = value :=
    h.weaken fun _ heq => ⟨value, heq, rfl⟩
  exact .bind hone fun found hfound => hfound ▸ hn

theorem charge (cost : Nat) {next : Unit → Metered α} {promise : Except Fault α → Prop}
    (h : (next ()).Comes promise) : (charge cost >>= next).Comes promise := by
  refine .bindOk (fun limits meter => ?_) h
  rw [outcome_charge]
  split
  · exact .inl rfl
  · exact .inr rfl

theorem freshStamp {next : Nat → Metered α} {promise : Except Fault α → Prop}
    (h : ∀ stamp, (next stamp).Comes promise) : (freshStamp >>= next).Comes promise := by
  have hany : Metered.freshStamp.Comes fun result => ∃ stamp, result = .ok stamp ∧ True :=
    fun _ _ => .inr ⟨_, rfl, trivial⟩
  exact .bind hany fun stamp _ => h stamp

end Comes

end Metered

section

variable {held : Nat → List Value}

mutual

/-- Equality answers as a look at every item does, where sharing is told honestly and nothing that
is shared differs from itself. -/
theorem Value.comes_equals (a b : Value) (ha : a.Honest held) (hb : b.Honest held)
    (hs : a.ShareSettled b) : (a.equals b).Comes (· = .ok (a.agrees b)) := by
  match a, b with
  | .list s, .list t | .tuple s, .tuple t =>
    unfold Value.equals Value.agrees
    refine .charge 1 ?_
    dsimp only
    split
    · rename_i hshared
      have hsame : s.items = t.items := by
        rw [ha.items_eq rfl, hb.items_eq rfl, hshared]
      have hsettled := hs _ _ s t (.self _) (.self _) rfl rfl hshared
      rw [Value.Settled, Value.agrees] at hsettled
      rw [← hsame, hsettled]
      exact .pure rfl
    · split
      · rename_i hlength
        exact .pure (by rw [beq_false_of_ne hlength]; rfl)
      · rename_i hlength
        rw [beq_iff_eq.2 (Decidable.not_not.1 hlength), Bool.true_and]
        exact comes_allEqual s.items t.items (fun _ hi => ha.item rfl hi) (fun _ hi => hb.item rfl hi)
          (hs.items rfl rfl)
  | .list _, .nothing | .list _, .bool _ | .list _, .int _ | .list _, .float _ | .list _, .text _
  | .list _, .tuple _ | .list _, .element _ | .list _, .function _ | .list _, .builtin _
  | .tuple _, .nothing | .tuple _, .bool _ | .tuple _, .int _ | .tuple _, .float _
  | .tuple _, .text _ | .tuple _, .list _ | .tuple _, .element _ | .tuple _, .function _
  | .tuple _, .builtin _ => exact .charge 1 (.pure rfl)
  | .nothing, b | .bool _, b | .int _, b | .float _, b | .text _, b | .element _, b
  | .function _, b | .builtin _, b => cases b <;> exact .charge 1 (.pure rfl)
termination_by structural a

theorem comes_allEqual (items others : List Value) (hi : ∀ item ∈ items, item.Honest held)
    (ho : ∀ other ∈ others, other.Honest held)
    (hs : ∀ item ∈ items, ∀ other ∈ others, item.ShareSettled other) :
    (Value.allEqual items others).Comes (· = .ok (agreeItems items others)) := by
  match items, others with
  | [], _ => exact .pure rfl
  | _ :: _, [] => exact .pure rfl
  | a :: rest, b :: more =>
    rw [List.forall_mem_cons] at hi ho
    have hfirst := Value.comes_equals a b hi.1 ho.1
      (hs a List.mem_cons_self b List.mem_cons_self)
    have hrest := comes_allEqual rest more hi.2 ho.2 fun item hitem other hother =>
      hs item (List.mem_cons_of_mem _ hitem) other (List.mem_cons_of_mem _ hother)
    unfold Value.allEqual agreeItems
    refine .bindOk hfirst ?_
    cases a.agrees b with
    | true => simpa using hrest
    | false => exact .pure rfl
termination_by structural items

end

/-- The search finds the first item that agrees. -/
theorem Value.comes_findIn {v : Value} {items : List Value} (hv : v.Honest held)
    (hi : ∀ item ∈ items, item.Honest held) (hs : ∀ item ∈ items, item.ShareSettled v) :
    (v.findIn items).Comes (· = .ok (items.findIdx? (·.agrees v))) := by
  have hsearch : ∀ first, (findIn.go v items first).Comes
      (· = .ok ((items.findIdx? (·.agrees v)).map (· + first))) := by
    induction items with
    | nil => exact fun first => .pure rfl
    | cons item rest ih =>
      intro first
      rw [List.forall_mem_cons] at hi hs
      have hrest := ih hi.2 hs.2 (first + 1)
      refine .bindOk (Value.comes_equals item v hi.1 hv hs.1) ?_
      rw [List.findIdx?_cons]
      cases item.agrees v with
      | true => exact .pure (by simp)
      | false => simpa [Function.comp_def, Nat.add_assoc, Nat.add_comm 1] using hrest
  have hall := hsearch 0
  simp only [Nat.add_zero, Option.map_id'] at hall
  exact hall

/-! ## The methods that compare -/

namespace Method

variable {s : Sequence Value} {v : Value}

/-- The argument of a method that takes one. -/
theorem comes_only (v : Value) (method : String) :
    Metered.Comes (Act.ofExcept (Arguments.onlyOfMethod ⟨[v], []⟩ method)) (· = .ok v) :=
  fun _ _ => .inr rfl

theorem comes_contains (ha : (Value.list s).Honest held) (hv : v.Honest held)
    (hs : (Value.list s).ShareSettled v) :
    (call (.list s) "contains" ⟨[v], []⟩).Comes
      (· = .ok (.list s, .bool (s.items.findIdx? (·.agrees v)).isSome)) := by
  have hfind := Value.comes_findIn hv (fun _ hi => ha.item rfl hi) (hs.item rfl)
  exact .bindOk (comes_only v "contains") (.bindOk hfind (.pure rfl))

theorem comes_remove (ha : (Value.list s).Honest held) (hv : v.Honest held)
    (hs : (Value.list s).ShareSettled v) :
    (call (.list s) "remove" ⟨[v], []⟩).Comes fun result =>
      match s.items.findIdx? (·.agrees v) with
      | some p => ∃ stamp, result = .ok (.list (s.erase p stamp), .nothing)
      | none => result = .error (Fault.refusal (.notInList v.literal)) := by
  have hfind := Value.comes_findIn hv (fun _ hi => ha.item rfl hi) (hs.item rfl)
  refine .bindOk (comes_only v "remove") ?_
  unfold remove
  rw [bind_assoc]
  refine .bindOk hfind ?_
  cases s.items.findIdx? (·.agrees v) with
  | some p =>
    rw [bind_assoc]
    exact .freshStamp fun stamp => .pure ⟨stamp, rfl⟩
  | none => exact fun _ _ => .inr rfl

/-- What can be seen of a method: the receiver afterwards and the result, without what is recorded
beside their items. -/
def shown (result : Except Fault (Value × Value)) : Except Fault (Value × Value) :=
  result.map fun found => (found.1.contents, found.2.contents)

/-- The methods that compare are methods of lists. -/
theorem call_of_not_list {receiver : Value} (h : ∀ s, receiver ≠ .list s) {method : String}
    (hm : method ∈ ["contains", "remove"]) (args : Arguments) :
    call receiver method args = refuse (.noMethod receiver.type method) := by
  have hcases : method = "contains" ∨ method = "remove" := by simpa using hm
  rcases hcases with rfl | rfl <;> cases receiver with
  | list s => exact absurd rfl (h s)
  | element e => cases e <;> rfl
  | _ => rfl

theorem eraseIdx_contentsOf (items : List Value) (p : Nat) :
    contentsOf (items.eraseIdx p) = (contentsOf items).eraseIdx p := by
  rw [contentsOf_eq_map, contentsOf_eq_map, List.eraseIdx_map]

end Method

end

/-- A list or tuple has the contents of another one of its kind only. -/
theorem Value.exists_list_of_contents {v : Value} {s : Sequence Value}
    (h : v.contents = (Value.list s).contents) :
    ∃ t, v = .list t ∧ contentsOf t.items = contentsOf s.items := by
  cases v <;> simp only [contents, list.injEq, Sequence.mk.injEq, reduceCtorEq] at h
  exact ⟨_, rfl, h.1⟩

/-- What is found in a list depends on contents alone. -/
theorem findIdx?_agrees_congr {items others : List Value} {v w : Value}
    (hi : contentsOf others = contentsOf items) (hv : w.contents = v.contents) :
    others.findIdx? (·.agrees w) = items.findIdx? (·.agrees v) := by
  have hcontents (items : List Value) (v : Value) :
      (contentsOf items).findIdx? (·.agrees v.contents) = items.findIdx? (·.agrees v) := by
    simp only [contentsOf_eq_map, List.findIdx?_map, Function.comp_def, Value.agrees_contents]
  rw [← hcontents items v, ← hi, ← hv, hcontents]

/-- How values share their items cannot be told from comparing them, as long as they share nothing
that differs from itself: equality answers as a look at every item does, and the methods that compare
give the same result, or refuse with the same words. -/
theorem Value.equality_ignores_sharing {held held' : Nat → List Value} {a b a' b' : Value}
    (ha : a'.contents = a.contents) (hb : b'.contents = b.contents)
    (honest : a.Honest held ∧ b.Honest held) (honest' : a'.Honest held' ∧ b'.Honest held')
    (settled : a.ShareSettled b) (settled' : a'.ShareSettled b') :
    ((a.equals b).Comes (· = .ok (a.agrees b)) ∧ (a'.equals b').Comes (· = .ok (a.agrees b))) ∧
    ∀ method ∈ ["contains", "remove"], ∃ answer,
      (Method.call a method ⟨[b], []⟩).Comes (Method.shown · = answer) ∧
      (Method.call a' method ⟨[b'], []⟩).Comes (Method.shown · = answer) := by
  have hequals' := comes_equals a' b' honest'.1 honest'.2 settled'
  rw [agrees_congr ha hb] at hequals'
  refine ⟨⟨comes_equals a b honest.1 honest.2 settled, hequals'⟩, fun method hm => ?_⟩
  by_cases hlist : ∃ s, a = .list s
  · obtain ⟨s, rfl⟩ := hlist
    obtain ⟨t, rfl, hitems⟩ := exists_list_of_contents ha
    have hfind := findIdx?_agrees_congr hitems hb
    have hcases : method = "contains" ∨ method = "remove" := by simpa using hm
    rcases hcases with rfl | rfl
    · have hcontains := Method.comes_contains honest.1 honest.2 settled
      have hcontains' := Method.comes_contains honest'.1 honest'.2 settled'
      refine ⟨_, hcontains.weaken fun _ heq => congrArg Method.shown heq,
        hcontains'.weaken fun _ heq => ?_⟩
      rw [heq, hfind, Method.shown, Method.shown, Except.map, Except.map, ha]
    · have hremove := Method.comes_remove honest.1 honest.2 settled
      have hremove' := Method.comes_remove honest'.1 honest'.2 settled'
      rw [hfind] at hremove'
      cases hfound : s.items.findIdx? (·.agrees b) with
      | some p =>
        rw [hfound] at hremove hremove'
        refine ⟨.ok (.list ⟨contentsOf (s.items.eraseIdx p), 0, 0⟩, .nothing),
          hremove.weaken ?_, hremove'.weaken ?_⟩
        · rintro _ ⟨stamp, rfl⟩
          rfl
        · rintro _ ⟨stamp, rfl⟩
          rw [Method.eraseIdx_contentsOf, ← hitems, ← Method.eraseIdx_contentsOf]
          rfl
      | none =>
        rw [hfound] at hremove hremove'
        refine ⟨.error (Fault.refusal (.notInList b.literal)),
          hremove.weaken fun _ heq => congrArg Method.shown heq, hremove'.weaken fun _ heq => ?_⟩
        rw [heq, ← literal_contents b', hb, literal_contents]
        rfl
  · have hnot : ∀ s, a ≠ .list s := fun s heq => hlist ⟨s, heq⟩
    have hnot' : ∀ s, a' ≠ .list s := fun s heq => hlist
      ((exists_list_of_contents (heq ▸ ha.symm)).imp fun _ => And.left)
    rw [Method.call_of_not_list hnot hm, Method.call_of_not_list hnot' hm, ← type_contents a', ha,
      type_contents]
    exact ⟨_, fun _ _ => .inr rfl, fun _ _ => .inr rfl⟩

/-- A list of one item that has none itself. -/
theorem Value.honest_single {v : Value} (hv : v.sequence? = none) (stamp : Nat) :
    (list ⟨[v], 1, stamp⟩).Honest fun _ => [v] := by
  intro part s hpart hs
  cases hpart with
  | self =>
    cases hs
    rfl
  | item hlist hi hinside =>
    cases hlist
    cases List.mem_singleton.1 hi
    cases hinside with
    | self =>
      rw [hv] at hs
      cases hs
    | item hsome =>
      rw [hv] at hsome
      cases hsome

/-- A list of one item, its copy, and a list of the same item that was built for itself. -/
theorem Value.equality_ignores_sharing_single :
    let copied : Value := .list ⟨[.int 1], 1, 0⟩
    let rebuilt : Value := .list ⟨[.int 1], 1, 1⟩
    let held : Nat → List Value := fun _ => [.int 1]
    rebuilt.contents = copied.contents ∧ copied.Honest held ∧ rebuilt.Honest held ∧
      copied.Settled ∧ (copied.equals copied).Comes (· = .ok true) ∧
      (copied.equals rebuilt).Comes (· = .ok true) := by
  intro copied rebuilt held
  have hcopied : copied.Honest held := honest_single rfl 0
  have hrebuilt : rebuilt.Honest held := honest_single rfl 1
  have settled : copied.Settled := by
    unfold Settled
    decide
  have hcontents : rebuilt.contents = copied.contents := rfl
  have hall := equality_ignores_sharing (rfl : copied.contents = copied.contents) hcontents
    ⟨hcopied, hcopied⟩ ⟨hcopied, hrebuilt⟩ (settled.shares _) (settled.shares _)
  have hanswer : copied.agrees copied = true := settled
  rw [hanswer] at hall
  exact ⟨rfl, hcopied, hrebuilt, settled, hall.1⟩

/-- Where the item is no number, the list equals its copy, but not the list that was built for
itself, so that sharing can be seen. -/
theorem Value.sharing_seen :
    let copied : Value := .list ⟨[.float (0 / 0)], 1, 0⟩
    let rebuilt : Value := .list ⟨[.float (0 / 0)], 1, 1⟩
    let held : Nat → List Value := fun _ => [.float (0 / 0)]
    rebuilt.contents = copied.contents ∧ copied.Honest held ∧ rebuilt.Honest held ∧
      ((copied.equals copied).outcome Limits.standard Meter.zero).1 = .ok true ∧
      ((copied.equals rebuilt).outcome Limits.standard Meter.zero).1 = .ok false := by
  intro copied rebuilt held
  exact ⟨rfl, honest_single rfl 0, honest_single rfl 1, rfl, by decide +kernel⟩

end LandPattern
