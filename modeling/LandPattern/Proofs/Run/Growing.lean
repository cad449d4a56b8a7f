import LandPattern.Proofs.Run.InPlace

/-!
# Growing a list

A list grows by one item or by the items of another list: by a method in its place, or by reading
it, joining the two and storing the result. The ways check the limits at different moments, and
`extend` does not look at the depth at all. They refuse the same all the same: the depths of what is
stored and of what an operand gives keep to the limit already.
-/

namespace LandPattern

open Metered (answers_bind answers_pure answers_seq)
open Script (Expr Name Program Span Stmt)
open Evaluation (assigned? argumentsAt? callNamed enter eval evalArgs evalAll exec held? placeOf?
  rewriteAt? valueAt? Assigns Calm CalmOperands)

/-! ## What a list grows to -/

theorem Sequence.depthOf_single (item : Value) : depthOf [item] = item.depth + 1 := by
  simp only [depthOf, List.foldl_cons, List.foldl_nil]
  omega

namespace Value

/-- The list with the items of another one behind its own, apart from its stamp, if the limits allow
so many items and so deep a nesting. -/
def grown? (limits : Limits) (old more : Value) : Option Value :=
  match old, more with
  | .list s, .list t =>
    if s.length + t.length ≤ limits.collection ∧ max s.depth t.depth ≤ limits.valueDepth then
      some (.list (s.append t 0))
    else none
  | _, _ => none

/-- What a list grows to by the operator, and what is told of anything else that is added. -/
def joined? (limits : Limits) (combined : Value → Value → Option Value) (old more : Value) :
    Option Value :=
  match more with
  | .list t => grown? limits old (.list t)
  | _ => combined old more

/-- The list of one item, apart from its stamp, if the limits allow it. -/
def single? (limits : Limits) (item : Value) : Option Value :=
  if 1 ≤ limits.collection ∧ item.depth + 1 ≤ limits.valueDepth then
    some (.list (Sequence.ofItems [item] 0))
  else none

/-- Nothing but a list grows. -/
theorem grown?_eq_none {limits : Limits} {old : Value} (h : ∀ s, old ≠ .list s) (more : Value) :
    grown? limits old more = none := by
  cases old with
  | list s => exact absurd rfl (h s)
  | _ => rfl

/-- With the list of an item a list grows as with the item. -/
theorem single?_bind_grown? (limits : Limits) (s : Sequence Value) (item : Value) :
    (single? limits item).bind (grown? limits (.list s)) =
      if s.length + 1 ≤ limits.collection ∧ max s.depth (item.depth + 1) ≤ limits.valueDepth then
        some (.list (s.push item 0)) else none := by
  have hdepth := Sequence.depthOf_single item
  have happend : s.append (Sequence.ofItems [item] 0) 0 = s.push item 0 := by
    simp only [Sequence.append, Sequence.push, Sequence.ofItems, hdepth]
  have hlength : (Sequence.ofItems [item] 0).length = 1 := rfl
  by_cases hsingle : 1 ≤ limits.collection ∧ item.depth + 1 ≤ limits.valueDepth
  · simp only [single?, if_pos hsingle, Option.bind_some, grown?, happend, hlength]
    simp only [Sequence.ofItems, hdepth]
  · have hover : ¬ (s.length + 1 ≤ limits.collection ∧
        max s.depth (item.depth + 1) ≤ limits.valueDepth) := by omega
    rw [single?, if_neg hsingle, if_neg hover, Option.bind_none]

theorem depth_single? {limits : Limits} {item more : Value} (h : single? limits item = some more) :
    ∃ t, more = .list t ∧ t.depth ≤ limits.valueDepth := by
  unfold single? at h
  split at h
  · rename_i hroom
    cases h
    exact ⟨_, rfl, Nat.le_trans (Nat.le_of_eq (Sequence.depthOf_single item)) hroom.2⟩
  · cases h

end Value

namespace Metered

variable {β δ : Type} {limits : Limits} {s t u z : Sequence Value} {v w : Value}

/-- Behind a check nothing else is expected than of the second act, if the check lets it through. -/
theorem answers_allowed {p : Prop} [Decidable p] {check : Metered Unit} {next : Unit → Metered β}
    {expected : Option δ} {final : δ → β → Prop}
    (h : Answers limits check (if p then some () else none) fun _ _ => True)
    (hn : p → Answers limits (next ()) expected final) :
    Answers limits (check >>= next) (if p then expected else none) final := by
  by_cases hp : p
  · rw [if_pos hp] at h ⊢
    exact answers_seq h fun _ => hn hp
  · rw [if_neg hp] at h ⊢
    exact .stops h

theorem answers_checkLength (length : Nat) :
    Answers limits (checkLength length) (if length ≤ limits.collection then some () else none)
      fun _ _ => True :=
  answers_check Limits.collection length fun limit => .tooLong length limit

/-- A sequence that is built under a new stamp is given back if it respects the limits. -/
theorem answers_built {build : Nat → Sequence Value} (h : ∀ stamp, s.Like (build stamp)) :
    Answers limits
      (do
        let built := build (← freshStamp)
        checkSequence built
        return built)
      (if s.length ≤ limits.collection ∧ s.depth ≤ limits.valueDepth then some s else none)
      Sequence.Like := by
  refine answers_seq answers_freshStamp fun stamp => ?_
  have hcheck : Answers limits (checkSequence (build stamp)) _ _ :=
    Value.answers_checkSequence (build stamp)
  rw [← (h stamp).length, ← (h stamp).depth] at hcheck
  exact answers_allowed hcheck fun _ => answers_pure (h stamp)

theorem length_append (s t : Sequence Value) (stamp : Nat) :
    (s.append t stamp).length = s.length + t.length := List.length_append

theorem length_push (s : Sequence Value) (item : Value) (stamp : Nat) :
    (s.push item stamp).length = s.length + 1 := List.length_append

theorem answers_concat (hs : s.Like t) (hu : u.Like z) :
    Answers limits (Value.concat t z)
      (if s.length + u.length ≤ limits.collection ∧ max s.depth u.depth ≤ limits.valueDepth then
        some (s.append u 0) else none) Sequence.Like := by
  unfold Value.concat
  rw [← hs.length, ← hu.length, ite_and]
  refine answers_allowed (answers_checkLength _) fun hlength => answers_seq (answers_charge _)
    fun _ => ?_
  have hbuilt : Answers limits _ _ _ := answers_built fun stamp => hs.append hu 0 stamp
  rw [length_append, ite_and, if_pos hlength] at hbuilt
  exact hbuilt

theorem answers_append (hs : s.Like t) (hv : v.Like w) :
    Answers limits (Method.append t w)
      (if s.length + 1 ≤ limits.collection ∧ max s.depth (v.depth + 1) ≤ limits.valueDepth then
        some (s.push v 0) else none) Sequence.Like := by
  unfold Method.append
  rw [← hs.length, ite_and]
  refine answers_allowed (answers_checkLength _) fun hlength => ?_
  have hbuilt : Answers limits _ _ _ := answers_built fun stamp => hs.push hv 0 stamp
  rw [length_push, ite_and, if_pos hlength] at hbuilt
  exact hbuilt

theorem answers_extend (hs : s.Like t) (hu : u.Like z) :
    Answers limits (Method.extend t (.list z))
      (if s.length + u.length ≤ limits.collection then some (s.append u 0) else none)
      Sequence.Like := by
  rw [hs.length, hu.length]
  exact answers_allowed (answers_checkLength _) fun _ => answers_seq (answers_charge _) fun _ =>
    answers_seq answers_freshStamp fun stamp => answers_pure (hs.append hu 0 stamp)

theorem answers_alone (hv : v.Like w) :
    Answers limits (do let s ← sequence [w]; checkSequence s; return s)
      (if 1 ≤ limits.collection ∧ v.depth + 1 ≤ limits.valueDepth then
        some (Sequence.ofItems [v] 0) else none) Sequence.Like := by
  have hunstamped : [v].map Value.unstamped = [w].map Value.unstamped :=
    congrArg (fun u => [u]) hv
  have hbuilt : Answers limits _ _ _ := answers_built (.ofItems hunstamped 0)
  rw [show (Sequence.ofItems [v] 0).depth = v.depth + 1 from Sequence.depthOf_single v] at hbuilt
  simp only [Metered.sequence, bind_assoc, pure_bind]
  exact hbuilt

end Metered

/-! ## The operator and the methods -/

/-- What is alike are two lists, or no lists. -/
theorem Value.Like.lists_or_not {v w : Value} (h : v.Like w) :
    (∃ s t, v = .list s ∧ w = .list t ∧ s.Like t) ∨
      (∀ s, v ≠ .list s) ∧ ∀ t, w ≠ .list t := by
  rcases h.cases with ⟨rfl, hatom⟩ | hlists | ⟨s, t, rfl, rfl, -⟩
  · right
    constructor
    · rintro s rfl
      cases hatom
    · rintro s rfl
      cases hatom
  · exact .inl hlists
  · exact .inr ⟨fun _ => nofun, fun _ => nofun⟩

theorem Value.Like.of_list {s : Sequence Value} {w : Value} (h : (Value.list s).Like w) :
    ∃ t, w = .list t ∧ s.Like t := by
  rcases h.lists_or_not with ⟨s', t, heq, rfl, hs⟩ | ⟨hnot, -⟩
  · cases heq
    exact ⟨t, rfl, hs⟩
  · exact absurd rfl (hnot s)

section

variable {limits : Limits} {old other given item : Value}

/-- What is made of a sequence that is built, as the list of it. -/
theorem Metered.answers_made {β δ : Type} {p : Prop} [Decidable p] {s : Sequence Value}
    {act : Metered (Sequence Value)} {same : δ → β → Prop} (make : Value → β) (pack : Value → δ)
    (h : Metered.Answers limits act (if p then some s else none) Sequence.Like)
    (hm : ∀ v w : Value, v.Like w → same (pack v) (make w)) :
    Metered.Answers limits (do return make (.list (← act)))
      ((if p then some (Value.list s) else none).bind fun v => some (pack v)) same := by
  have hmade : Metered.Answers limits (do return make (.list (← act)))
      ((if p then some s else none).bind fun built => some (pack (.list built))) same :=
    answers_bind h fun found built _ hfound => answers_pure (hm _ _ (Value.like_list.2 hfound))
  by_cases hp : p
  · rw [if_pos hp] at hmade ⊢
    exact hmade
  · rw [if_neg hp] at hmade ⊢
    exact hmade

/-- A list is joined to a list alone. -/
theorem Value.answers_add (hold : old.Like other) {u : Sequence Value}
    (hmore : (Value.list u).Like given) :
    Metered.Answers limits (other.add given) (grown? limits old (.list u)) Like := by
  obtain ⟨z, rfl, hu⟩ := hmore.of_list
  rcases hold.lists_or_not with ⟨s, t, rfl, rfl, hs⟩ | ⟨hnot, hother⟩
  · rw [← Option.bind_fun_some (grown? limits _ _)]
    exact Metered.answers_made id id (Metered.answers_concat hs hu) fun _ _ => id
  · rw [grown?_eq_none hnot]
    cases other with
    | list t => exact absurd rfl (hother t)
    | _ => exact .fault _

/-- The change of a receiver by a method that gives nothing. -/
def Method.Changes (limits : Limits) (act : Metered (Value × Value)) (expected : Option Value) :
    Prop :=
  Metered.Answers limits act (expected.bind fun v => some (v, ())) fun found result =>
    found.1.Like result.1 ∧ True

theorem Method.changes_made {p : Prop} [Decidable p] {s : Sequence Value}
    {act : Metered (Sequence Value)}
    (h : Metered.Answers limits act (if p then some s else none) Sequence.Like) :
    Method.Changes limits (do return (.list (← act), .nothing))
      (if p then some (.list s) else none) :=
  Metered.answers_made (fun v => (v, Value.nothing)) (fun v => (v, ())) h
    fun _ _ hlike => ⟨hlike, trivial⟩

/-- A receiver that is no list has no method to grow by. -/
theorem Method.refuses_grow {method : String} (hm : method = "append" ∨ method = "extend")
    (hold : ∀ s, other ≠ .list s) (args : Arguments) :
    Method.Changes limits (Method.call other method args) none := by
  cases other with
  | list s => exact absurd rfl (hold s)
  | element e => rcases hm with rfl | rfl <;> cases e <;> exact .fault _
  | _ => exact .fault _

/-- The items of a list are added, where both lists keep to the depth already. -/
theorem Method.changes_extend (hold : old.Like other) {u : Sequence Value}
    (hmore : (Value.list u).Like given) (hdepth : old.depth ≤ limits.valueDepth)
    (hu : u.depth ≤ limits.valueDepth) :
    Method.Changes limits (Method.call other "extend" ⟨[given], []⟩)
      (Value.grown? limits old (.list u)) := by
  obtain ⟨z, rfl, hz⟩ := hmore.of_list
  rcases hold.lists_or_not with ⟨s, t, rfl, rfl, hs⟩ | ⟨hnot, hother⟩
  · have hboth : max s.depth u.depth ≤ limits.valueDepth := Nat.max_le.2 ⟨hdepth, hu⟩
    simp only [Value.grown?, hboth, and_true]
    exact Method.changes_made (Metered.answers_extend hs hz)
  · rw [Value.grown?_eq_none hnot]
    exact Method.refuses_grow (.inr rfl) hother _

/-- An item is added as the list of it. -/
theorem Method.changes_append (hold : old.Like other) (hitem : item.Like given) :
    Method.Changes limits (Method.call other "append" ⟨[given], []⟩)
      ((Value.single? limits item).bind (Value.grown? limits old)) := by
  rcases hold.lists_or_not with ⟨s, t, rfl, rfl, hs⟩ | ⟨hnot, hother⟩
  · rw [Value.single?_bind_grown?]
    exact Method.changes_made (Metered.answers_append hs hitem)
  · rw [funext (Value.grown?_eq_none hnot), Option.bind_fun_none]
    exact Method.refuses_grow (.inl rfl) hother _

end

/-! ## The operands -/

namespace Evaluation

variable {context : Context} {start : Machine} {remaining : Nat} {expected : Option Value}
  {e receiver : Expr}

theorem answers_alone
    (he : Answers context start id (eval (callNamed (enter remaining)) e) expected
      (Answers.Only Value.Like id)) :
    Answers context start id (evalAll (callNamed (enter remaining)) [e]) expected
      (Answers.Only (fun x values => ∃ v, x.Like v ∧ values = [v]) id) := by
  rw [← Option.bind_fun_some expected]
  exact answers_then he fun x v _ hv => answers_pure ⟨⟨v, hv, rfl⟩, rfl⟩

/-- The list of an item is checked for its length before the item is evaluated, and for its depth
behind it. -/
theorem answers_single (span : Span)
    (he : Answers context start id (eval (callNamed (enter remaining)) e) expected
      (Answers.Only Value.Like id)) :
    Answers context start id (eval (callNamed (enter remaining)) (.list span [e]))
      (expected.bind (Value.single? context.limits)) (Answers.Only Value.Like id) := by
  have hlength : Answers context start id (ofMetered (Metered.checkLength 1))
      (if 1 ≤ context.limits.collection then some () else none)
      (Answers.Only (fun _ _ => True) id) :=
    answers_ofMetered (.checkLength 1) (Metered.answers_checkLength 1)
  have hregular (values : List Value) : Metered.Regular
      (do let s ← Metered.sequence values; Metered.checkSequence s; return s) :=
    .bind (.sequence values) fun s => .bind (.checkSequence s) fun _ => .pure s
  unfold eval
  refine answers_counted (answers_locating _ (answers_noting (answers_charged ?_)))
  change Answers context start id
    (do return Value.list (← collected 1 (evalAll (callNamed (enter remaining)) [e]))) _ _
  simp only [collected, bind_assoc]
  by_cases hroom : 1 ≤ context.limits.collection
  · rw [if_pos hroom] at hlength
    refine answers_seq hlength fun _ _ => answers_then (answers_alone he)
      fun x values _ hvalues => ?_
    obtain ⟨v, hv, rfl⟩ := hvalues
    have hsingle : Value.single? context.limits x =
        (if 1 ≤ context.limits.collection ∧ x.depth + 1 ≤ context.limits.valueDepth then
          some (Sequence.ofItems [x] 0) else none).bind fun s => some (Value.list s) := by
      unfold Value.single?
      split <;> rfl
    rw [hsingle]
    exact answers_then (answers_ofMetered (hregular [v]) (Metered.answers_alone hv))
      fun s t _ hs => answers_pure ⟨Value.like_list.2 hs, rfl⟩
  · have hnone : Value.single? context.limits = fun _ => none :=
      funext fun x => if_neg fun h => hroom h.1
    rw [if_neg hroom] at hlength
    rw [hnone, Option.bind_fun_none]
    exact .stops hlength

theorem answers_positional
    (he : Answers context start id (eval (callNamed (enter remaining)) e) expected
      (Answers.Only Value.Like id)) :
    Answers context start id (evalArgs (callNamed (enter remaining)) .empty [.positional e])
      expected (Answers.Only (fun x given => ∃ v, x.Like v ∧ given = ⟨[v], []⟩) id) := by
  rw [← Option.bind_fun_some expected]
  exact answers_then he fun x v _ hv => answers_pure ⟨⟨v, hv, rfl⟩, rfl⟩

/-! ## The ways -/

/-- The place may be resolved before the operand is evaluated. -/
theorem bind_assigned? {β : Type} (caller : Caller) (target : Expr) (expected : Option β)
    (written : β → Value → Option (Value × Unit)) :
    (expected.bind fun x => assigned? context start caller target (written x)) =
      ((placeOf? (valueAt? context start caller) target).bind fun place =>
        expected.bind fun x => (rewriteAt? context start place (written x)).map
          (Prod.mk place.root)).bind fun x => some (x.1, x.2.1) := by
  unfold assigned?
  cases placeOf? (valueAt? context start caller) target with
  | none => simp only [Option.bind_none, Option.bind_fun_none]
  | some place =>
    cases expected with
    | none => rfl
    | some x => simp only [Option.bind_some, Option.bind_map, Function.comp_def]

/-- A method that gives nothing, as a statement, changes its receiver. -/
theorem assigns_change {method : Name} {item : Expr} {written : Value → Value → Option Value}
    (hi : start.Issued) (hm : Method.mutates method.text) (hp : receiver.isPlace)
    (outer span : Span)
    (hc : ∀ index ∈ receiver.indices, Calm context start (eval (callNamed (enter remaining)) index))
    (he : Answers context start id (eval (callNamed (enter remaining)) item) expected
      (Answers.Only Value.Like id))
    (hw : ∀ name steps root old other x given, held? start name = some root →
      root.at? steps = some old → old.Like other → expected = some x → x.Like given →
      Method.Changes context.limits (Method.call other method.text ⟨[given], []⟩) (written x old)) :
    Assigns context start
      (exec (callNamed (enter remaining))
        (.expr outer (.method span receiver method [.positional item])))
      (expected.bind fun x =>
        assigned? context start (callNamed (enter remaining)) receiver fun old =>
          (written x old).bind fun c => some (c, ())) := by
  have hchanged : ∀ name steps root old other x given, held? start name = some root →
      root.at? steps = some old → old.Restocked other → expected = some x →
      (∃ v, Value.Like x v ∧ given = ⟨[v], []⟩) →
      Metered.Answers context.limits (Method.call other method.text given)
        ((written x old).bind fun c => some (c, ()))
        fun found result => found.1.Like result.1 ∧ True := by
    rintro name steps root old other x given hroot hold hother hx ⟨v, hv, rfl⟩
    exact hw name steps root old other x v hroot hold hother.like hx hv
  have hchange := answers_change hi hm receiver _ (fun _ _ => True) hp span hc
    (answers_positional he) hchanged
  rw [bind_assigned?]
  unfold exec
  refine answers_counted (answers_chargedAt outer ?_)
  refine answers_bind hchange fun x _ after _ hafter => ?_
  exact answers_pure ⟨rfl, hafter.2⟩

/-- What a place holds when the items of a list that is given as expected were added to it. -/
def grownAt? (context : Context) (machine : Machine) (caller : Caller) (place : Expr)
    (expected : Option Value) : Option (String × Value) :=
  expected.bind fun more => assigned? context machine caller place fun old =>
    (Value.grown? context.limits old more).bind fun c => some (c, ())

theorem assigned?_none (caller : Caller) (target : Expr) :
    assigned? context start caller target (fun _ => none) = none := by
  have hrewrite (place : Place) :
      rewriteAt? context start place (fun _ => (none : Option (Value × Unit))) = none := by
    simp only [rewriteAt?, Value.rewriteWithin?_eq_at? _ context.limits place.steps fun _ => none,
      Option.bind_none, Option.bind_fun_none]
  simp only [assigned?, hrewrite, Option.bind_none, Option.bind_fun_none]

section Ways

variable (hi : start.Issued) (hp : receiver.isPlace) (outer span : Span)
  (hc : ∀ index ∈ receiver.indices, Calm context start (eval (callNamed (enter remaining)) index))
  (he : Answers context start id (eval (callNamed (enter remaining)) e) expected
    (Answers.Only Value.Like id))

include hi hp hc he

/-- The item that is added becomes a list on the way of the others. -/
theorem assigns_append (word : Span) :
    Assigns context start
      (exec (callNamed (enter remaining))
        (.expr outer (.method span receiver ⟨"append", word⟩ [.positional e])))
      (grownAt? context start (callNamed (enter remaining)) receiver
        (expected.bind (Value.single? context.limits))) := by
  have happend : Assigns context start
      (exec (callNamed (enter remaining))
        (.expr outer (.method span receiver ⟨"append", word⟩ [.positional e]))) _ :=
    assigns_change hi rfl hp outer span hc he fun _ _ _ old other item given _ _ hother _ hgiven =>
      Method.changes_append hother hgiven
  have hsame : (expected.bind fun item =>
      assigned? context start (callNamed (enter remaining)) receiver fun old =>
        ((Value.single? context.limits item).bind (Value.grown? context.limits old)).bind fun c =>
          some (c, ())) =
      grownAt? context start (callNamed (enter remaining)) receiver
        (expected.bind (Value.single? context.limits)) := by
    rw [grownAt?, Option.bind_assoc]
    refine congrArg expected.bind (funext fun item => ?_)
    cases Value.single? context.limits item with
    | none => exact assigned?_none _ _
    | some more => rfl
  rwa [hsame] at happend

/-- The list whose items are added keeps to the depth already, and so does the one in the place. -/
theorem assigns_extend (word : Span)
    (hlist : ∀ more, expected = some more →
      ∃ t, more = .list t ∧ t.depth ≤ context.limits.valueDepth)
    (hheld : ∀ name steps root old, held? start name = some root → root.at? steps = some old →
      old.depth ≤ context.limits.valueDepth) :
    Assigns context start
      (exec (callNamed (enter remaining))
        (.expr outer (.method span receiver ⟨"extend", word⟩ [.positional e])))
      (grownAt? context start (callNamed (enter remaining)) receiver expected) := by
  refine assigns_change hi rfl hp outer span hc he
    fun name steps root old other more given hroot hold hother hmore hgiven => ?_
  obtain ⟨t, rfl, hdepth⟩ := hlist more hmore
  exact Method.changes_extend hother hgiven (hheld name steps root old hroot hold) hdepth

theorem assigns_sum (inner : Span) (hlist : ∀ more, expected = some more → ∃ t, more = .list t) :
    Assigns context start
      (exec (callNamed (enter remaining))
        (.assign outer receiver .set (.binary inner .add receiver e)))
      (grownAt? context start (callNamed (enter remaining)) receiver expected) := by
  obtain ⟨combined, hcombined⟩ := exists_combined context.limits .add
  have hjoined : ∀ old more other given, Value.Like old other → Value.Like more given →
      Metered.Answers context.limits (other.assigned .add given)
        (Value.joined? context.limits combined old more) Value.Like := by
    intro old more other given hother hgiven
    cases more with
    | list t => exact Value.answers_add hother hgiven
    | _ => exact hcombined old _ other given hother hgiven
  have hstored := answers_assignOperator hjoined hi rfl outer inner receiver e hp hc he
  rw [assigned?_operator] at hstored
  have hsame : (expected.bind fun more =>
      assigned? context start (callNamed (enter remaining)) receiver fun old =>
        (Value.joined? context.limits combined old more).bind fun c => some (c, ())) =
      grownAt? context start (callNamed (enter remaining)) receiver expected := by
    cases hexpected : expected with
    | none => rfl
    | some more =>
      obtain ⟨t, rfl⟩ := hlist more hexpected
      rfl
  rwa [hsame] at hstored

end Ways

section

variable {program : Program} {limits : Limits}

/-- What variables hold keeps to the limit on depth. -/
theorem depth_held (h : program.Reaches limits start) (hd : 1 ≤ limits.valueDepth) {name : String}
    {steps : List Step} {root old : Value} (hroot : held? start name = some root)
    (hold : root.at? steps = some old) : old.depth ≤ limits.valueDepth := by
  obtain ⟨b, hcovers, -, hdepth, htexts⟩ :=
    exists_bounds hd (Nat.le_max_left 3 limits.collection) (Nat.le_max_right _ _) program.texts
  exact Nat.le_trans (within_component h hcovers htexts hroot hold).depth hdepth

theorem argumentsAt?_positional (caller : Caller) (e : Expr) :
    argumentsAt? context start caller [.positional e] =
      (valueAt? context start caller e).map fun v => ⟨[v], []⟩ := by
  unfold argumentsAt? valueAt?
  change (((eval caller e) >>= fun v => pure ⟨[v], []⟩ : Evaluation Arguments).outcome
    context start).1.toOption = _
  rw [Act.outcome_bind]
  rcases (eval caller e).outcome context start with ⟨fault | v, after⟩ <;> rfl

/-- So does what an operand gives. -/
theorem depth_operand (h : program.Reaches limits start) (hi : start.Issued)
    (hd : 1 ≤ limits.valueDepth) {v : Value}
    (hv : valueAt? ⟨program.functions, limits⟩ start (callNamed (enter remaining)) e = some v) :
    v.depth ≤ limits.valueDepth := by
  obtain ⟨b, hcovers, -, hdepth, htexts⟩ :=
    exists_bounds hd (Nat.le_max_left 3 limits.collection) (Nat.le_max_right _ _)
      (program.texts ++ Script.argumentTexts [.positional e])
  have hgiven : argumentsAt? ⟨program.functions, limits⟩ start (callNamed (enter remaining))
      [.positional e] = _ := argumentsAt?_positional _ e
  rw [hv, Option.map_some] at hgiven
  have hall := within_arguments h hi hcovers
    (fun text htext => htexts text (List.mem_append_left _ htext))
    (fun text htext => htexts text (List.mem_append_right _ htext)) hgiven
  exact Nat.le_trans (hall.positional v List.mem_cons_self).depth hdepth

/-- All ways to add an item change the place alike. -/
theorem exists_change (h : program.Reaches limits start) (hi : start.Issued)
    (hd : 1 ≤ limits.valueDepth) (hp : receiver.isPlace)
    (hc : CalmOperands ⟨program.functions, limits⟩ start (callNamed (enter remaining))
      (e :: receiver.indices)) (span : Span) :
    ∃ change : Option (String × Value), ∀ way ∈ [
      Stmt.expr span (.method span receiver ⟨"append", span⟩ [.positional e]),
      Stmt.expr span (.method span receiver ⟨"extend", span⟩ [.positional (.list span [e])]),
      Stmt.assign span receiver .set (.binary span .add receiver (.list span [e]))],
      Assigns ⟨program.functions, limits⟩ start (exec (callNamed (enter remaining)) way)
        change := by
  have hindices : ∀ index ∈ receiver.indices, Calm _ _ _ := fun index hindex =>
    hc index (List.mem_cons_of_mem _ hindex)
  have hitem := answers_alike hi (hc e List.mem_cons_self)
  have hsingle := answers_single span hitem
  have hlist : ∀ more, (valueAt? ⟨program.functions, limits⟩ start (callNamed (enter remaining))
      e).bind (Value.single? limits) = some more →
      ∃ t, more = .list t ∧ t.depth ≤ limits.valueDepth := by
    intro more hmore
    obtain ⟨v, -, hmade⟩ := Option.bind_eq_some_iff.1 hmore
    exact Value.depth_single? hmade
  have hheld : ∀ name steps root old, held? start name = some root → root.at? steps = some old →
      old.depth ≤ limits.valueDepth := fun _ _ _ _ => depth_held h hd
  refine ⟨_, List.forall_mem_cons.2 ⟨assigns_append hi hp span span hindices hitem span,
    List.forall_mem_cons.2 ⟨assigns_extend hi hp span span hindices hsingle span hlist hheld,
      List.forall_mem_singleton.2 ?_⟩⟩⟩
  exact assigns_sum hi hp span hindices hsingle span fun more hmore =>
    (hlist more hmore).imp fun _ => And.left

/-- Statements that differ from these in their places in the source alone end alike as well. -/
theorem Assigns.ends_bare {first second one another : Stmt} {change : Option (String × Value)}
    (h : Assigns ⟨program.functions, limits⟩ start (exec (callNamed (enter remaining)) one) change)
    (ho : Assigns ⟨program.functions, limits⟩ start (exec (callNamed (enter remaining)) another)
      change) (hf : first.bare = one.bare) (hs : second.bare = another.bare) :
    Act.EndsBoth (fun flow after other last => flow = other ∧ after.SameVariables last)
      ((exec (callNamed (enter remaining)) first).outcome ⟨program.functions, limits⟩ start)
      ((exec (callNamed (enter remaining)) second).outcome ⟨program.functions, limits⟩ start) := by
  have hmirror : CallsMirror ⟨program.functions, limits⟩ (callNamed (enter remaining))
      (callNamed (enter remaining)) := mirrors_callNamed (mirrors_enter remaining)
  exact ((h.ends ho).left (mirrors_exec hmirror one) (hf ▸ mirrors_exec hmirror first)).right
    (mirrors_exec hmirror another) (hs ▸ mirrors_exec hmirror second)

end

end Evaluation

namespace Script.Program

variable {program : Program} {limits : Limits} {machine : Machine}

/-- In every state that a run reaches, a list grows alike on every way, if the indices of its place
and the operand leave all variables as they are, what these share included. Adding an item by
`append`, adding the items of its list by `extend`, and storing the sum of the list and the list of
the item all fault or all succeed, unless the budget of operations ends one of them, and they leave
the same variables; so do adding the items of a list by `extend` and storing the sum of the two. The
limits on length and depth therefore refuse the same on every way, and so does a place that holds no
list. Trees count as the same that differ in their places in the source alone. That the stamps of a
state were given by its meter holds at the start and is kept by every step (`issued_eval`,
`issued_exec`). -/
theorem grows_alike (h : program.Reaches limits machine) (hi : machine.Issued)
    (hd : 1 ≤ limits.valueDepth) (remaining : Nat) (place : Expr) (hp : place.isPlace) :
    (∀ (item : Expr) (appended extended stored : Stmt),
      CalmOperands ⟨program.functions, limits⟩ machine (callNamed (enter remaining))
        (item :: place.indices) →
      appended.bare = (Stmt.expr .nowhere
        (.method .nowhere place ⟨"append", .nowhere⟩ [.positional item])).bare →
      extended.bare = (Stmt.expr .nowhere
        (.method .nowhere place ⟨"extend", .nowhere⟩ [.positional (.list .nowhere [item])])).bare →
      stored.bare = (Stmt.assign .nowhere place .set
        (.binary .nowhere .add place (.list .nowhere [item]))).bare →
      ∀ first ∈ [appended, extended, stored], ∀ second ∈ [appended, extended, stored],
        Act.EndsBoth (fun flow after other last => flow = other ∧ after.SameVariables last)
          ((exec (callNamed (enter remaining)) first).outcome ⟨program.functions, limits⟩ machine)
          ((exec (callNamed (enter remaining)) second).outcome
            ⟨program.functions, limits⟩ machine)) ∧
    ∀ (items : Expr) (extended stored : Stmt),
      CalmOperands ⟨program.functions, limits⟩ machine (callNamed (enter remaining))
        (items :: place.indices) →
      (∀ v, valueAt? ⟨program.functions, limits⟩ machine (callNamed (enter remaining)) items =
        some v → ∃ t, v = .list t) →
      extended.bare = (Stmt.expr .nowhere
        (.method .nowhere place ⟨"extend", .nowhere⟩ [.positional items])).bare →
      stored.bare = (Stmt.assign .nowhere place .set (.binary .nowhere .add place items)).bare →
      Act.EndsBoth (fun flow after other last => flow = other ∧ after.SameVariables last)
        ((exec (callNamed (enter remaining)) extended).outcome ⟨program.functions, limits⟩ machine)
        ((exec (callNamed (enter remaining)) stored).outcome
          ⟨program.functions, limits⟩ machine) := by
  constructor
  · intro item appended extended stored hcalm happended hextended hstored
    obtain ⟨change, hways⟩ := Evaluation.exists_change h hi hd hp hcalm .nowhere
    obtain ⟨hfirst, hothers⟩ := List.forall_mem_cons.1 hways
    obtain ⟨hmiddle, hrest⟩ := List.forall_mem_cons.1 hothers
    have hlast := List.forall_mem_singleton.1 hrest
    have hall : ∀ statement ∈ [appended, extended, stored], ∃ way : Stmt,
        statement.bare = way.bare ∧ Assigns ⟨program.functions, limits⟩ machine
          (exec (callNamed (enter remaining)) way) change :=
      List.forall_mem_cons.2 ⟨⟨_, happended, hfirst⟩, List.forall_mem_cons.2
        ⟨⟨_, hextended, hmiddle⟩, List.forall_mem_singleton.2 ⟨_, hstored, hlast⟩⟩⟩
    intro first hfirst second hsecond
    obtain ⟨one, hone, hfirstWay⟩ := hall first hfirst
    obtain ⟨another, hanother, hsecondWay⟩ := hall second hsecond
    exact hfirstWay.ends_bare hsecondWay hone hanother
  · intro items extended stored hcalm hlist hextended hstored
    have hindices : ∀ index ∈ place.indices, Calm _ _ _ := fun index hindex =>
      hcalm index (List.mem_cons_of_mem _ hindex)
    have hheld : ∀ name steps root old, held? machine name = some root →
        root.at? steps = some old → old.depth ≤ limits.valueDepth :=
      fun _ _ _ _ => Evaluation.depth_held h hd
    have hitems := Evaluation.answers_alike hi (hcalm items List.mem_cons_self)
    have hdeep : ∀ more, valueAt? ⟨program.functions, limits⟩ machine (callNamed (enter remaining))
        items = some more → ∃ t, more = .list t ∧ t.depth ≤ limits.valueDepth := by
      intro more hmore
      obtain ⟨t, rfl⟩ := hlist more hmore
      exact ⟨t, rfl, Evaluation.depth_operand h hi hd hmore⟩
    exact (Evaluation.assigns_extend hi hp _ _ hindices hitems _ hdeep hheld).ends_bare
      (Evaluation.assigns_sum hi hp _ hindices hitems _ hlist) hextended hstored

/-- Five is added to the list. -/
def appending : Stmt :=
  .expr ⟨0, 12⟩ (.method ⟨0, 12⟩ (.name ⟨0, 2⟩ "xs") ⟨"append", ⟨3, 9⟩⟩
    [.positional (.int ⟨10, 11⟩ 5)])

/-- The list of five is added to the list. -/
def extending : Stmt :=
  .expr ⟨0, 14⟩ (.method ⟨0, 14⟩ (.name ⟨0, 2⟩ "xs") ⟨"extend", ⟨3, 9⟩⟩
    [.positional (.list ⟨10, 13⟩ [.int ⟨11, 12⟩ 5])])

/-- The list and the list of five are joined and stored. -/
def joining : Stmt :=
  .assign ⟨0, 13⟩ (.name ⟨0, 2⟩ "xs") .set
    (.binary ⟨5, 13⟩ .add (.name ⟨5, 7⟩ "xs") (.list ⟨10, 13⟩ [.int ⟨11, 12⟩ 5]))

/-- The list is added to itself. -/
def addingItself : Stmt :=
  .expr ⟨0, 13⟩ (.method ⟨0, 13⟩ (.name ⟨0, 2⟩ "xs") ⟨"extend", ⟨3, 9⟩⟩
    [.positional (.name ⟨10, 12⟩ "xs")])

/-- The list is joined to itself. -/
def joiningItself : Stmt :=
  .assign ⟨0, 12⟩ (.name ⟨0, 2⟩ "xs") .set
    (.binary ⟨5, 12⟩ .add (.name ⟨5, 7⟩ "xs") (.name ⟨10, 12⟩ "xs"))

/-- There is room for a third item, and none for a fourth. -/
theorem grows_alike_listing :
    listing.Reaches oneList listed ∧ listed.Issued ∧
      Act.EndsBoth (fun flow after other last => flow = other ∧ after.SameVariables last)
        ((exec (callNamed (enter 0)) appending).outcome ⟨listing.functions, oneList⟩ listed)
        ((exec (callNamed (enter 0)) joining).outcome ⟨listing.functions, oneList⟩ listed) ∧
      ((exec (callNamed (enter 0)) appending).outcome
        ⟨listing.functions, oneList⟩ listed).2.unstamped =
          [⟨[[("xs", .list ⟨[.int 1, .int 2, .int 5], 1, 0⟩)], []]⟩] ∧
      Act.EndsBoth (fun flow after other last => flow = other ∧ after.SameVariables last)
        ((exec (callNamed (enter 0)) addingItself).outcome ⟨listing.functions, oneList⟩ listed)
        ((exec (callNamed (enter 0)) joiningItself).outcome ⟨listing.functions, oneList⟩ listed) ∧
      ((exec (callNamed (enter 0)) addingItself).outcome
        ⟨listing.functions, oneList⟩ listed).1.toOption.isNone := by
  have hreached : listing.Reaches oneList listed :=
    ⟨none, Or.inr (Or.inr (Or.inr (Or.inl rfl)))⟩
  have hissued : listed.Issued := Delay.issued_of_still rfl rfl
  have hfive : CalmOperands ⟨listing.functions, oneList⟩ listed (callNamed (enter 0))
      [.int ⟨11, 12⟩ 5] := by
    intro e he value after hrun
    rw [List.mem_singleton.1 he] at hrun
    exact (congrArg (fun ended => ended.2.frames) hrun).symm
  have hitself : CalmOperands ⟨listing.functions, oneList⟩ listed (callNamed (enter 0))
      [.name ⟨10, 12⟩ "xs"] := by
    intro e he value after hrun
    rw [List.mem_singleton.1 he] at hrun
    exact (congrArg (fun ended => ended.2.frames) hrun).symm
  have hall := grows_alike hreached hissued (by decide) 0 (.name ⟨0, 2⟩ "xs") rfl
  have hadded := hall.1 (.int ⟨11, 12⟩ 5) appending extending joining hfive rfl rfl rfl
    appending List.mem_cons_self joining
    (List.mem_cons_of_mem _ (List.mem_cons_of_mem _ List.mem_cons_self))
  have hdoubled := hall.2 (.name ⟨10, 12⟩ "xs") addingItself joiningItself hitself
    (fun v hv => ⟨_, (Option.some.inj hv).symm⟩) rfl rfl
  exact ⟨hreached, hissued, hadded, rfl, hdoubled, rfl⟩

/-- A script whose entry point declares a list of a list and a float that is not a number, and its
copy. -/
def sharing : Program :=
  ⟨[.function ⟨⟨"footprint", .nowhere⟩, [], .mk .nowhere
    [.bind .nowhere ⟨"p", .nowhere⟩ (.list .nowhere [.list .nowhere [], .float .nowhere (0 / 0)]),
      .bind .nowhere ⟨"y", .nowhere⟩ (.name .nowhere "p")], .nowhere⟩]⟩

/-- The state in which the lists are declared: they share their items. -/
def shared : Machine :=
  ⟨[], [⟨[[("p", .list ⟨[.list ⟨[], 1, 0⟩, .float (0 / 0)], 2, 1⟩),
    ("y", .list ⟨[.list ⟨[], 1, 0⟩, .float (0 / 0)], 2, 1⟩)], []]⟩],
    ⟨0, Rounds.zero, 0, 0, 2⟩, fun _ => False⟩

/-- Whether `p` differs from `y`, as an index; no items are added to `p` behind it. -/
def disturbing : Expr :=
  .index .nowhere (.list .nowhere
    [.call .nowhere (.name .nowhere "int")
      [.positional (.binary .nowhere .ne (.name .nowhere "p") (.name .nowhere "y"))],
    .method .nowhere (.name .nowhere "p") ⟨"extend", .nowhere⟩
      [.positional (.list .nowhere [])]]) (.int .nowhere 0)

/-- The item of `p` at that index. -/
def disturbedRow : Expr := .index .nowhere (.name .nowhere "p") disturbing

/-- The integers in every item of `p` that is a list. -/
def rows (machine : Machine) : Option (List (Option (List Int))) :=
  ((held? machine "p").bind Value.sequence?).map fun s =>
    s.items.map fun v => v.sequence?.map fun row => row.items.filterMap Value.int?

/-- The variables of the active calls with what they hold, as literals. -/
def shown (machine : Machine) : List (List (List (String × String))) :=
  machine.frames.map fun locals =>
    locals.scopes.map fun scope => scope.map fun entry => (entry.1, entry.2.literal)

/-- An index that leaves all variables as they are, but not what these share, is not enough:
`append` evaluates it once, and the assignment of the sum evaluates it again, when the lists share
nothing any more and are no longer equal. -/
theorem grows_otherwise :
    sharing.Reaches Limits.standard shared ∧ shared.Issued ∧
      shown ((eval (callNamed (enter 0)) disturbing).outcome
        ⟨sharing.functions, Limits.standard⟩ shared).2 = shown shared ∧
      rows ((exec (callNamed (enter 0)) (.expr .nowhere (.method .nowhere disturbedRow
        ⟨"append", .nowhere⟩ [.positional (.int .nowhere 7)]))).outcome
          ⟨sharing.functions, Limits.standard⟩ shared).2 = some [some [7], none] ∧
      rows ((exec (callNamed (enter 0)) (.assign .nowhere disturbedRow .set
        (.binary .nowhere .add disturbedRow (.list .nowhere [.int .nowhere 7])))).outcome
          ⟨sharing.functions, Limits.standard⟩ shared).2 = some [some [], some [7]] := by
  have hreached : sharing.Reaches Limits.standard shared :=
    ⟨none, Or.inr (Or.inr (Or.inr (Or.inl rfl)))⟩
  have hissued : shared.Issued := Delay.issued_of_still rfl rfl
  exact ⟨hreached, hissued, by decide +kernel, by decide +kernel, by decide +kernel⟩

end Script.Program

end LandPattern
