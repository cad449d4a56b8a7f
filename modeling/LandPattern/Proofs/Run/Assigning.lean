import LandPattern.Proofs.Run.Resuming

/-!
# Assignments with an operator

An assignment with an operator writes to a component in its place, after its operand and the indices
were evaluated. Reading the component, computing with the operand and storing the result does the
same in another order: the component is read before the operand is evaluated, and the indices are
evaluated twice.
-/

namespace LandPattern

open Script (Argument AssignOp BinaryOp Expr Name Span Stmt)

namespace Evaluation

variable {α β γ : Type} {context : Context} {start : Machine} {done : Locals → Locals}
  {known : String → Prop} {remaining : Nat}

/-- The variable of the innermost call with this name. -/
def held? (machine : Machine) (name : String) : Option Value :=
  machine.frames.head?.bind fun locals => locals.get? name

/-- What is left of a variable when the component at a place is written to. -/
def rewriteAt? (context : Context) (machine : Machine) (place : Place)
    (written : Value → Option (Value × β)) : Option (Value × β) :=
  (held? machine place.root).bind fun root =>
    root.rewriteWithin? context.limits place.steps written

/-- The variable that an assignment changes, and what is left of it. -/
def assigned? (context : Context) (machine : Machine) (caller : Caller) (target : Expr)
    (written : Value → Option (Value × Unit)) : Option (String × Value) :=
  (placeOf? (valueAt? context machine caller) target).bind fun place =>
    (rewriteAt? context machine place written).bind fun whole => some (place.root, whole.1)

theorem held?_unseen (hu : Locals.Unseen done known) {name : String} (hk : known name) :
    ((start.frames.head?.map done).bind fun locals => locals.get? name) = held? start name := by
  unfold held?
  cases start.frames.head? with
  | none => rfl
  | some locals => exact hu.get? locals hk

/-- A variable has the meaning of its name. -/
theorem meaning?_held {name : String} {v : Value} (h : held? start name = some v) :
    meaning? context start id name = some v := by
  have hid : (start.frames.head?.map id).bind (fun locals => locals.get? name) = some v := by
    rw [Option.map_id, id]
    exact h
  simp only [meaning?, hid]

theorem root_mem_of_placeOf? {value? : Expr → Option Value} (e : Expr) {place : Place}
    (h : placeOf? value? e = some place) : place.root ∈ e.root := by
  match e with
  | .name span name =>
    cases h
    exact List.mem_cons_self
  | .field _ object field =>
    obtain ⟨inner, hinner, heq⟩ := Option.bind_eq_some_iff.1 h
    cases heq
    exact (root_mem_of_placeOf? object hinner : inner.root ∈ object.root)
  | .index _ object index =>
    obtain ⟨inner, hinner, hrest⟩ := Option.bind_eq_some_iff.1 h
    obtain ⟨v, -, hlast⟩ := Option.bind_eq_some_iff.1 hrest
    obtain ⟨p, -, heq⟩ := Option.bind_eq_some_iff.1 hlast
    cases heq
    exact (root_mem_of_placeOf? object hinner : inner.root ∈ object.root)
  | .int _ _ | .float _ _ | .text _ _ | .bool _ _ | .none _ | .list _ _ | .tuple _ _
  | .unary _ _ _ | .binary _ _ _ _ | .call _ _ _ | .method _ _ _ _ => cases h
termination_by structural e

/-- A place outside what was done to the variables is written to as at the start. -/
theorem answers_rewriteAt (hu : Locals.Unseen done known) {place : Place} (hk : known place.root)
    {written : Value → Option (Value × β)} (same : β → α → Prop)
    {write : Value → Metered (Value × α)} (hr : ∀ old, (write old).Regular)
    (hw : ∀ root old other, held? start place.root = some root →
      root.at? place.steps = some old → old.Restocked other →
      Metered.Answers context.limits (write other) (written old)
        fun x y => x.1.Like y.1 ∧ same x.2 y.2) :
    Answers context start done (updatePlace place write) (rewriteAt? context start place written)
      fun x y after => same x.2 y ∧ ∃ v, x.1.Like v ∧
        after = (fun locals => locals.set place.root v) ∘ done := by
  unfold rewriteAt?
  rw [← held?_unseen hu hk] at hw ⊢
  exact answers_updatePlace same place hr hw

/-- An assignment whose value is computed by then. -/
theorem answers_assign (hi : start.Issued) (hu : Locals.Unseen done known) {value : Expr}
    {expected : Option γ} {same : γ → Value → Prop}
    (hv : Answers context start done (eval (callNamed (enter remaining)) value) expected
      (Answers.Only same done))
    (span : Span) (target : Expr) (hk : ∀ name ∈ target.mentions, known name)
    (hc : ∀ index ∈ target.indices, Calm context start (eval (callNamed (enter remaining)) index))
    (op : AssignOp) {written : γ → Value → Option (Value × Unit)}
    (hw : ∀ x v old other, same x v → old.Restocked other →
      Metered.Answers context.limits (do return (← other.assigned op v, ())) (written x old)
        fun y z => y.1.Like z.1 ∧ y.2 = z.2) :
    Answers context start done (exec (callNamed (enter remaining)) (.assign span target op value))
      (expected.bind fun x =>
        assigned? context start (callNamed (enter remaining)) target (written x))
      fun x flow after => flow = .next ∧ ∃ v, x.2.Like v ∧
        after = (fun locals => locals.set x.1 v) ∘ done := by
  unfold exec
  refine answers_counted (answers_chargedAt span ?_)
  refine answers_then hv fun x v _ hsame => ?_
  refine answers_then (answers_resolve hi hu target hk hc) fun place found hplace heq => ?_
  subst heq
  have hroot := hk _ (target.root_subset_mentions _ (root_mem_of_placeOf? target hplace))
  have hstore : Answers context start done (store place op v)
      (rewriteAt? context start place (written x)) fun y _ after => ∃ w, y.1.Like w ∧
        after = (fun locals => locals.set place.root w) ∘ done := by
    refine (answers_rewriteAt hu hroot Eq (fun old => ?_) fun _ old other _ _ hold =>
      hw x v old other hsame hold).weaken ?_
    · exact .bind (.assigned op old v) fun _ => .pure _
    · rintro y z machine ⟨after, ⟨-, hafter⟩, hresumed⟩
      exact ⟨after, hafter, hresumed⟩
  refine answers_bind (answers_locating target.span hstore) fun y _ after _ hafter => ?_
  exact answers_pure ⟨rfl, hafter⟩

/-- What an assignment with an operator computes from alike values. -/
theorem exists_combined (limits : Limits) (op : AssignOp) :
    ∃ combined : Value → Value → Option Value, ∀ old x old' x', old.Like old' → x.Like x' →
      Metered.Answers limits (old'.assigned op x') (combined old x) Value.Like := by
  have hsame (old x : Value) := Metered.exists_answers
    fun i j : {pair : Value × Value // old.Like pair.1 ∧ x.Like pair.2} =>
      show Metered.Coincide limits Value.Like (i.1.1.assigned op i.1.2) (j.1.1.assigned op j.1.2) from
        Metered.coincide_assigned op (i.2.1.symm.trans j.2.1) (i.2.2.symm.trans j.2.2)
  choose combined hcombined using hsame
  exact ⟨combined, fun old x old' x' hold hx => (hcombined old x).1 ⟨(old', x'), hold, hx⟩⟩

/-- A calm operand has its value at the start, up to stamps. -/
theorem answers_alike (hi : start.Issued) {e : Expr}
    (hc : Calm context start (eval (callNamed (enter remaining)) e)) :
    Answers context start id (eval (callNamed (enter remaining)) e)
      (valueAt? context start (callNamed (enter remaining)) e) (Answers.Only Value.Like id) := by
  refine (answers_eval hi Locals.unseen_id (fun _ _ => trivial) hc).weaken ?_
  rintro x v machine ⟨after, ⟨⟨f, -, rfl⟩, rfl⟩, hresumed⟩
  exact ⟨_, ⟨(x.unstamped_restamp f).symm, rfl⟩, hresumed⟩

/-- The statement changes this variable to this value, up to stamps, and nothing else. -/
abbrev Assigns (context : Context) (start : Machine) (act : Evaluation Flow)
    (expected : Option (String × Value)) : Prop :=
  Answers context start id act expected fun x flow after => flow = .next ∧ ∃ v, x.2.Like v ∧
    after = (fun locals => locals.set x.1 v) ∘ id

section Operators

variable {combined : Value → Value → Option Value} {op : AssignOp} {expected : Option Value}

/-- The operator in an expression reads the component first. -/
theorem answers_operator
    (hcombined : ∀ old x old' x', old.Like old' → x.Like x' →
      Metered.Answers context.limits (old'.assigned op x') (combined old x) Value.Like)
    (hi : start.Issued) {operator : BinaryOp} (hop : op.operator? = some operator) (span : Span)
    (target value : Expr) (hp : target.isPlace)
    (hc : ∀ index ∈ target.indices, Calm context start (eval (callNamed (enter remaining)) index))
    (hv : Answers context start id (eval (callNamed (enter remaining)) value) expected
      (Answers.Only Value.Like id)) :
    Answers context start id
      (eval (callNamed (enter remaining)) (.binary span operator target value))
      ((component? context start (callNamed (enter remaining)) target).bind fun old =>
        expected.bind fun x => combined old x)
      (Answers.Only Value.Like id) := by
  have hcombine (a b : Value) : a.assigned op b = a.combine operator b := by
    unfold Value.assigned
    rw [hop]
  have hoperands : Answers context start id
      (do
        let a ← eval (callNamed (enter remaining)) target
        let b ← eval (callNamed (enter remaining)) value
        ofMetered (a.combine operator b))
      ((component? context start (callNamed (enter remaining)) target).bind fun old =>
        expected.bind fun x => combined old x)
      (Answers.Only Value.Like id) := by
    refine answers_then (answers_place hi target hp hc) fun old a _ ha => ?_
    refine answers_then hv fun x b _ hb => ?_
    have hresult := hcombined old x a b ha.like hb
    rw [hcombine] at hresult
    exact answers_ofMetered (.combine operator a _) hresult
  unfold eval
  refine answers_counted (answers_locating _ (answers_noting (answers_charged ?_)))
  cases op <;> cases hop <;> exact hoperands

/-- The assignment with an operator. -/
theorem answers_inPlace
    (hcombined : ∀ old x old' x', old.Like old' → x.Like x' →
      Metered.Answers context.limits (old'.assigned op x') (combined old x) Value.Like)
    (hi : start.Issued) (span : Span) (target value : Expr)
    (hc : ∀ index ∈ target.indices, Calm context start (eval (callNamed (enter remaining)) index))
    (hcv : Calm context start (eval (callNamed (enter remaining)) value)) :
    Assigns context start (exec (callNamed (enter remaining)) (.assign span target op value))
      ((valueAt? context start (callNamed (enter remaining)) value).bind fun x =>
        assigned? context start (callNamed (enter remaining)) target fun old =>
          (combined old x).bind fun c => some (c, ())) := by
  refine answers_assign hi Locals.unseen_id (answers_alike hi hcv) span target (fun _ _ => trivial)
    hc op fun x v old other hv hother => ?_
  exact Metered.answers_bind (hcombined old x other v hother.like hv)
    fun c found _ hfound => Metered.answers_pure ⟨hfound, rfl⟩

/-- The assignment of what the operator gives. -/
theorem answers_assignOperator
    (hcombined : ∀ old x old' x', old.Like old' → x.Like x' →
      Metered.Answers context.limits (old'.assigned op x') (combined old x) Value.Like)
    (hi : start.Issued) {operator : BinaryOp} (hop : op.operator? = some operator)
    (span inner : Span) (target value : Expr) (hp : target.isPlace)
    (hc : ∀ index ∈ target.indices, Calm context start (eval (callNamed (enter remaining)) index))
    (hv : Answers context start id (eval (callNamed (enter remaining)) value) expected
      (Answers.Only Value.Like id)) :
    Assigns context start
      (exec (callNamed (enter remaining))
        (.assign span target .set (.binary inner operator target value)))
      (((component? context start (callNamed (enter remaining)) target).bind fun old =>
        expected.bind fun x => combined old x).bind fun c =>
          assigned? context start (callNamed (enter remaining)) target fun _ => some (c, ())) :=
  answers_assign hi Locals.unseen_id
    (answers_operator hcombined hi hop inner target value hp hc hv) span target (fun _ _ => trivial)
    hc .set fun _ _ _ _ hv _ => Metered.answers_pure ⟨hv, rfl⟩

/-- Both ways write the same. -/
theorem assigned?_operator (caller : Caller) (target : Expr) :
    (((component? context start caller target).bind fun old =>
      expected.bind fun x => combined old x).bind fun c =>
        assigned? context start caller target fun _ => some (c, ())) =
      expected.bind fun x =>
        assigned? context start caller target fun old =>
          (combined old x).bind fun c => some (c, ()) := by
  unfold component? assigned?
  cases placeOf? (valueAt? context start caller) target with
  | none => simp only [Option.bind_none, Option.bind_fun_none]
  | some place =>
    cases expected with
    | none => simp only [Option.bind_none, Option.bind_fun_none]
    | some x =>
      unfold rewriteAt?
      cases hroot : held? start place.root with
      | none => simp only [Option.bind_some, Option.bind_none, Option.bind_fun_none, hroot]
      | some root =>
        simp only [Option.bind_some, meaning?_held hroot, hroot]
        rw [root.rewriteWithin?_eq_at? context.limits place.steps fun old =>
          (combined old x).bind fun c => some (c, ())]
        simp only [Option.bind_assoc, Option.bind_some]

end Operators

end Evaluation

/-- The variables of the active calls, innermost first, apart from their stamps. -/
def Machine.unstamped (machine : Machine) : List Locals :=
  machine.frames.map (Locals.restamp fun _ => 0)

/-- A variable that is written to behind something that was done before. -/
theorem Machine.Resumed.unstamped_set {start machine : Machine} {done : Locals → Locals}
    (plain : Locals → Locals) {name : String} {v w : Value}
    (h : start.Resumed ((fun locals => locals.set name w) ∘ done) machine) (hv : v.Like w)
    (hd : ∀ locals : Locals, (done locals).restamp (fun _ => 0) = plain (locals.restamp fun _ => 0)) :
    machine.unstamped =
      start.unstamped.modifyHead ((fun locals => locals.set name v.unstamped) ∘ plain) := by
  unfold Machine.unstamped
  rw [h.frames, hv]
  cases start.frames with
  | nil => rfl
  | cons locals outer =>
    refine congrArg (· :: _) ?_
    exact (Locals.set_restamp _ _ name w).trans (congrArg (Locals.set · name _) (hd locals))

/-- Both ends leave the same constants and, apart from their stamps, the same variables. -/
structure Machine.SameVariables (machine other : Machine) : Prop where
  globals : machine.globals = other.globals
  frames : machine.unstamped = other.unstamped

/-- Statements of which the same change is expected end alike. -/
theorem Evaluation.Assigns.ends {context : Context} {start : Machine} {act other : Evaluation Flow}
    {expected : Option (String × Value)} (h : Assigns context start act expected)
    (ho : Assigns context start other expected) :
    Act.EndsBoth (fun flow after other last => flow = other ∧ after.SameVariables last)
      (act.outcome context start) (other.outcome context start) := by
  have hfirst := h start (.refl start)
  have hsecond := ho start (.refl start)
  refine hfirst.both hsecond fun x flow after other last _ hafter hlast => ?_
  obtain ⟨_, ⟨rfl, v, hv, rfl⟩, hresumed⟩ := hafter
  obtain ⟨_, ⟨rfl, w, hw, rfl⟩, hmet⟩ := hlast
  refine ⟨rfl, hresumed.globals.trans hmet.globals.symm, ?_⟩
  rw [hresumed.unstamped_set id hv fun _ => rfl, hmet.unstamped_set id hw fun _ => rfl]

/-- An assignment with an operator ends as the assignment of what the operator gives. -/
theorem Evaluation.ends_operator {context : Context} {start : Machine} (hi : start.Issued)
    {remaining : Nat} {op : AssignOp} {operator : BinaryOp} (hop : op.operator? = some operator)
    (span outer inner : Span) (target value : Expr) (hp : target.isPlace)
    (hc : ∀ index ∈ target.indices, Calm context start (eval (callNamed (enter remaining)) index))
    (hcv : Calm context start (eval (callNamed (enter remaining)) value)) :
    Act.EndsBoth (fun flow after other last => flow = other ∧ after.SameVariables last)
      ((exec (callNamed (enter remaining)) (.assign span target op value)).outcome context start)
      ((exec (callNamed (enter remaining))
        (.assign outer target .set (.binary inner operator target value))).outcome context start) := by
  obtain ⟨combined, hcombined⟩ := exists_combined context.limits op
  have hsecond := answers_assignOperator hcombined hi hop outer inner target value hp hc
    (answers_alike hi hcv)
  rw [assigned?_operator] at hsecond
  exact (answers_inPlace hcombined hi span target value hc hcv).ends hsecond

end LandPattern
