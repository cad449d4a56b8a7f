import LandPattern.Proofs.Values.Places
import LandPattern.Proofs.Values.Slots

/-!
# Operands and places at a later moment

An operand that leaves the variables as they are has the same value whenever it is evaluated, up to
the stamps that are given meanwhile. A place is resolved to the same steps, read as the component that
they lead to, and written to as that component is.
-/

namespace LandPattern

open Script (Argument AssignOp BinaryOp Expr Name Span Stmt)

/-- The delay of a step that is resumed: stamps that were not given at the start are moved. -/
def Delay.shift (first stamps least operations : Nat) : Delay where
  stamp s := if s < first then s else s + stamps
  first := first
  counts _ := True
  stamps := stamps
  least := least
  operations := operations
  injective := by
    intro s t h
    dsimp only at h
    split at h <;> split at h <;> omega
  shifted s h _ := if_neg (Nat.not_lt.2 h)
  earlier _ _ := trivial

/-- Other stamps for those that were not given at this moment. -/
structure Machine.Renews (machine : Machine) (f : Nat → Nat) : Prop where
  injective : f.Injective
  fixes : ∀ stamp, stamp < machine.meter.nextStamp → f stamp = stamp

theorem Delay.renews_shift (start : Machine) (stamps least operations : Nat) :
    start.Renews (shift start.meter.nextStamp stamps least operations).stamp :=
  ⟨(shift start.meter.nextStamp stamps least operations).injective, fun _ h => if_pos h⟩

/-- A machine that is resumed stands behind its start by a delay. -/
theorem Machine.Resumed.delayed {start machine : Machine} {done : Locals → Locals}
    (h : start.Resumed done machine) (hi : start.Issued) :
    ∃ delay : Delay, start.Renews delay.stamp ∧ delay.first = start.meter.nextStamp ∧
      delay.least = start.meter.operations ∧ (∀ count, delay.counts count) ∧
      delay.Machines (delay.Adding done) start.globals start machine := by
  have hstamps := Nat.add_sub_of_le h.meter.stamps
  have hoperations := Nat.add_sub_of_le h.meter.operations
  generalize machine.meter.nextStamp - start.meter.nextStamp = stamps at hstamps
  generalize machine.meter.operations - start.meter.operations = operations at hoperations
  have hrenews := Delay.renews_shift start stamps start.meter.operations operations
  have hglobals : start.globals.restamp (Delay.shift start.meter.nextStamp stamps
      start.meter.operations operations).stamp = start.globals :=
    Scope.restamp_eq_self hrenews.fixes hi.globals
  have hframes : start.frames.map (Locals.restamp (Delay.shift start.meter.nextStamp stamps
      start.meter.operations operations).stamp) = start.frames :=
    (List.map_congr_left fun locals hlocals =>
      Locals.restamp_eq_self hrenews.fixes (hi.frames locals hlocals)).trans (List.map_id _)
  refine ⟨_, hrenews, rfl, rfl, fun _ => trivial, ?_, rfl, ?_, ?_⟩
  · exact ⟨Nat.le_refl _, hstamps.symm, Nat.le_refl _, hoperations.symm⟩
  · rw [h.globals, hglobals]
  · rw [Delay.Adding, hframes, h.frames]

namespace Script

/-- The index expressions of a place, from the left. -/
def Expr.indices : Expr → List Expr
  | .field _ object _ => object.indices
  | .index _ object position => object.indices ++ [position]
  | _ => []

end Script

/-- The index that a value stands for. -/
def Value.int? : Value → Option Int
  | .int n => some n
  | _ => none

theorem Scope.declare_declare {scope : Scope} {name other : String} {v w : Value}
    (hne : name ≠ other) (h : (scope.lookup name).isSome) :
    (scope.declare other w).declare name v = (scope.declare name v).declare other w := by
  induction scope with
  | nil => cases h
  | cons entry rest ih =>
    obtain ⟨key, held⟩ := entry
    by_cases hname : key = name
    · subst hname
      simp only [Scope.declare, if_neg hne, if_true]
    · have hrest : (List.lookup name rest).isSome := by
        rwa [List.lookup_cons, beq_eq_false_iff_ne.2 (Ne.symm hname)] at h
      by_cases hother : key = other
      · subst hother
        simp only [Scope.declare, if_neg hname, if_true]
      · simp only [Scope.declare, if_neg hname, if_neg hother, ih hrest]

/-- What is declared is seen under its own name alone. -/
theorem Locals.unseen_declare (name : String) (v : Value) :
    Locals.Unseen (fun locals => locals.declare name v) (· ≠ name) where
  get? locals other h := by
    obtain ⟨scopes⟩ := locals
    cases scopes with
    | nil => rfl
    | cons inner outer =>
      simp only [Locals.get?, Locals.declare, List.findSome?_cons, Scope.lookup_declare, if_neg h]
  set locals other w h := by
    obtain ⟨scopes⟩ := locals
    cases scopes with
    | nil => rfl
    | cons inner outer =>
      by_cases hinner : (List.lookup other inner).isSome
      · simp only [Locals.declare, Locals.set, Locals.set.go, Scope.lookup_declare, if_neg h,
          if_pos hinner, Scope.declare_declare h hinner]
      · simp only [Locals.declare, Locals.set, Locals.set.go, Scope.lookup_declare, if_neg h,
          if_neg hinner]

namespace Evaluation

variable {α β : Type} {context : Context} {start : Machine} {done : Locals → Locals}
  {known : String → Prop}

/-- When the step ends with a result from this state, all variables are as they were. -/
def Calm (context : Context) (machine : Machine) (act : Evaluation α) : Prop :=
  ∀ value after, act.outcome context machine = (.ok value, after) → after.frames = machine.frames

/-- A calm step that is resumed ends as at the start, up to the stamps that are given meanwhile. -/
theorem answers_calm (change : (Nat → Nat) → α → α) {act : Evaluation α} (hi : start.Issued)
    (hf : ∀ delay : Delay, Follows delay context (delay.Adding done) start.globals
      (change delay.stamp) act act)
    (hc : Calm context start act) :
    Answers context start done act (act.outcome context start).1.toOption
      (Answers.Only (fun value found => ∃ f, start.Renews f ∧ found = change f value) done) := by
  intro machine hresumed
  obtain ⟨delay, hrenews, hfirst, hleast, hcounts, hbeside⟩ := hresumed.delayed hi
  have hends := (hf delay).ends start machine hbeside (hcounts _)
  cases hstart : act.outcome context start with
  | mk result reached =>
    rw [hstart] at hends
    generalize act.outcome context machine = ended at hends ⊢
    rcases result with fault | value <;> rcases ended with ⟨trouble | found, after⟩
    · exact .inl rfl
    · exact hends.elim
    · exact .inr hends.2
    · obtain ⟨hfound, hafter⟩ := hends
      refine ⟨value, rfl, done, ⟨⟨delay.stamp, hrenews, hfound⟩, rfl⟩, ?_, ?_, ?_, ?_⟩
      · rw [hafter.moved, ← hbeside.moved, hresumed.globals]
      · have hframes : delay.Adding done reached.frames after.frames := hafter.frames
        rw [Delay.Adding, hc value reached hstart] at hframes
        have hmachine : delay.Adding done start.frames machine.frames := hbeside.frames
        rw [hframes, ← hmachine, hresumed.frames]
      · rw [hafter.meters.stamps, ← hfirst]
        exact Nat.le_add_right_of_le hafter.meters.first
      · rw [hafter.meters.operations, ← hleast]
        exact Nat.le_add_right_of_le hafter.meters.least

section Trees

variable {remaining : Nat} {e : Expr}

/-- The value of an expression at this moment. -/
def valueAt? (context : Context) (machine : Machine) (caller : Caller) (e : Expr) : Option Value :=
  ((eval caller e).outcome context machine).1.toOption

/-- The place that an expression names, when its index expressions have these values. -/
def placeOf? (value? : Expr → Option Value) : Expr → Option Place
  | .name span name => some ⟨name, span, []⟩
  | .field _ object field =>
    (placeOf? value? object).bind fun place =>
      some { place with steps := place.steps ++ [.field field] }
  | .index _ object index =>
    (placeOf? value? object).bind fun place => (value? index).bind fun v => v.int?.bind fun p =>
      some { place with steps := place.steps ++ [.index p index.span] }
  | _ => none

theorem answers_eval (hi : start.Issued) (hu : Locals.Unseen done known)
    (hk : ∀ name ∈ e.mentions, known name)
    (hc : Calm context start (eval (callNamed (enter remaining)) e)) :
    Answers context start done (eval (callNamed (enter remaining)) e)
      (valueAt? context start (callNamed (enter remaining)) e)
      (Answers.Only (fun v found => ∃ f, start.Renews f ∧ found = v.restamp f) done) :=
  answers_calm Value.restamp hi (fun delay =>
    follows_eval (callsFollow_enter remaining) (delay.links_adding hu) e hk) hc

theorem answers_position (span : Span) (v : Value) (f : Nat → Nat) :
    Answers context start done (position span (v.restamp f)) v.int? (Answers.Only Eq done) := by
  cases v with
  | int n => exact answers_pure ⟨rfl, rfl⟩
  | _ => exact answers_refuseAt _ _

/-- A place is resolved to the same steps, whenever its index expressions are evaluated. -/
theorem answers_resolve (hi : start.Issued) (hu : Locals.Unseen done known) (e : Expr)
    (hk : ∀ name ∈ e.mentions, known name)
    (hc : ∀ index ∈ e.indices, Calm context start (eval (callNamed (enter remaining)) index)) :
    Answers context start done (resolve (callNamed (enter remaining)) e)
      (placeOf? (valueAt? context start (callNamed (enter remaining))) e)
      (Answers.Only Eq done) := by
  match e with
  | .name span name => exact answers_pure ⟨rfl, rfl⟩
  | .field _ object field =>
    refine answers_then (answers_resolve hi hu object hk hc) fun place found _ hsame => ?_
    subst hsame
    exact answers_pure ⟨rfl, rfl⟩
  | .index _ object index =>
    have hobject := answers_resolve hi hu object
      (fun name hname => hk name (List.mem_append_left _ hname))
      fun other hother => hc other (List.mem_append_left _ hother)
    have hindex := answers_eval hi hu (fun name hname => hk name (List.mem_append_right _ hname))
      (hc index (List.mem_append_right _ List.mem_cons_self))
    refine answers_then hobject fun place found _ hsame => ?_
    subst hsame
    refine answers_then hindex fun v w _ hrenewed => ?_
    obtain ⟨f, -, rfl⟩ := hrenewed
    refine answers_then (answers_position index.span v f) fun p q _ hsame => ?_
    subst hsame
    exact answers_pure ⟨rfl, rfl⟩
  | .int _ _ | .float _ _ | .text _ _ | .bool _ _ | .none _ | .list _ _ | .tuple _ _
  | .unary _ _ _ | .binary _ _ _ _ | .call _ _ _ | .method _ _ _ _ =>
    exact answers_refuseAt _ _
termination_by structural e

/-- What a name stands for at this moment, when something was done to the variables. -/
def meaning? (context : Context) (machine : Machine) (done : Locals → Locals) (name : String) :
    Option Value :=
  match (machine.frames.head?.map done).bind fun locals => locals.get? name,
    machine.globals.lookup name with
  | some v, _ => some v
  | none, some v => some v
  | none, none =>
    if (context.function? name).isSome then some (.function name)
    else (Builtin.ofName? name).map .builtin

theorem answers_lookup (name : String) :
    Answers context start done (lookup name) (meaning? context start done name)
      (Answers.Only Eq done) := by
  unfold lookup
  refine Eq.mp (congrArg (Answers context start done _ · _) ?_) (answers_consult _)
  unfold meaning?
  cases (start.frames.head?.map done).bind fun locals => locals.get? name with
  | some v => rfl
  | none =>
    cases start.globals.lookup name with
    | some v => rfl
    | none =>
      dsimp only
      split
      · rfl
      · cases Builtin.ofName? name <;> rfl

/-- The component that the place of an expression reads at this moment. -/
def component? (context : Context) (machine : Machine) (caller : Caller) (e : Expr) :
    Option Value :=
  (placeOf? (valueAt? context machine caller) e).bind fun place =>
    (meaning? context machine id place.root).bind fun v => v.at? place.steps

theorem component?_field (span : Span) (object : Expr) (field : Name) {caller : Caller} :
    component? context start caller (.field span object field) =
      (component? context start caller object).bind fun v => v.stepTo? (.field field) := by
  simp only [component?, placeOf?, Option.bind_assoc, Option.bind_some, Value.at?_append]

/-- The steps are read where the object is, and the index is evaluated behind it. -/
theorem component?_index (span : Span) (object index : Expr) {caller : Caller} :
    component? context start caller (.index span object index) =
      (component? context start caller object).bind fun v =>
        (valueAt? context start caller index).bind fun w => w.int?.bind fun p =>
          v.stepTo? (.index p index.span) := by
  simp only [component?, placeOf?]
  cases placeOf? (valueAt? context start caller) object with
  | none => rfl
  | some place =>
    cases valueAt? context start caller index with
    | none => simp only [Option.bind_some, Option.bind_none, Option.bind_fun_none]
    | some w =>
      cases hw : w.int? with
      | none => simp only [Option.bind_some, Option.bind_none, Option.bind_fun_none, hw]
      | some p => simp only [Option.bind_some, Option.bind_assoc, Value.at?_append, hw]

/-- A place is read as the component that its steps lead to. -/
theorem answers_place (hi : start.Issued) (e : Expr) (hp : e.isPlace)
    (hc : ∀ index ∈ e.indices, Calm context start (eval (callNamed (enter remaining)) index)) :
    Answers context start id (eval (callNamed (enter remaining)) e)
      (component? context start (callNamed (enter remaining)) e)
      (Answers.Only Value.Restocked id) := by
  have hsame {act : Evaluation Value} {expected : Option Value}
      (h : Answers context start id act expected (Answers.Only Eq id)) :
      Answers context start id act expected (Answers.Only Value.Restocked id) := by
    refine h.weaken ?_
    rintro v found machine ⟨after, ⟨rfl, rfl⟩, hresumed⟩
    exact ⟨_, ⟨.inl rfl, rfl⟩, hresumed⟩
  unfold eval
  refine answers_counted (answers_locating _ (answers_noting (answers_charged ?_)))
  match e with
  | .name span name =>
    simp only [component?, placeOf?, Option.bind_some, Value.at?_nil, Option.bind_fun_some]
    exact hsame (answers_lookup name)
  | .field span object field =>
    rw [component?_field]
    refine answers_then (answers_place hi object hp hc) fun v found _ hfound =>
      answers_locating _ ?_
    exact answers_ofMetered (.readField _ _) (Value.answers_readField hfound field)
  | .index span object index =>
    have hobject := answers_place hi object hp fun other hother =>
      hc other (List.mem_append_left _ hother)
    have hindex := answers_eval hi Locals.unseen_id (fun _ _ => trivial)
      (hc index (List.mem_append_right _ List.mem_cons_self))
    rw [component?_index]
    refine answers_then hobject fun v found _ hfound => ?_
    refine answers_then hindex fun w other _ hrenewed => ?_
    obtain ⟨f, -, rfl⟩ := hrenewed
    refine answers_then (answers_position index.span w f) fun p q _ heq => ?_
    subst heq
    rw [hfound.readIndex]
    exact answers_locating _ (hsame answers_ofExcept)
termination_by structural e

/-- Wherever the step is resumed, it leaves the variables as they were at the start. -/
def Settled (context : Context) (start : Machine) (act : Evaluation α) : Prop :=
  ∀ machine, start.Resumed id machine → ∀ value after,
    act.outcome context machine = (.ok value, after) → start.Resumed id after

theorem Settled.bind {act : Evaluation α} {next : α → Evaluation β}
    (h : Settled context start act) (hn : ∀ value, Settled context start (next value)) :
    Settled context start (act >>= next) := by
  intro machine hresumed result after hrun
  obtain ⟨value, middle, hact, hnext⟩ := Act.exists_of_bind_ok hrun
  exact hn value middle (h machine hresumed value middle hact) result after hnext

theorem settled_eval (hi : start.Issued)
    (hc : Calm context start (eval (callNamed (enter remaining)) e)) :
    Settled context start (eval (callNamed (enter remaining)) e) := by
  intro machine hresumed value after hrun
  have hends := answers_eval hi Locals.unseen_id (fun _ _ => trivial) hc machine hresumed
  rw [hrun] at hends
  obtain ⟨_, -, _, ⟨-, rfl⟩, hafter⟩ := hends
  exact hafter

/-- Arguments that are calm at the start are calm behind one another. -/
theorem settled_evalArgs (hi : start.Issued) (given : Arguments) (args : List Argument)
    (hc : ∀ arg ∈ args, Calm context start (eval (callNamed (enter remaining)) arg.value)) :
    Settled context start (evalArgs (callNamed (enter remaining)) given args) := by
  induction args generalizing given with
  | nil =>
    intro machine hresumed value after hrun
    cases hrun
    exact hresumed
  | cons arg rest ih =>
    have hrest (more : Arguments) := ih more fun other hother =>
      hc other (List.mem_cons_of_mem _ hother)
    have hfirst := settled_eval hi (hc arg List.mem_cons_self)
    cases arg with
    | positional e => exact hfirst.bind fun v => hrest (given.add v)
    | keyword name e =>
      refine hfirst.bind fun v => .bind ?_ hrest
      intro machine hresumed value after hrun
      rw [locating, Act.outcome_mapFault] at hrun
      cases hmore : given.addKeyword name.text v with
      | error why =>
        rw [hmore] at hrun
        cases hrun
      | ok more =>
        rw [hmore] at hrun
        cases hrun
        exact hresumed

/-- The arguments of a call at this moment. -/
def argumentsAt? (context : Context) (machine : Machine) (caller : Caller) (args : List Argument) :
    Option Arguments :=
  ((evalArgs caller .empty args).outcome context machine).1.toOption

theorem answers_evalArgs (hi : start.Issued) (hu : Locals.Unseen done known) (args : List Argument)
    (hk : ∀ name ∈ Script.argumentMentions args, known name)
    (hc : ∀ arg ∈ args, Calm context start (eval (callNamed (enter remaining)) arg.value)) :
    Answers context start done (evalArgs (callNamed (enter remaining)) .empty args)
      (argumentsAt? context start (callNamed (enter remaining)) args)
      (Answers.Only (fun given found => ∃ f, start.Renews f ∧ found = given.restamp f) done) := by
  refine answers_calm Arguments.restamp hi (fun delay => ?_) ?_
  · exact follows_evalArgs (callsFollow_enter remaining) (delay.links_adding hu) .empty args hk
  · intro given after hrun
    have hafter := settled_evalArgs hi .empty args hc start (.refl start) given after hrun
    rw [hafter.frames, List.modifyHead_id, id]

end Trees

/-- A variable of the innermost call is written to as the component that the steps lead to. -/
theorem answers_updatePlace {written : Value → Option (Value × β)} (same : β → α → Prop)
    {write : Value → Metered (Value × α)} (place : Place)
    (hr : ∀ old, (write old).Regular)
    (hw : ∀ root old other,
      ((start.frames.head?.map done).bind fun locals => locals.get? place.root) = some root →
      root.at? place.steps = some old → old.Restocked other →
      Metered.Answers context.limits (write other) (written old)
        fun x y => x.1.Like y.1 ∧ same x.2 y.2) :
    Answers context start done (updatePlace place write)
      (((start.frames.head?.map done).bind fun locals => locals.get? place.root).bind fun root =>
        root.rewriteWithin? context.limits place.steps written)
      fun x y after => same x.2 y ∧ ∃ v, x.1.Like v ∧
        after = (fun locals => locals.set place.root v) ∘ done := by
  have hlocal : Answers context start done (local? place.root)
      (some ((start.frames.head?.map done).bind fun locals => locals.get? place.root))
      (Answers.Only Eq done) := answers_consult _
  refine answers_seq hlocal fun found heq => ?_
  subst heq
  cases hroot : (start.frames.head?.map done).bind fun locals => locals.get? place.root with
  | none => exact .fails fun _ => .fault _
  | some root =>
    have hcall : start.frames.head?.map (fun _ => ()) = some () := by
      cases hhead : start.frames.head? with
      | none =>
        rw [hhead] at hroot
        cases hroot
      | some locals => rfl
    have hregular : (root.updateWithin place.steps write).Regular :=
      .updateWithin (fun _ _ why _ => Fault.untimed_locate why _) hr
    have hupdate := Value.answers_updateWithin root place.steps fun old other hold hother =>
      hw root old other hroot hold hother
    dsimp only [Option.bind_some]
    rw [← Option.bind_fun_some (root.rewriteWithin? context.limits place.steps written)]
    refine answers_then (answers_ofMetered hregular hupdate) fun x found _ hsame => ?_
    obtain ⟨whole, result⟩ := found
    have hchange : Answers context start done _ _ _ :=
      answers_modifyLocals fun locals => locals.set place.root whole
    rw [hcall] at hchange
    refine .seq hchange fun _ machine hmachine => ?_
    obtain ⟨after, hafter, hresumed⟩ := hmachine
    exact answers_pure ⟨hsame.2, whole, hsame.1, hafter⟩ machine hresumed

end Evaluation

end LandPattern
