import LandPattern.Proofs.Run.Parameters

/-!
# Calls of script functions

A call evaluates its arguments from the left and enters the function with the variables that are
bound to them, if they cover every parameter once. Otherwise it ends with a fault before the function
is entered. The variables are the parameters and nothing else, and do not depend on the order in
which the named arguments are written.
-/

namespace LandPattern

open Script (Argument Function Name Span)

namespace Evaluation

/-- The arguments of a call are evaluated one after another, from one machine to another, and supply
these values. -/
inductive Supplies (caller : Caller) (context : Context) :
    Machine → List Argument → Given → Machine → Prop where
  | nothing (machine : Machine) : Supplies caller context machine [] [] machine
  | unnamed {start middle after : Machine} {e : Script.Expr} {v : Value} {rest : List Argument}
    {given : Given} (h : (eval caller e).outcome context start = (.ok v, middle))
    (hrest : Supplies caller context middle rest given after) :
    Supplies caller context start (.positional e :: rest) ((none, v) :: given) after
  | named {start middle after : Machine} {name : Name} {e : Script.Expr} {v : Value}
    {rest : List Argument} {given : Given}
    (h : (eval caller e).outcome context start = (.ok v, middle))
    (hrest : Supplies caller context middle rest given after) :
    Supplies caller context start (.keyword name e :: rest) ((some name.text, v) :: given) after

variable {caller : Caller} {context : Context}

/-- Arguments are collected while they are evaluated; a name that is given twice is refused as soon
as its second value is known. -/
theorem evalArgs_of_supplies {start after : Machine} {args : List Argument} {given : Given}
    (h : Supplies caller context start args given after) (done : Arguments) :
    match given.foldlM Arguments.give done with
    | .ok collected => (evalArgs caller done args).outcome context start = (.ok collected, after)
    | .error _ => ∃ fault last,
        (evalArgs caller done args).outcome context start = (.error fault, last) := by
  induction h generalizing done with
  | nothing machine => rfl
  | @unnamed start middle after e v rest given h hrest ih =>
    have hstep : (evalArgs caller done (.positional e :: rest)).outcome context start =
        (evalArgs caller (done.add v) rest).outcome context middle := by
      rw [evalArgs, Act.outcome_bind_ok _ _ h]
    rw [hstep]
    exact ih (done.add v)
  | @named start middle after name e v rest given h hrest ih =>
    rw [List.foldlM_cons, evalArgs, Act.outcome_bind_ok _ _ h]
    change match done.addKeyword name.text v >>= fun more => given.foldlM Arguments.give more with
      | .ok collected => _
      | .error _ => _
    cases hmore : done.addKeyword name.text v with
    | error why =>
      exact ⟨_, _, Act.outcome_bind_error _ _ (by rw [locating, Act.outcome_mapFault]; rfl) _⟩
    | ok more =>
      have hcollect : (locating name.span (Act.ofExcept (.ok more) : Evaluation Arguments)).outcome
          context middle = (.ok more, middle) := by
        rw [locating, Act.outcome_mapFault]
        rfl
      rw [Act.outcome_bind_ok _ _ hcollect]
      exact ih more

/-- A call of a function of the script, from where its arguments are evaluated on. -/
def callFunction (enter : Entrance) (word : String) (args : List Argument)
    (calleeSpan callSpan : Span) : Evaluation Value := do
  let collected ← evalArgs (callNamed enter) Arguments.empty args
  apply (callNamed enter) (.function word) calleeSpan collected callSpan

variable {enter : Entrance} {function : Function} {word : String}

theorem outcome_callNamed (hf : context.function? word = some function) (args : Arguments)
    (callSpan : Span) (machine : Machine) :
    (callNamed enter word args callSpan).outcome context machine =
      (do enter function (← Act.ofExcept (bindParams function args)) callSpan).outcome
        context machine := by
  unfold callNamed
  refine Act.outcome_bind_ok context machine (?_ : _ = (Except.ok function, machine)) _
  simp only [consult, Act.outcome_bind, Act.outcome_read, Act.outcome_get, hf]
  rfl

/-- Once its arguments are evaluated, a call enters the function with the variables that are bound
to them, or ends with a fault. -/
theorem outcome_callFunction (hf : context.function? word = some function) {start after : Machine}
    {args : List Argument} {given : Given}
    (h : Supplies (callNamed enter) context start args given after) (calleeSpan callSpan : Span) :
    match Arguments.gather given >>= bindParams function with
    | .ok scope => (callFunction enter word args calleeSpan callSpan).outcome context start =
        (enter function scope callSpan).outcome context after
    | .error _ => ∃ fault last,
        (callFunction enter word args calleeSpan callSpan).outcome context start =
          (.error fault, last) := by
  have hargs := evalArgs_of_supplies h Arguments.empty
  rw [← Arguments.gather] at hargs
  cases hgather : Arguments.gather given with
  | error why =>
    rw [hgather] at hargs
    obtain ⟨fault, last, hfault⟩ := hargs
    exact ⟨fault, last, Act.outcome_bind_error _ _ hfault _⟩
  | ok collected =>
    rw [hgather] at hargs
    have hcall : (callFunction enter word args calleeSpan callSpan).outcome context start =
        (do enter function (← Act.ofExcept (bindParams function collected)) callSpan).outcome
          context after := by
      rw [callFunction, Act.outcome_bind_ok _ _ hargs, apply, outcome_callNamed hf]
    rw [hcall]
    change match bindParams function collected with
      | .ok scope => _
      | .error _ => _
    cases bindParams function collected with
    | error why => exact ⟨Fault.refusal why, after, rfl⟩
    | ok scope => rfl

/-- A call binds every argument once. Where no parameter is named twice, the arguments are accepted
if and only if they cover every parameter once. The variables of the call are then the parameters and
nothing else: each holds the positional value in its place if there is one, and the value under its
name otherwise. Another order of the named values, which are evaluated already, changes neither.
With accepted arguments the function is entered with these variables, however functions are entered;
with others the call ends with a fault. -/
theorem call_binds_once (function : Function) (hd : (function.params.map Name.text).Nodup)
    (given : Given) :
    let params := function.params.map Name.text
    let bound (given : Given) := Arguments.gather given >>= bindParams function
    ((∃ scope, bound given = .ok scope) ↔ given.Covers params) ∧
    (∀ scope, bound given = .ok scope → scope.names = params ∧
      (∀ name, name ∉ params → (Locals.ofParams scope).get? name = none) ∧
      ∀ (i : Nat) (hi : i < params.length), ∃ v, (Locals.ofParams scope).get? params[i] = some v ∧
        given.positional[i]?.or (given.named.lookup params[i]) = some v) ∧
    (∀ other : Given, other.positional = given.positional → other.named.Perm given.named →
      (bound other).toOption = (bound given).toOption) ∧
    ∀ (enter : Entrance) (context : Context) (word : String) (args : List Argument)
      (start after : Machine) (calleeSpan callSpan : Span), context.function? word = some function →
      Supplies (callNamed enter) context start args given after →
      match bound given with
      | .ok scope => (callFunction enter word args calleeSpan callSpan).outcome context start =
          (enter function scope callSpan).outcome context after
      | .error _ => ∃ fault last,
          (callFunction enter word args calleeSpan callSpan).outcome context start =
            (.error fault, last) := by
  intro params bound
  refine ⟨⟨?_, exists_scope_of_covers hd⟩, fun scope hscope => ?_,
    fun other hpositional hnamed => ?_,
    fun enter context word args start after calleeSpan callSpan hf h =>
      outcome_callFunction hf h calleeSpan callSpan⟩
  · rintro ⟨scope, hscope⟩
    exact (scope_of_gathered hd hscope).1
  · obtain ⟨-, hnames, hvalues⟩ := scope_of_gathered hd hscope
    refine ⟨hnames, fun name hname => ?_, fun i hi => ?_⟩
    · have hmissing : name ∉ scope.names := by rwa [hnames]
      rw [Locals.get?, Locals.ofParams, List.findSome?_singleton]
      exact Entries.lookup_eq_none_iff.2 hmissing
    have hmem : params[i] ∈ scope.names := hnames ▸ List.getElem_mem hi
    obtain ⟨v, hv⟩ := Option.isSome_iff_exists.1 ((Scope.isSome_lookup_iff scope _).2 hmem)
    refine ⟨v, ?_, (hvalues i hi).symm.trans hv⟩
    rw [Locals.get?, Locals.ofParams, List.findSome?_singleton, hv]
  · have hsame {one two : Given} (hp : one.positional = two.positional)
        (hn : one.named.Perm two.named) {scope : Scope} (h : (bound two).toOption = some scope) :
        (bound one).toOption = some scope := by
      cases hbound : bound two with
      | error why =>
        rw [hbound] at h
        cases h
      | ok found =>
        rw [hbound] at h
        cases h
        rw [show bound one = .ok scope from gathered_of_perm hd hp hn hbound]
        rfl
    refine Option.ext fun scope => ⟨hsame hpositional.symm hnamed.symm, hsame hpositional hnamed⟩

/-- A function of three parameters is called with its first value by position and the others by name
in another order. It is entered with all of them; with one of the names given twice it is not. -/
theorem call_binds_once_mixed :
    let here : Span := ⟨0, 0⟩
    let params : List Name := [⟨"a", here⟩, ⟨"b", here⟩, ⟨"c", here⟩]
    let function : Function := ⟨⟨"f", here⟩, params, .mk here [], here⟩
    let args : List Argument := [.positional (.int here 1), .keyword ⟨"c", here⟩ (.int here 3),
      .keyword ⟨"b", here⟩ (.int here 2)]
    let given : Given := [(none, .int 1), (some "c", .int 3), (some "b", .int 2)]
    (function.params.map Name.text).Nodup ∧
    (∃ scope, scope.names = ["a", "b", "c"] ∧ (Locals.ofParams scope).get? "b" = some (.int 2) ∧
      ∀ enter, ∃ after,
        (callFunction enter "f" args here here).outcome ⟨[function], Limits.standard⟩
            Machine.start =
          (enter function scope here).outcome ⟨[function], Limits.standard⟩ after) ∧
    ¬ ∃ scope, (Arguments.gather (given ++ [(some "c", .int 4)]) >>= bindParams function) =
      .ok scope := by
  intro here params function args given
  have hd : (function.params.map Name.text).Nodup := by decide
  have hcovers : given.Covers (function.params.map Name.text) :=
    ⟨by decide, by decide, by decide, by decide⟩
  obtain ⟨haccepts, hscope, -, hcall⟩ := call_binds_once function hd given
  obtain ⟨scope, hbound⟩ := haccepts.2 hcovers
  obtain ⟨hnames, -, hvalues⟩ := hscope scope hbound
  refine ⟨hd, ⟨scope, hnames, ?_, fun enter => ?_⟩, fun h => ?_⟩
  · obtain ⟨v, hv, hgiven⟩ := hvalues 1 (by decide)
    cases hgiven
    exact hv
  · have hsupplies : ∃ after, Supplies (callNamed enter) ⟨[function], Limits.standard⟩ Machine.start
        args given after :=
      ⟨_, .unnamed rfl (.named rfl (.named rfl (.nothing _)))⟩
    obtain ⟨after, hafter⟩ := hsupplies
    have hentered := hcall enter _ "f" args _ after here here rfl hafter
    rw [hbound] at hentered
    exact ⟨after, hentered⟩
  · have hrefused := (call_binds_once function hd (given ++ [(some "c", .int 4)])).1.1 h
    exact absurd hrefused.distinct (by decide)

end Evaluation

end LandPattern
